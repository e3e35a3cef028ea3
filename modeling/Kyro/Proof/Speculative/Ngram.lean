import Kyro.Speculative

/-!
# Drafts from n-grams

The table holds the windows of the corpus, of those with one beginning the last one. Every pass of
the drafting loop adds the end of a window whose beginning it has before it, so the drafts run along
the corpus.
-/

namespace Kyro.SpeculativeDecoder

/-! ### Windows -/

/-- The windows of a sequence, from its front to its end. -/
def windows (order : ℕ) (seq : List Token) : List (List Token) :=
  if seq.length < order then []
  else (List.range (seq.length - order + 1)).map fun i => (seq.drop i).take order

/-- The windows of a corpus, in its order. -/
def corpusWindows (order : ℕ) (corpus : List (List Token)) : List (List Token) :=
  corpus.flatMap (windows order)

section Windows

variable {order : ℕ} {seq w : List Token} {corpus : List (List Token)}

theorem window_of_mem (h : w ∈ windows order seq) : w <:+: seq ∧ w.length = order := by
  rw [windows] at h
  split at h
  · cases h
  · rename_i hlength
    obtain ⟨i, hi, rfl⟩ := List.mem_map.mp h
    rw [List.mem_range] at hi
    constructor
    · exact (List.take_prefix order _).isInfix.trans (List.drop_suffix i seq).isInfix
    · rw [List.length_take, List.length_drop]
      omega

theorem window_of_mem_corpus (h : w ∈ corpusWindows order corpus) :
    w.length = order ∧ ∃ seq ∈ corpus, w <:+: seq := by
  obtain ⟨seq, hseq, hw⟩ := List.mem_flatMap.mp h
  obtain ⟨hwindow, hlength⟩ := window_of_mem hw
  exact ⟨hlength, seq, hseq, hwindow⟩

end Windows

/-! ### The table -/

section Table

variable {order : ℕ}

/-- A window, put into the table. -/
def putWindow (order : ℕ) (table : AList fun _ : List Token => Token) (w : List Token) :
    AList fun _ : List Token => Token :=
  table.insert (w.take (order - 1)) (w.getD (order - 1) 0)

theorem insertWindow_eq (hpos : 1 ≤ order) {seq : List Token} {i : ℕ}
    (hi : i + order ≤ seq.length) (table : AList fun _ : List Token => Token) :
    insertWindow order seq table i = .ok (putWindow order table ((seq.drop i).take order)) := by
  have hlast : i + order - 1 < seq.length := by omega
  have hkey : slice seq i (i + order - 1) = .ok ((seq.drop i).take (order - 1)) := by
    rw [slice, if_pos ⟨by omega, by omega⟩, List.drop_take]
    congr 2
    omega
  have htake : ((seq.drop i).take order).take (order - 1) = (seq.drop i).take (order - 1) := by
    rw [List.take_take, Nat.min_eq_left (Nat.sub_le order 1)]
  have hnext : ((seq.drop i).take order).getD (order - 1) 0 = seq[i + order - 1] := by
    have hindex : i + (order - 1) = i + order - 1 := by omega
    rw [List.getD_eq_getElem?_getD, List.getElem?_take_of_lt (by omega), List.getElem?_drop,
      hindex, List.getElem?_eq_getElem hlast]
    rfl
  rw [insertWindow, checkedSub_of_le (by omega), Machine.ok_bind, hkey, Machine.ok_bind,
    List.getElem?_eq_getElem hlast, orPanic_some, Machine.ok_bind, putWindow, htake, hnext]
  rfl

theorem insertSequence_eq (hpos : 1 ≤ order) (table : AList fun _ : List Token => Token)
    (seq : List Token) :
    insertSequence order table seq = .ok ((windows order seq).foldl (putWindow order) table) := by
  rw [insertSequence, windows]
  split
  · rfl
  · rename_i hlength
    rw [List.foldl_map]
    apply Machine.foldlM_eq_foldl
    intro table i hi
    rw [List.mem_range] at hi
    exact insertWindow_eq hpos (by omega) table

/-- The table of a corpus, window by window. -/
def tableOf (order : ℕ) (ws : List (List Token)) : AList fun _ : List Token => Token :=
  ws.foldl (putWindow order) ∅

theorem buildNgramTable_eq {σ χ : Type} (hpos : 1 ≤ order) (decoder : SpeculativeDecoder σ χ)
    (corpus : List (List Token)) : decoder.buildNgramTable corpus order =
      .ok { decoder with ngramTable := tableOf order (corpusWindows order corpus) } := by
  have htable : corpus.foldlM (insertSequence order) ∅ =
      .ok (tableOf order (corpusWindows order corpus)) := by
    rw [tableOf, corpusWindows, List.foldl_flatMap]
    exact Machine.foldlM_eq_foldl (fun table seq _ => insertSequence_eq hpos table seq) ∅
  rw [buildNgramTable, htable]
  rfl

/-- What comes after the last window with a beginning. -/
def lastNext (order : ℕ) (ws : List (List Token)) (key : List Token) : Option Token :=
  (ws.reverse.find? fun w => w.take (order - 1) = key).map fun w => w.getD (order - 1) 0

/-- A later window takes the place of an earlier one. -/
theorem lookup_tableOf (ws : List (List Token)) (key : List Token) :
    (tableOf order ws).lookup key = lastNext order ws key := by
  induction ws using List.reverseRecOn with
  | nil => rfl
  | append_singleton ws w ih =>
      rw [tableOf, List.foldl_append, ← tableOf, lastNext, List.reverse_append]
      show ((tableOf order ws).insert _ _).lookup key = ((w :: ws.reverse).find? _).map _
      by_cases hkey : w.take (order - 1) = key
      · rw [List.find?_cons_of_pos (by simpa using hkey), ← hkey, AList.lookup_insert]
        rfl
      · rw [List.find?_cons_of_neg (by simpa using hkey), AList.lookup_insert_ne (Ne.symm hkey), ih,
          lastNext]

/-- A window is its beginning and its last token. -/
theorem window_eq (hpos : 1 ≤ order) {w : List Token} (hw : w.length = order) :
    w = w.take (order - 1) ++ [w.getD (order - 1) 0] := by
  have hlast : order - 1 < w.length := by omega
  have hwhole : w.drop (order - 1) = [w.getD (order - 1) 0] := by
    rw [List.drop_eq_getElem_cons hlast, List.drop_of_length_le (by omega),
      List.getD_eq_getElem?_getD, List.getElem?_eq_getElem hlast]
    rfl
  rw [← hwhole, List.take_append_drop]

theorem lastNext_eq_some (hpos : 1 ≤ order) {ws : List (List Token)}
    (hws : ∀ w ∈ ws, w.length = order) {key : List Token} {next : Token} :
    lastNext order ws key = some next ↔ ∃ before after,
      ws = before ++ (key ++ [next]) :: after ∧ ∀ w ∈ after, w.take (order - 1) ≠ key := by
  rw [lastNext, Option.map_eq_some_iff]
  constructor
  · rintro ⟨w, hfind, rfl⟩
    obtain ⟨hkey, after, before, hsplit, hafter⟩ := List.find?_eq_some_iff_append.mp hfind
    have hkey' : w.take (order - 1) = key := by simpa using hkey
    refine ⟨before.reverse, after.reverse, ?_, ?_⟩
    · have hmem : w ∈ ws := List.mem_reverse.mp (List.mem_of_find?_eq_some hfind)
      rw [← hkey', ← window_eq hpos (hws w hmem), ← List.reverse_reverse ws, hsplit]
      simp
    · intro w' hw'
      simpa using hafter w' (List.mem_reverse.mp hw')
  · rintro ⟨before, after, rfl, hafter⟩
    have hlength : (key ++ [next]).length = order := hws _ (by simp)
    have hkeyLength : order - 1 = key.length := by
      rw [← hlength, List.length_append, List.length_singleton, Nat.add_sub_cancel]
    refine ⟨key ++ [next], List.find?_eq_some_iff_append.mpr ⟨?_, after.reverse, before.reverse, ?_,
      ?_⟩, ?_⟩
    · simp [hkeyLength]
    · simp
    · intro w hw
      simpa using hafter w (List.mem_reverse.mp hw)
    · rw [hkeyLength, List.getD_eq_getElem?_getD, List.getElem?_append_right le_rfl]
      simp

end Table

/-! ### The drafting loop -/

section Drafts

variable {order : ℕ} {table : AList fun _ : List Token => Token} {P : List Token → Prop}

/-- **Every draft ends a window** that the table holds, after any number of passes. -/
theorem ngramLoop_windows (hpos : 1 ≤ order)
    (htable : ∀ key next, table.lookup key = some next → P (key ++ [next])) (n : ℕ)
    (ctx : List Token) :
    ∃ drafts, ngramLoop table order n ctx = .ok drafts ∧ drafts.length ≤ n ∧
      ∀ i < drafts.length, order ≤ ctx.length + i + 1 ∧
        P (((ctx ++ drafts).drop (ctx.length + i + 1 - order)).take order) := by
  induction n generalizing ctx with
  | zero => exact ⟨[], rfl, le_rfl, fun i hi => absurd hi (Nat.not_lt_zero i)⟩
  | succ n ih =>
      have hstop : ∀ result, result = Except.ok (ε := Fault) ([] : List Token) →
          ∃ drafts, result = .ok drafts ∧ drafts.length ≤ n + 1 ∧
            ∀ i < drafts.length, order ≤ ctx.length + i + 1 ∧
              P (((ctx ++ drafts).drop (ctx.length + i + 1 - order)).take order) :=
        fun _ h => ⟨[], h, Nat.zero_le _, fun i hi => absurd hi (Nat.not_lt_zero i)⟩
      rw [ngramLoop]
      split
      · exact hstop _ rfl
      · rename_i hctx
        rw [if_neg (by omega)]
        split
        · rename_i next hlookup
          obtain ⟨rest, hrest, hlength, hwindows⟩ := ih (ctx ++ [next])
          refine ⟨next :: rest, ?_, Nat.succ_le_succ hlength, fun i hi => ?_⟩
          · rw [hrest]
            rfl
          · cases i with
            | zero =>
                -- The new window is the key that was looked up and the token that was found.
                have hstart : ctx.length + 0 + 1 - order = ctx.length - (order - 1) := by omega
                have hkey : (ctx.drop (ctx.length - (order - 1))).length = order - 1 := by
                  rw [List.length_drop]
                  omega
                refine ⟨by omega, ?_⟩
                rw [hstart, List.drop_append_of_le_length (Nat.sub_le _ _), List.take_append, hkey,
                  List.take_of_length_le (by omega), Nat.sub_sub_self hpos]
                exact htable _ _ hlookup
            | succ i =>
                obtain ⟨hroom, hwindow⟩ := hwindows i (Nat.lt_of_succ_lt_succ hi)
                rw [List.length_append, List.length_singleton] at hroom hwindow
                have hposition : ctx.length + (i + 1) = ctx.length + 1 + i := by omega
                rw [hposition]
                refine ⟨hroom, ?_⟩
                rwa [List.append_assoc] at hwindow
        · exact hstop _ rfl

end Drafts

/-- **N-gram drafts come from the corpus.** -/
theorem generateDrafts_ngram {σ χ : Type} (decoder : SpeculativeDecoder σ χ)
    (corpus : List (List Token)) {order : ℕ} (hpos : 1 ≤ order) :
    ∃ built, decoder.buildNgramTable corpus order = .ok built ∧
      (∀ key next, built.ngramTable.lookup key = some next ↔ ∃ before after,
        corpusWindows order corpus = before ++ (key ++ [next]) :: after ∧
          ∀ w ∈ after, w.take (order - 1) ≠ key) ∧
      ∀ s input index context, ∃ drafts,
        generateDrafts { built with strategy := .ngram order } s input index context =
          .ok (s, .ok drafts) ∧
        drafts.length ≤ decoder.lookahead ∧
        ∀ i < drafts.length, order ≤ context.length + i + 1 ∧ ∃ seq ∈ corpus,
          ((context ++ drafts).drop (context.length + i + 1 - order)).take order <:+: seq := by
  have hlookup : ∀ key next,
      (tableOf order (corpusWindows order corpus)).lookup key = some next ↔ ∃ before after,
        corpusWindows order corpus = before ++ (key ++ [next]) :: after ∧
          ∀ w ∈ after, w.take (order - 1) ≠ key := by
    intro key next
    rw [lookup_tableOf, lastNext_eq_some hpos fun w hw => (window_of_mem_corpus hw).1]
  refine ⟨_, buildNgramTable_eq hpos decoder corpus, hlookup, fun s input index context => ?_⟩
  obtain ⟨drafts, hdrafts, hlength, hwindows⟩ := ngramLoop_windows hpos
    (P := fun w => ∃ seq ∈ corpus, w <:+: seq) (fun key next h => by
      obtain ⟨before, after, hsplit, _⟩ := (hlookup key next).mp h
      exact (window_of_mem_corpus (by rw [hsplit]; simp)).2) decoder.lookahead context
  refine ⟨drafts, ?_, hlength, hwindows⟩
  show (ngramLoop _ order decoder.lookahead context).map _ = _
  rw [hdrafts]
  rfl

/-- Two sequences, the second of which overwrites the beginning `2`. -/
theorem generateDrafts_ngram_two :
    ∃ built, (new (σ := Unit) (χ := Unit) (fun s _ _ => .ok (s, .ok [])) none 3).buildNgramTable
        [[1, 2, 3], [2, 4]] 2 = .ok built ∧
      ∀ index context, ∃ drafts,
        generateDrafts { built with strategy := .ngram 2 } () () index context =
          .ok ((), .ok drafts) ∧ drafts.length ≤ 3 := by
  obtain ⟨built, hbuilt, _, hdrafts⟩ := generateDrafts_ngram
    (new (σ := Unit) (χ := Unit) (fun s _ _ => .ok (s, .ok [])) none 3) [[1, 2, 3], [2, 4]]
    (show 1 ≤ 2 by decide)
  refine ⟨built, hbuilt, fun index context => ?_⟩
  obtain ⟨drafts, hok, hlength, _⟩ := hdrafts () () index context
  exact ⟨drafts, hok, hlength⟩

end Kyro.SpeculativeDecoder
