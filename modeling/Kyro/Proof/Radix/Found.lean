import Kyro.Proof.Radix.Longest

/-!
# Finding what was inserted

The walk of `insert` goes into a child by its key and skips as many tokens as the child's run has,
whatever they are. Where the nodes on its way hold the tokens of the sequence, a match afterwards
goes the same way to the end; elsewhere the sequence is filed under other tokens, or not at all.
-/

namespace Kyro

open KeyedTree

namespace RadixNode

mutual

/-- The nodes that the loop of `insert` passes. -/
def insertPath : RadixNode → List Token → List PathStep
  | node _ children, tokens =>
    match tokens with
    | [] => []
    | first :: _ => insertPathBelow children first tokens

def insertPathBelow : List (Token × RadixNode) → Token → List Token → List PathStep
  | [], _, _ => []
  | (key, child) :: rest, first, tokens =>
    if key = first then
      step (key, child.label) :: insertPath child (tokens.drop child.label.tokens.length)
    else insertPathBelow rest first tokens

end

theorem insertPathBelow_eq (children : List (Token × RadixNode)) (first : Token)
    (tokens : List Token) :
    insertPathBelow children first tokens =
      match find? first children with
      | none => []
      | some child =>
        step (first, child.label) :: insertPath child (tokens.drop child.label.tokens.length) := by
  induction children with
  | nil => rfl
  | cons head rest ih =>
      obtain ⟨key, child⟩ := head
      by_cases hkey : key = first
      · simp [insertPathBelow, find?, hkey]
      · simp [insertPathBelow, find?, hkey, ih]

theorem insertPath_nil (t : RadixNode) : insertPath t [] = [] := by
  cases t
  rw [insertPath]

/-- The nodes passed are a path, and a node is added at its end unless they use up the tokens. -/
theorem insertPath_spec (t : RadixNode) (tokens : List Token) :
    insertPath t tokens ∈ t.contents ∧
      attachPath t tokens = if (spell (insertPath t tokens)).length < tokens.length then
        some (insertPath t tokens) else none := by
  induction t using KeyedTree.induct generalizing tokens with
  | hnode entry children ih =>
      cases tokens with
      | nil => exact ⟨nil_mem_contents _, rfl⟩
      | cons first rest =>
          rw [insertPath, insertPathBelow_eq, attachPath, attachBelow_eq]
          cases hfind : find? first children with
          | none => exact ⟨nil_mem_contents _, rfl⟩
          | some child =>
              have hmem := mem_of_find? hfind
              obtain ⟨hpath, hattach⟩ :=
                ih first child hmem ((first :: rest).drop child.label.tokens.length)
              refine ⟨?_, ?_⟩
              · rw [contents_node]
                exact List.mem_cons_of_mem _
                  (mem_contentsBelow.mpr ⟨first, child, _, hmem, hpath, rfl⟩)
              · dsimp only
                rw [hattach, spell_cons, List.length_append, List.length_drop]
                split
                · rw [if_pos (by simp only [step]; omega)]
                  rfl
                · rw [if_neg (by simp only [step]; omega)]
                  rfl

/-- The walk for the tokens that a path spells is along the path. -/
theorem insertPath_of_spell {t : RadixNode} (hkeyed : Keyed t) (hdistinct : DistinctKeys t)
    {p : List PathStep} (hp : p ∈ t.contents) : insertPath t (spell p) = p := by
  induction t using KeyedTree.induct generalizing p with
  | hnode entry children ih =>
      cases p with
      | nil => exact insertPath_nil _
      | cons s q =>
          obtain ⟨first, rest, child, hspell, hfind, rfl, hq, _, _⟩ :=
            hkeyed.matching hdistinct hp (List.prefix_refl _)
          have hmem := mem_of_find? hfind
          have hdrop : (spell (step (first, child.label) :: q)).drop child.label.tokens.length =
              spell q := by
            rw [spell_cons]
            exact List.drop_left
          rw [hspell, insertPath, insertPathBelow_eq, hfind, ← hspell]
          dsimp only
          rw [hdrop, ih first child hmem (hkeyed.child hmem) (hdistinct.child hmem) hq]

end RadixNode

namespace RadixCache

/-- The path that an insertion adds goes on from its walk with the tokens that are left. -/
theorem insertedPaths_eq (cache : RadixCache) (tokens : List Token) (blockIds : List BlockId) :
    cache.insertedPaths tokens blockIds =
      if (spell (cache.root.insertPath tokens)).length < tokens.length then
        [cache.root.insertPath tokens ++
          [⟨(tokens.drop (spell (cache.root.insertPath tokens)).length).headD 0,
            tokens.drop (spell (cache.root.insertPath tokens)).length, blockIds⟩]]
      else [] := by
  rw [insertedPaths, (RadixNode.insertPath_spec cache.root tokens).2]
  by_cases hlt : (spell (cache.root.insertPath tokens)).length < tokens.length
  · rw [if_pos hlt, if_pos hlt]
  · rw [if_neg hlt, if_neg hlt]

/-- The paths after an insertion that evicts nothing. -/
theorem mem_contents_of_kept (env : Env) {cache cache' : RadixCache} (h : cache.Formed)
    {tokens : List Token} {blockIds : List BlockId}
    (hkeeps : EvictsNothing env cache cache' tokens blockIds) {path : List PathStep} :
    path ∈ cache'.contents ↔
      path ∈ cache.insertedPaths tokens blockIds ∨ path ∈ cache.contents := by
  rw [hkeeps, (attach_spec env h.counted tokens blockIds).1.mem_iff, List.mem_append]

section Inserted

variable (env : Env) {cache cache' : RadixCache} (h : cache.Formed) {tokens : List Token}
  {blockIds : List BlockId} (hkeeps : EvictsNothing env cache cache' tokens blockIds)

include h hkeeps

/-- A path that spells the sequence is the walk, or goes on from it. -/
theorem insertPath_of_found {p : List PathStep} (hp : p ∈ cache'.contents)
    (hspell : spell p = tokens) : spell (cache.root.insertPath tokens) <+: tokens := by
  rcases (mem_contents_of_kept env h hkeeps).mp hp with hnew | hold
  · rw [insertedPaths_eq] at hnew
    split at hnew
    · rw [List.mem_singleton] at hnew
      rw [hnew, spell_append] at hspell
      exact ⟨_, hspell⟩
    · cases hnew
  · subst hspell
    rw [RadixNode.insertPath_of_spell h.keyed cache.distinct hold]

/-- A walk that reads the sequence ends at a path that spells it, or such a path is added. -/
theorem found_of_insertPath (hwalk : spell (cache.root.insertPath tokens) <+: tokens) :
    ∃ p ∈ cache'.contents, spell p = tokens := by
  by_cases hlt : (spell (cache.root.insertPath tokens)).length < tokens.length
  · have hnew := insertedPaths_eq cache tokens blockIds
    rw [if_pos hlt] at hnew
    refine ⟨_, (mem_contents_of_kept env h hkeeps).mpr
      (Or.inl (hnew ▸ List.mem_singleton_self _)), ?_⟩
    rw [spell_append, spell_cons, spell_nil, List.append_nil]
    exact List.prefix_iff_eq_append.mp hwalk
  · exact ⟨_, (mem_contents_of_kept env h hkeeps).mpr
      (Or.inr (RadixNode.insertPath_spec cache.root tokens).1),
      hwalk.eq_of_length (Nat.le_antisymm hwalk.length_le (Nat.le_of_not_lt hlt))⟩

end Inserted

/-- **What was inserted is found exactly where the walk read its tokens.** After an insertion that
evicts nothing, a match covers all tokens if and only if the nodes that the insertion passed hold
these tokens. -/
theorem inserted_found_iff (env : Env) {capacity : ℕ} {calls : List Call} {cache : RadixCache}
    (hrun : history env capacity calls = .ok cache) (tokens : List Token)
    (blockIds : List BlockId) {cache' : RadixCache}
    (hinsert : cache.insert env tokens blockIds = .ok cache')
    (hkeeps : EvictsNothing env cache cache' tokens blockIds) :
    (cache'.matchPrefix env tokens).2.2 = tokens.length ↔
      spell (cache.root.insertPath tokens) <+: tokens := by
  have h := history_formed env hrun
  obtain ⟨_, heq, h', _⟩ := exec_formed env h (.insert tokens blockIds)
  rw [exec, hinsert] at heq
  cases heq
  obtain ⟨p, hp, hresult⟩ := matchPrefix_greatest env h' tokens
  rw [hresult]
  constructor
  · intro hall
    exact insertPath_of_found env h hkeeps hp.mem (hp.spells.eq_of_length hall)
  · intro hwalk
    obtain ⟨q, hq, hspell⟩ := found_of_insertPath env h hkeeps hwalk
    obtain ⟨more, rfl⟩ := hp.greatest q hq (by rw [hspell])
    have hle := hp.spells.length_le
    rw [spell_append, List.length_append, hspell] at hle ⊢
    omega

/-- The second sequence goes on from the first one. -/
theorem inserted_found_extended :
    ∃ cache cache', history .counting 9 [.insert [1, 2] [4]] = .ok cache ∧
      cache.insert .counting [1, 2, 3] [5, 6] = .ok cache' ∧
      (cache'.matchPrefix .counting [1, 2, 3]).2.2 = 3 := by
  have hrun : ∃ cache, history .counting 9 [.insert [1, 2] [4]] = .ok cache ∧
      ∃ cache', cache.insert .counting [1, 2, 3] [5, 6] = .ok cache' ∧
        cache'.contents = (cache.attach .counting [1, 2, 3] [5, 6]).contents ∧
        spell (cache.root.insertPath [1, 2, 3]) <+: [1, 2, 3] := by
    decide +kernel
  obtain ⟨cache, hrun, cache', hinsert, hkeeps, hwalk⟩ := hrun
  exact ⟨cache, cache', hrun, hinsert,
    (inserted_found_iff .counting hrun [1, 2, 3] [5, 6] hinsert hkeeps).mpr hwalk⟩

/-- The second sequence leaves the node of the first one after its first token, and nothing is
added: the walk has skipped two tokens. -/
theorem inserted_not_found :
    ∃ cache, history .counting 9 [.insert [1, 2] [4]] = .ok cache ∧
      ∃ cache', cache.insert .counting [1, 3] [5] = .ok cache' ∧
        EvictsNothing .counting cache cache' [1, 3] [5] ∧
        (cache'.matchPrefix .counting [1, 3]).2.2 = 0 := by
  have hrun : ∃ cache, history .counting 9 [.insert [1, 2] [4]] = .ok cache ∧
      ∃ cache', cache.insert .counting [1, 3] [5] = .ok cache' ∧
        cache'.contents = (cache.attach .counting [1, 3] [5]).contents ∧
        (cache'.matchPrefix .counting [1, 3]).2.2 = 0 := by
    decide +kernel
  exact hrun

end RadixCache
end Kyro
