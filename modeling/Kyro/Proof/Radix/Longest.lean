import Kyro.Proof.Radix.Cache

/-!
# A match is the longest path

Every child is stored under the first token of its run, so of the children of a node only one can
lead to a path that spells the start of a query. The walk of `match_prefix` takes it, and ends at
the greatest of these paths. What a change of the tree does to a match follows from what it does to
the set of paths.
-/

namespace Kyro

open KeyedTree

/-- The path that goes on from all others, of those that spell the start of the query. -/
structure Greatest (paths : List (List PathStep)) (query : List Token) (p : List PathStep) :
    Prop where
  mem : p ∈ paths
  spells : spell p <+: query
  greatest : ∀ q ∈ paths, spell q <+: query → q <+: p

/-- With more paths the greatest one goes on. -/
theorem Greatest.mono {paths paths' : List (List PathStep)} {query : List Token}
    {p p' : List PathStep} (h : Greatest paths query p) (h' : Greatest paths' query p')
    (hsub : paths ⊆ paths') : p <+: p' :=
  h'.greatest p (hsub h.mem) h.spells

namespace RadixNode

/-- Every child is stored under the first token of its run. -/
def Keyed (t : RadixNode) : Prop :=
  ∀ p ∈ t.contents, ∀ s ∈ p, s.tokens.head? = some s.key

section Keyed

variable {entry : RadixEntry} {children : List (Token × RadixNode)}

theorem Keyed.label (h : Keyed (node entry children)) {key : Token} {child : RadixNode}
    (hmem : (key, child) ∈ children) : child.label.tokens.head? = some key := by
  refine h [step (key, child.label)] ?_ _ (List.mem_singleton_self _)
  rw [contents_node]
  exact List.mem_cons_of_mem _
    (mem_contentsBelow.mpr ⟨key, child, [], hmem, nil_mem_contents child, rfl⟩)

theorem Keyed.child (h : Keyed (node entry children)) {key : Token} {child : RadixNode}
    (hmem : (key, child) ∈ children) : Keyed child := by
  intro p hp s hs
  refine h (step (key, child.label) :: p) ?_ s (List.mem_cons_of_mem _ hs)
  rw [contents_node]
  exact List.mem_cons_of_mem _ (mem_contentsBelow.mpr ⟨key, child, p, hmem, hp, rfl⟩)

/-- A path that spells the start of a query goes to the child under the query's first token. -/
theorem Keyed.matching (h : Keyed (node entry children))
    (hdistinct : DistinctKeys (node entry children)) {s : PathStep}
    {q : List PathStep} (hmem : s :: q ∈ contents (node entry children)) {query : List Token}
    (hspell : spell (s :: q) <+: query) :
    ∃ first rest child, query = first :: rest ∧ find? first children = some child ∧
      s = step (first, child.label) ∧ q ∈ contents child ∧ child.label.tokens <+: query ∧
      spell q <+: query.drop child.label.tokens.length := by
  rw [contents_node, List.mem_cons] at hmem
  obtain ⟨key, child, _, hchild, hq, heq⟩ := mem_contentsBelow.mp (hmem.resolve_left (by simp))
  obtain ⟨rfl, rfl⟩ := List.cons.inj heq
  rw [spell_cons] at hspell
  have hlabel : child.label.tokens <+: query := (List.prefix_append _ _).trans hspell
  have hhead := h.label hchild
  obtain ⟨tail, htokens⟩ := List.head?_eq_some_iff.mp hhead
  obtain ⟨rest, hrest⟩ := hlabel
  refine ⟨key, tail ++ rest, child, ?_, ?_, rfl, hq, ⟨rest, hrest⟩, ?_⟩
  · rw [← hrest, htokens, List.cons_append]
  · exact find?_of_mem (distinctKeys_node.mp hdistinct).1 hchild
  · rw [← hrest, List.drop_left]
    rw [← hrest] at hspell
    exact (List.prefix_append_right_inj _).mp hspell

/-- Where no child leads on, the path that ends here is the greatest. -/
theorem Keyed.greatest_nil (h : Keyed (node entry children))
    (hdistinct : DistinctKeys (node entry children)) {query : List Token}
    (hnone : ∀ first rest child, query = first :: rest → find? first children = some child →
      ¬ child.label.tokens <+: query) : Greatest (contents (node entry children)) query [] := by
  refine ⟨nil_mem_contents _, List.nil_prefix, fun q hq hspell => ?_⟩
  cases q with
  | nil => exact List.nil_prefix
  | cons s q =>
      obtain ⟨first, rest, child, hquery, hfind, _, _, hlabel, _⟩ :=
        h.matching hdistinct hq hspell
      exact absurd hlabel (hnone first rest child hquery hfind)

/-- The greatest path goes through the child whose label the query starts with. -/
theorem Keyed.greatest_cons (h : Keyed (node entry children))
    (hdistinct : DistinctKeys (node entry children)) {first : Token} {rest : List Token}
    {child : RadixNode} (hfind : find? first children = some child)
    (hlabel : child.label.tokens <+: first :: rest) {p : List PathStep}
    (hp : Greatest child.contents ((first :: rest).drop child.label.tokens.length) p) :
    Greatest (contents (node entry children)) (first :: rest)
      (step (first, child.label) :: p) := by
  refine ⟨?_, ?_, fun q hq hspell => ?_⟩
  · rw [contents_node]
    exact List.mem_cons_of_mem _
      (mem_contentsBelow.mpr ⟨first, child, p, mem_of_find? hfind, hp.mem, rfl⟩)
  · have htokens := List.prefix_iff_eq_append.mp hlabel
    rw [spell_cons, ← htokens]
    exact (List.prefix_append_right_inj _).mpr hp.spells
  · cases q with
    | nil => exact List.nil_prefix
    | cons s q =>
        obtain ⟨first', rest', child', hquery, hfind', rfl, hbelow, _, hrest⟩ :=
          h.matching hdistinct hq hspell
        obtain ⟨rfl, rfl⟩ := List.cons.inj hquery
        obtain rfl := Option.some.inj (hfind.symm.trans hfind')
        exact (List.prefix_cons_inj _).mpr (hp.greatest q hbelow hrest)

end Keyed

/-- **The walk of `match_prefix`** ends at the greatest path. -/
theorem matchFrom_greatest (env : Env) {t : RadixNode} (hkeyed : Keyed t)
    (hdistinct : DistinctKeys t) (query : List Token) (tick : ℕ) :
    ∃ p, Greatest t.contents query p ∧
      (matchFrom env t query tick).2.1 = pathBlocks p ∧
      (matchFrom env t query tick).2.2.1 = (spell p).length := by
  induction t using KeyedTree.induct generalizing query tick with
  | hnode entry children ih =>
      cases query with
      | nil =>
          rw [matchFrom_nil]
          exact ⟨[], hkeyed.greatest_nil hdistinct (by simp), rfl, rfl⟩
      | cons first rest =>
          cases hfind : find? first children with
          | none =>
              rw [matchFrom_vacant hfind]
              refine ⟨[], hkeyed.greatest_nil hdistinct fun first' rest' child hquery hchild => ?_,
                rfl, rfl⟩
              obtain ⟨rfl, rfl⟩ := List.cons.inj hquery
              rw [hfind] at hchild
              cases hchild
          | some child =>
              by_cases hmatch :
                  matchLen child.label.tokens (first :: rest) = child.label.tokens.length
              · have hmem := mem_of_find? hfind
                obtain ⟨p, hp, hblocks, hlen⟩ := ih first child hmem (hkeyed.child hmem)
                  (hdistinct.child hmem) ((first :: rest).drop child.label.tokens.length) (tick + 1)
                rw [matchFrom_step hfind hmatch]
                refine ⟨_, hkeyed.greatest_cons hdistinct hfind (matchLen_eq_iff.mp hmatch) hp,
                  ?_, ?_⟩
                · simp only [hblocks]
                  rfl
                · simp only [hlen, spell_cons, List.length_append]
                  rfl
              · rw [matchFrom_stop hfind hmatch]
                refine ⟨[], hkeyed.greatest_nil hdistinct
                  fun first' rest' child' hquery hchild => ?_, rfl, rfl⟩
                obtain ⟨rfl, rfl⟩ := List.cons.inj hquery
                obtain rfl := Option.some.inj (hfind.symm.trans hchild)
                rwa [← matchLen_eq_iff]

end RadixNode

namespace RadixCache

/-! ### Reachable caches -/

/-- The caches that calls lead to. -/
structure Formed (cache : RadixCache) : Prop where
  counted : cache.Counted
  keyed : cache.root.Keyed

theorem new_formed (env : Env) (capacity : ℕ) : (new env capacity).Formed where
  counted := new_counted env capacity
  keyed p hp s hs := by
    obtain rfl : p = [] := List.mem_singleton.mp hp
    cases hs

/-- An insertion adds a path of the tree with the tokens that are left as one more node. -/
theorem mem_insertedPaths {cache : RadixCache} {tokens : List Token} {blockIds : List BlockId}
    {path : List PathStep} (hpath : path ∈ cache.insertedPaths tokens blockIds) :
    ∃ p ∈ cache.contents, ∃ first rest, tokens.drop (spell p).length = first :: rest ∧
      path = p ++ [⟨first, first :: rest, blockIds⟩] := by
  have hcontents :=
    (RadixNode.insertFrom_contents .counting blockIds cache.root tokens cache.tick).2
  rw [insertedPaths] at hpath
  cases hattach : RadixNode.attachPath cache.root tokens with
  | none => simp [hattach] at hpath
  | some p =>
      rw [hattach] at hcontents hpath
      obtain ⟨_, hp, first, rest, hdrop, _⟩ := hcontents
      dsimp only at hpath
      rw [hdrop, List.mem_singleton] at hpath
      exact ⟨p, hp, first, rest, hdrop, hpath⟩

theorem insertedPaths_keyed {cache : RadixCache} (h : cache.root.Keyed) {tokens : List Token}
    {blockIds : List BlockId} {path : List PathStep}
    (hpath : path ∈ cache.insertedPaths tokens blockIds) :
    ∀ s ∈ path, s.tokens.head? = some s.key := by
  obtain ⟨p, hp, first, rest, _, rfl⟩ := mem_insertedPaths hpath
  intro s hs
  rcases List.mem_append.mp hs with hs | hs
  · exact h p hp s hs
  · rw [List.mem_singleton.mp hs]
    rfl

theorem attach_formed (env : Env) {cache : RadixCache} (h : cache.Formed) (tokens : List Token)
    (blockIds : List BlockId) : (cache.attach env tokens blockIds).Formed := by
  obtain ⟨hperm, hcounted, _⟩ := attach_spec env h.counted tokens blockIds
  refine ⟨hcounted, fun path hpath => ?_⟩
  rcases List.mem_append.mp (hperm.subset hpath) with hnew | hold
  · exact insertedPaths_keyed h.keyed hnew
  · exact h.keyed path hold

/-- **No call panics**, and what it does to the paths: an insertion adds its path, and it and an
eviction take paths away. -/
theorem exec_formed (env : Env) {cache : RadixCache} (h : cache.Formed) (call : Call) :
    ∃ cache', cache.exec env call = .ok cache' ∧ cache'.Formed ∧
      cache'.maxCapacity = cache.maxCapacity := by
  cases call with
  | insert tokens blockIds =>
      obtain ⟨cache', removed, hinsert, hperm, hcounted, hcapacity, _⟩ :=
        insert_spec env h.counted tokens blockIds
      refine ⟨cache', hinsert, ⟨hcounted, fun path hpath => ?_⟩, hcapacity⟩
      have hmem := hperm.symm.subset (List.mem_append_right removed hpath)
      rcases List.mem_append.mp hmem with hnew | hold
      · exact insertedPaths_keyed h.keyed hnew
      · exact h.keyed path hold
  | matchPrefix tokens =>
      refine ⟨_, rfl, ⟨cache.matchPrefix_counted env tokens h.counted, fun path hpath => ?_⟩, rfl⟩
      have hsame : (cache.matchPrefix env tokens).1.root.contents = cache.root.contents :=
        cache.matchPrefix_contents env tokens
      exact h.keyed path (hsame ▸ hpath)
  | evictLru =>
      obtain ⟨cache', removed, hevict, hperm, hcounted, hcapacity⟩ := evictLru_spec env h.counted
      refine ⟨cache', by rw [exec, hevict]; rfl, ⟨hcounted, fun path hpath => ?_⟩, hcapacity⟩
      exact h.keyed path (hperm.symm.subset (List.mem_append_right removed hpath))

/-- Calls on a fresh cache never panic. -/
theorem history_total (env : Env) (capacity : ℕ) (calls : List Call) :
    ∃ cache, history env capacity calls = .ok cache ∧ cache.Formed ∧
      cache.maxCapacity = capacity := by
  refine Machine.run_progress (P := fun _ _ => True)
    (I := fun cache : RadixCache => cache.Formed ∧ cache.maxCapacity = capacity)
    (fun cache call h _ => ?_) ⟨new_formed env capacity, rfl⟩ (Machine.along_true _ _)
  obtain ⟨cache', hexec, hformed, hcapacity⟩ := exec_formed env h.1 call
  exact ⟨cache', hexec, hformed, hcapacity.trans h.2⟩

theorem history_formed (env : Env) {capacity : ℕ} {calls : List Call} {cache : RadixCache}
    (hrun : history env capacity calls = .ok cache) : cache.Formed := by
  obtain ⟨_, heq, hformed, _⟩ := history_total env capacity calls
  rw [hrun] at heq
  cases heq
  exact hformed

/-! ### Matches -/

theorem matchPrefix_greatest (env : Env) {cache : RadixCache} (h : cache.Formed)
    (query : List Token) :
    ∃ p, Greatest cache.contents query p ∧
      (cache.matchPrefix env query).2 = (pathBlocks p, (spell p).length) := by
  obtain ⟨p, hp, hblocks, hlen⟩ :=
    RadixNode.matchFrom_greatest env h.keyed cache.distinct query cache.tick
  exact ⟨p, hp, Prod.ext hblocks hlen⟩

/-- Two caches that differ in access times only. -/
structure SameButTimes (cache cache' : RadixCache) : Prop where
  contents : cache'.contents = cache.contents
  rootTokens : cache'.root.label.tokens = cache.root.label.tokens
  rootBlockIds : cache'.root.label.blockIds = cache.root.label.blockIds
  numCachedBlocks : cache'.numCachedBlocks = cache.numCachedBlocks
  maxCapacity : cache'.maxCapacity = cache.maxCapacity

theorem matchPrefix_sameButTimes (env : Env) (cache : RadixCache) (query : List Token) :
    cache.SameButTimes (cache.matchPrefix env query).1 := by
  obtain ⟨hcontents, hlabel⟩ := RadixNode.matchFrom_contents env cache.root query cache.tick
  exact ⟨hcontents, congrArg (·.tokens) hlabel, congrArg (·.blockIds) hlabel, rfl, rfl⟩

/-- **A match is the longest one.** In every cache that calls lead to, a child is stored under the
first token of its run, and a match is a path from the root that spells the matched part of the
query, with the blocks of its nodes; no path that spells the start of the query is longer. The call
changes access times only. -/
theorem match_is_longest (env : Env) {capacity : ℕ} {calls : List Call} {cache : RadixCache}
    (hrun : history env capacity calls = .ok cache) :
    (∀ path ∈ cache.contents, ∀ s ∈ path, s.tokens.head? = some s.key) ∧
    ∀ query, ∃ path ∈ cache.contents,
      (cache.matchPrefix env query).2.1 = pathBlocks path ∧
      query.take (cache.matchPrefix env query).2.2 = spell path ∧
      (cache.matchPrefix env query).2.2 = (spell path).length ∧
      (∀ other ∈ cache.contents, spell other <+: query →
        (spell other).length ≤ (spell path).length ∧ other.length ≤ path.length) ∧
      cache.SameButTimes (cache.matchPrefix env query).1 := by
  have h := history_formed env hrun
  refine ⟨h.keyed, fun query => ?_⟩
  obtain ⟨p, hp, hresult⟩ := matchPrefix_greatest env h query
  rw [hresult]
  refine ⟨p, hp.mem, rfl, (List.prefix_iff_eq_take.mp hp.spells).symm, rfl, ?_,
    cache.matchPrefix_sameButTimes env query⟩
  intro other hother hspell
  obtain ⟨more, rfl⟩ := hp.greatest other hother hspell
  rw [spell_append, List.length_append, List.length_append]
  exact ⟨Nat.le_add_right _ _, Nat.le_add_right _ _⟩

/-- A query that two of three nested prefixes match. -/
theorem match_is_longest_nested :
    ∃ cache, history .counting 9 [.insert [1, 2] [4], .insert [1, 2, 3] [5, 6],
        .insert [1, 2, 3, 4] [7]] = .ok cache ∧
      ∀ path ∈ cache.contents, ∀ s ∈ path, s.tokens.head? = some s.key := by
  have hrun : ∃ cache, history .counting 9 [.insert [1, 2] [4], .insert [1, 2, 3] [5, 6],
      .insert [1, 2, 3, 4] [7]] = .ok cache ∧ cache.contents.length = 4 := by
    decide +kernel
  obtain ⟨cache, hrun, _⟩ := hrun
  exact ⟨cache, hrun, (match_is_longest .counting hrun).1⟩

/-! ### Matches before and after -/

/-- One result of `match_prefix` goes on from another. -/
def Extends (before after : List BlockId × ℕ) : Prop :=
  before.2 ≤ after.2 ∧ before.1 <+: after.1

theorem extends_of_front {p p' : List PathStep} (h : p <+: p') :
    Extends (pathBlocks p, (spell p).length) (pathBlocks p', (spell p').length) := by
  obtain ⟨more, rfl⟩ := h
  rw [Extends, spell_append, List.length_append, pathBlocks, pathBlocks, List.flatMap_append]
  exact ⟨Nat.le_add_right _ _, List.prefix_append _ _⟩

/-- A cache with more paths matches more, and what was matched is served as before. -/
theorem extends_of_subset (env : Env) {cache cache' : RadixCache} (h : cache.Formed)
    (h' : cache'.Formed) (hsub : cache.contents ⊆ cache'.contents) (query : List Token) :
    Extends (cache.matchPrefix env query).2 (cache'.matchPrefix env query).2 := by
  obtain ⟨p, hp, hresult⟩ := matchPrefix_greatest env h query
  obtain ⟨p', hp', hresult'⟩ := matchPrefix_greatest env h' query
  rw [hresult, hresult']
  exact extends_of_front (hp.mono hp' hsub)

/-- Two matches that a third one goes on from: one of them goes on from the other. -/
theorem extends_or_extends (env : Env) {cache cache' whole : RadixCache} (h : cache.Formed)
    (h' : cache'.Formed) (hwhole : whole.Formed) (hsub : cache.contents ⊆ whole.contents)
    (hsub' : cache'.contents ⊆ whole.contents) (query : List Token) :
    Extends (cache.matchPrefix env query).2 (cache'.matchPrefix env query).2 ∨
      Extends (cache'.matchPrefix env query).2 (cache.matchPrefix env query).2 := by
  obtain ⟨p, hp, hresult⟩ := matchPrefix_greatest env h query
  obtain ⟨p', hp', hresult'⟩ := matchPrefix_greatest env h' query
  obtain ⟨whole, hgreatest, _⟩ := matchPrefix_greatest env hwhole query
  rw [hresult, hresult']
  rcases List.prefix_or_prefix_of_prefix (hp.mono hgreatest hsub) (hp'.mono hgreatest hsub') with
    hle | hle
  · exact Or.inl (extends_of_front hle)
  · exact Or.inr (extends_of_front hle)

/-- The tree that an insertion leaves has all nodes of the tree it found, and its own. -/
def EvictsNothing (env : Env) (cache cache' : RadixCache) (tokens : List Token)
    (blockIds : List BlockId) : Prop :=
  cache'.contents = (cache.attach env tokens blockIds).contents

theorem contents_subset_attach (env : Env) {cache : RadixCache} (h : cache.Formed)
    (tokens : List Token) (blockIds : List BlockId) :
    cache.contents ⊆ (cache.attach env tokens blockIds).contents := fun _ hpath =>
  (attach_spec env h.counted tokens blockIds).1.symm.subset (List.mem_append_right _ hpath)

/-- What an insertion leaves of the tree with its path in it. -/
theorem insert_contents_subset (env : Env) {cache cache' : RadixCache} (h : cache.Formed)
    {tokens : List Token} {blockIds : List BlockId}
    (hinsert : cache.insert env tokens blockIds = .ok cache') :
    cache'.contents ⊆ (cache.attach env tokens blockIds).contents := by
  obtain ⟨_, removed, heq, hperm, _⟩ := insert_spec env h.counted tokens blockIds
  rw [hinsert] at heq
  cases heq
  intro path hpath
  exact (attach_spec env h.counted tokens blockIds).1.symm.subset
    (hperm.symm.subset (List.mem_append_right removed hpath))

/-- **Matches change at the end only.** An insertion that evicts nothing lets every match grow at
the end, an eviction lets it shrink at the end, and whatever the call, one of the two matches of a
query goes on from the other: the blocks of what is matched both times are the same. -/
theorem matches_change_at_end (env : Env) {capacity : ℕ} {calls : List Call} {cache : RadixCache}
    (hrun : history env capacity calls = .ok cache) (query : List Token) :
    (∀ tokens blockIds cache', cache.insert env tokens blockIds = .ok cache' →
      EvictsNothing env cache cache' tokens blockIds →
        Extends (cache.matchPrefix env query).2 (cache'.matchPrefix env query).2) ∧
    (∀ cache' evicted, cache.evictLru env = .ok (cache', evicted) →
      Extends (cache'.matchPrefix env query).2 (cache.matchPrefix env query).2) ∧
    ∀ call cache', cache.exec env call = .ok cache' →
      Extends (cache.matchPrefix env query).2 (cache'.matchPrefix env query).2 ∨
        Extends (cache'.matchPrefix env query).2 (cache.matchPrefix env query).2 := by
  have h := history_formed env hrun
  have hformed : ∀ call cache', cache.exec env call = .ok cache' → cache'.Formed := by
    intro call cache' hexec
    obtain ⟨_, heq, hformed, _⟩ := exec_formed env h call
    rw [hexec] at heq
    cases heq
    exact hformed
  have hshrinks : ∀ cache' evicted, cache.evictLru env = .ok (cache', evicted) →
      Extends (cache'.matchPrefix env query).2 (cache.matchPrefix env query).2 := by
    intro cache' evicted hevict
    obtain ⟨_, removed, heq, hperm, _⟩ := evictLru_spec env h.counted
    rw [hevict] at heq
    cases heq
    exact extends_of_subset env (hformed .evictLru _ (by rw [exec, hevict]; rfl)) h
      (fun _ hpath => hperm.symm.subset (List.mem_append_right removed hpath)) query
  refine ⟨fun tokens blockIds cache' hinsert hkeeps => ?_, hshrinks, fun call cache' hexec => ?_⟩
  · refine extends_of_subset env h (hformed (.insert tokens blockIds) _ hinsert) ?_ query
    rw [hkeeps]
    exact contents_subset_attach env h tokens blockIds
  · cases call with
    | insert tokens blockIds =>
        exact extends_or_extends env h (hformed _ _ hexec) (attach_formed env h tokens blockIds)
          (contents_subset_attach env h tokens blockIds) (insert_contents_subset env h hexec) query
    | matchPrefix tokens =>
        cases hexec
        refine Or.inl (extends_of_subset env h (hformed (.matchPrefix tokens) _ rfl) ?_ query)
        rw [matchPrefix_contents]
        exact List.Subset.refl _
    | evictLru =>
        rw [exec] at hexec
        cases hevict : cache.evictLru env with
        | error fault =>
            rw [hevict] at hexec
            cases hexec
        | ok result =>
            rw [hevict] at hexec
            cases hexec
            exact Or.inr (hshrinks _ _ hevict)

/-- An insertion below a matched node. -/
theorem matches_change_at_end_deeper :
    ∃ cache cache', history .counting 9 [.insert [1, 2] [4]] = .ok cache ∧
      cache.insert .counting [1, 2, 3] [5, 6] = .ok cache' ∧
      Extends (cache.matchPrefix .counting [1, 2, 3]).2
        (cache'.matchPrefix .counting [1, 2, 3]).2 := by
  have hrun : ∃ cache, history .counting 9 [.insert [1, 2] [4]] = .ok cache ∧
      ∃ cache', cache.insert .counting [1, 2, 3] [5, 6] = .ok cache' ∧
        cache'.contents = (cache.attach .counting [1, 2, 3] [5, 6]).contents := by
    decide +kernel
  obtain ⟨cache, hrun, cache', hinsert, hkeeps⟩ := hrun
  exact ⟨cache, cache', hrun, hinsert,
    (matches_change_at_end .counting hrun [1, 2, 3]).1 _ _ _ hinsert hkeeps⟩

end RadixCache
end Kyro
