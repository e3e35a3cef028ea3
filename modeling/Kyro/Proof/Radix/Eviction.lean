import Kyro.Proof.Radix.Longest
import Mathlib.Order.Monotone.Defs

/-!
# What an eviction takes

With a clock that never stands still every node was stamped before the search for a victim reads
it, so a search finds a leaf wherever there is one. An eviction therefore goes on until the cache is
within its capacity or has no node left, and it takes leaves only.
-/

namespace Kyro

open KeyedTree

namespace RadixNode

/-! ### Stamps -/

/-- What may be said of a stamp at a tick, so that it is true of each reading of the clock from the
next tick on. -/
structure Stamping (env : Env) (before : Instant → ℕ → Prop) : Prop where
  reading : ∀ tick, before (env.now tick) (tick + 1)
  later : ∀ {stamp tick tick'}, before stamp tick → tick ≤ tick' → before stamp tick'

theorem stamping_lt {env : Env} (hclock : StrictMono env.now) :
    Stamping env fun stamp tick => stamp < env.now tick where
  reading tick := hclock (Nat.lt_succ_self tick)
  later hlt hle := hlt.trans_le (hclock.monotone hle)

theorem stamping_le {env : Env} (hclock : Monotone env.now) :
    Stamping env fun stamp tick => stamp ≤ env.now tick where
  reading tick := hclock (Nat.le_succ tick)
  later hle hticks := hle.trans (hclock hticks)

/-- It is true of every node below the root. -/
def StampedWith (before : Instant → ℕ → Prop) (tick : ℕ) (t : RadixNode) : Prop :=
  t.AllBelow fun entry => before entry.lastAccessed tick

/-- Every node below the root was stamped before the clock showed `now`. -/
def StampedBefore (now : Instant) (t : RadixNode) : Prop := t.AllBelow (·.lastAccessed < now)

section Stamps

variable {env : Env} {before : Instant → ℕ → Prop} (hstamping : Stamping env before)

include hstamping

theorem StampedWith.later {t : RadixNode} {tick tick' : ℕ} (h : t.StampedWith before tick)
    (hle : tick ≤ tick') : t.StampedWith before tick' :=
  AllBelow.mono h fun _ hbefore => hstamping.later hbefore hle

/-- A match stamps nodes with readings it has made. -/
theorem matchFrom_stamped {t : RadixNode} {tick : ℕ} (h : t.StampedWith before tick)
    (query : List Token) :
    tick ≤ (matchFrom env t query tick).2.2.2 ∧
      (matchFrom env t query tick).1.StampedWith before
        (matchFrom env t query tick).2.2.2 := by
  induction t using KeyedTree.induct generalizing query tick with
  | hnode entry children ih =>
      cases query with
      | nil =>
          rw [matchFrom_nil]
          exact ⟨le_rfl, h⟩
      | cons first rest =>
          cases hfind : find? first children with
          | none =>
              rw [matchFrom_vacant hfind]
              exact ⟨le_rfl, h⟩
          | some child =>
              by_cases hmatch :
                  matchLen child.label.tokens (first :: rest) = child.label.tokens.length
              · have hmem := mem_of_find? hfind
                have hchild : StampedWith before tick child := (allBelow_node.mp h _ _ hmem).2
                obtain ⟨hle, hbelow⟩ := ih first child hmem
                  (hchild.later hstamping (Nat.le_add_right tick 1))
                  ((first :: rest).drop child.label.tokens.length)
                rw [matchFrom_step hfind hmatch]
                obtain ⟨front, after, rfl, hreplace, _⟩ := find?_split hfind
                refine ⟨Nat.le_of_succ_le hle, ?_⟩
                simp only [hreplace]
                refine AllBelow.swap (StampedWith.later hstamping h (Nat.le_of_succ_le hle)) ?_
                  (allBelow_relabel.mpr hbelow)
                rw [touch, label_relabel]
                exact hstamping.later (hstamping.reading tick) hle
              · rw [matchFrom_stop hfind hmatch]
                exact ⟨le_rfl, h⟩

/-- An insertion stamps its new node with a reading it has made. -/
theorem insertFrom_stamped (blockIds : List BlockId) {t : RadixNode} {tick : ℕ}
    (h : t.StampedWith before tick) (tokens : List Token) :
    tick ≤ (insertFrom env blockIds t tokens tick).2.2 ∧
      (insertFrom env blockIds t tokens tick).1.StampedWith before
        (insertFrom env blockIds t tokens tick).2.2 := by
  induction t using KeyedTree.induct generalizing tokens tick with
  | hnode entry children ih =>
      cases tokens with
      | nil =>
          rw [insertFrom]
          exact ⟨le_rfl, h⟩
      | cons first rest =>
          rw [insertFrom, insertChild_eq]
          cases hfind : find? first children with
          | none =>
              refine ⟨Nat.le_add_right tick 1, ?_⟩
              have hlater := StampedWith.later hstamping h (Nat.le_add_right tick 1)
              refine AllBelow.sub (allBelow_node.mpr fun key child hmem => ?_)
                (env.place_perm _ _).subset
              rcases List.mem_cons.mp hmem with heq | hmem
              · obtain ⟨_, rfl⟩ := Prod.mk.inj heq
                exact ⟨hstamping.reading tick, allBelow_leaf _⟩
              · exact allBelow_node.mp hlater key child hmem
          | some child =>
              have hmem := mem_of_find? hfind
              obtain ⟨hlabel, hchild⟩ := allBelow_node.mp h _ _ hmem
              obtain ⟨hle, hbelow⟩ :=
                ih first child hmem hchild ((first :: rest).drop child.label.tokens.length)
              have hsame := (insertFrom_contents env blockIds child
                ((first :: rest).drop child.label.tokens.length) tick).1
              obtain ⟨front, after, rfl, hreplace, _⟩ := find?_split hfind
              simp only [Option.map_some, hreplace]
              refine ⟨hle, AllBelow.swap (StampedWith.later hstamping h hle) ?_ hbelow⟩
              rw [hsame]
              exact hstamping.later hlabel hle

end Stamps

/-- The search reads the clock forward. -/
theorem findOldestLeaf_tick_le (env : Env) (t : RadixNode) (tick : ℕ) :
    tick ≤ (findOldestLeaf env t tick).2 := by
  induction t using KeyedTree.induct generalizing tick with
  | hnode entry children ih =>
      have hbelow : ∀ cs : List (Token × RadixNode), cs ⊆ children →
          ∀ tick, tick ≤ (findBelow env cs tick).2 := by
        intro cs
        induction cs with
        | nil => exact fun _ tick => le_rfl
        | cons head rest ihrest =>
            intro hsub tick
            obtain ⟨token, child⟩ := head
            have hchild := ih token child (hsub List.mem_cons_self) tick
            rw [findBelow]
            split
            · rename_i heq
              rw [heq] at hchild
              exact hchild
            · rename_i tick₁ heq
              rw [heq] at hchild
              have hrest := ihrest (List.subset_of_cons_subset hsub) tick₁
              split <;> rename_i heq' <;> rw [heq'] at hrest <;> exact hchild.trans hrest
      have hsecond := Nat.le_of_succ_le (hbelow children (List.Subset.refl _) (tick + 1))
      rw [findOldestLeaf]
      split
      · exact le_rfl
      · split
        · split <;> exact Nat.le_add_right _ _
        · split <;> rename_i heq <;> rw [heq] at hsecond <;> exact hsecond

/-- What is left of a tree keeps its labels. -/
theorem findOldestLeaf_stamped {env : Env} {t t' : RadixNode} {tick tick' : ℕ}
    {path : List Token} {blockIds : List BlockId} {P : RadixEntry → Prop}
    (hdistinct : DistinctKeys t) (h : t.AllBelow P)
    (hfind : findOldestLeaf env t tick = (some (path, blockIds, t'), tick')) :
    t'.AllBelow P := by
  induction t using KeyedTree.induct generalizing tick tick' path t' with
  | hnode entry children ih =>
      obtain ⟨before, after, token, child, rfl, hcase⟩ := findOldestLeaf_cases hfind
      rcases hcase with ⟨_, _, _, _, rfl⟩ | ⟨child', path', start, _, rfl, hleaf⟩
      · exact AllBelow.sub h (by simp)
      · have hmem : (token, child) ∈ before ++ (token, child) :: after := by simp
        obtain ⟨hlabel, hchild⟩ := allBelow_node.mp h _ _ hmem
        refine AllBelow.swap h ?_ (ih token child hmem (hdistinct.child hmem) hchild hleaf)
        rw [(findOldestLeaf_contents (hdistinct.child hmem) hleaf).1]
        exact hlabel

/-! ### The search -/

/-- When the node that a path ends at was last accessed. -/
def lastAccess (path : List (Token × RadixEntry)) : Instant :=
  (path.getLast?.map (·.2.lastAccessed)).getD 0

theorem lastAccess_cons (e : Token × RadixEntry) {path : List (Token × RadixEntry)}
    (hpath : path ≠ []) : lastAccess (e :: path) = lastAccess path := by
  simp [lastAccess, List.getLast?_cons, List.getLast?_eq_getLast_of_ne_nil hpath]

mutual

/-- The keys to the first node with a leaf among its children, on the way that always goes to the
child that the map iterates first. -/
def searchPath : RadixNode → List Token
  | node _ children =>
    if children.any fun kc => kc.2.children.isEmpty then [] else searchBelow children

def searchBelow : List (Token × RadixNode) → List Token
  | [] => []
  | (key, child) :: _ => key :: searchPath child

end

section Search

variable {entry : RadixEntry} {children : List (Token × RadixNode)}

theorem searchPath_leaf {key : Token} {child : RadixNode} (hmem : (key, child) ∈ children)
    (hleaf : child.children = []) : searchPath (node entry children) = [] := by
  rw [searchPath, if_pos]
  exact List.any_eq_true.mpr ⟨_, hmem, by rw [hleaf]; rfl⟩

theorem searchPath_down {key : Token} {child : RadixNode}
    (hnone : ∀ k c, (k, c) ∈ (key, child) :: children → c.children ≠ []) :
    searchPath (node entry ((key, child) :: children)) = key :: searchPath child := by
  rw [searchPath, if_neg, searchBelow]
  simpa only [List.any_eq_true, List.isEmpty_iff, not_exists, not_and, Prod.forall] using hnone

/-- Where a child is a leaf, the search removes the oldest of these. -/
theorem findOldestLeaf_here {env : Env} {tick : ℕ} {token : Token} {leaf : RadixNode}
    (hdistinct : DistinctKeys (node entry children)) (hmem : (token, leaf) ∈ children)
    (hscan : oldestLeaf children (env.now tick) none = some token) :
    findOldestLeaf env (node entry children) tick =
      (some ([token], leaf.label.blockIds, node entry (erase token children)), tick + 1) := by
  have hnonempty : children.isEmpty = false := by
    rw [List.isEmpty_eq_false_iff]
    exact List.ne_nil_of_mem hmem
  have hfind := find?_of_mem (distinctKeys_node.mp hdistinct).1 hmem
  simp only [findOldestLeaf, hnonempty, hscan, hfind, Bool.false_eq_true, if_false]

/-- Where no child is a leaf, it goes to the first child. -/
theorem findOldestLeaf_down {env : Env} {tick tick' : ℕ} {token : Token} {child child' : RadixNode}
    {path : List Token} {blockIds : List BlockId}
    (hscan : oldestLeaf ((token, child) :: children) (env.now tick) none = none)
    (hchild : findOldestLeaf env child (tick + 1) = (some (path, blockIds, child'), tick')) :
    findOldestLeaf env (node entry ((token, child) :: children)) tick =
      (some (token :: path, blockIds, node entry ((token, child') :: children)), tick') := by
  simp only [findOldestLeaf, List.isEmpty_cons, hscan, findBelow, hchild, Bool.false_eq_true,
    if_false]

/-- **The search finds a leaf.** It is the oldest one of those under the node it scans. -/
theorem findOldestLeaf_found {env : Env} (hclock : StrictMono env.now) {t : RadixNode} {tick : ℕ}
    (hdistinct : DistinctKeys t) (hstamped : t.StampedBefore (env.now tick))
    (hchildren : t.children ≠ []) :
    ∃ p blockIds t' tick',
      findOldestLeaf env t tick = (some (p.map Prod.fst, blockIds, t'), tick') ∧ t.IsLeaf p ∧
      p.dropLast.map Prod.fst = t.searchPath ∧
      ∀ q, t.IsLeaf q → q.dropLast.map Prod.fst = t.searchPath → lastAccess p ≤ lastAccess q := by
  induction t using KeyedTree.induct generalizing tick with
  | hnode entry children ih =>
      rcases oldestLeaf_cases children (env.now tick) none with
        ⟨hscan, hge⟩ | ⟨token, leaf, hscan, hmem, hleaf, _, holdest⟩
      · -- no child is a leaf: it would be older than the reading
        have hnone : ∀ k c, (k, c) ∈ children → c.children ≠ [] := by
          intro k c hmem hleaf
          exact absurd (allBelow_node.mp hstamped k c hmem).1
            (Nat.not_lt.mpr (hge k c hmem hleaf))
        cases children with
        | nil => exact absurd rfl hchildren
        | cons head rest =>
            obtain ⟨key, child⟩ := head
            have hmem : (key, child) ∈ (key, child) :: rest := List.mem_cons_self
            have hchild : StampedBefore (env.now tick) child :=
              (allBelow_node.mp hstamped _ _ hmem).2
            obtain ⟨p, blockIds, t', tick', hfind, hleaf, hsearch, holdest⟩ :=
              ih key child hmem (hdistinct.child hmem)
                (StampedWith.later (stamping_lt hclock) hchild (Nat.le_add_right tick 1))
                (hnone key child hmem)
            refine ⟨(key, child.label) :: p, blockIds, _, tick', findOldestLeaf_down hscan hfind,
              (isLeaf_node hdistinct).mpr ⟨key, child, p, hmem, rfl, Or.inr hleaf⟩, ?_, ?_⟩
            · rw [List.dropLast_cons_of_ne_nil hleaf.ne_nil, List.map_cons, hsearch,
                searchPath_down hnone]
            · intro q hq hqsearch
              obtain ⟨k, c, r, hc, rfl, hr⟩ := (isLeaf_node hdistinct).mp hq
              have hrleaf := hr.resolve_left fun h => hnone k c hc h.2
              rw [List.dropLast_cons_of_ne_nil hrleaf.ne_nil, List.map_cons,
                searchPath_down hnone] at hqsearch
              obtain ⟨hkey, hrsearch⟩ := List.cons.inj hqsearch
              change k = key at hkey
              subst hkey
              obtain rfl := child_unique (distinctKeys_node.mp hdistinct).1 hc hmem
              rw [lastAccess_cons _ hleaf.ne_nil, lastAccess_cons _ hrleaf.ne_nil]
              exact holdest r hrleaf hrsearch
      · refine ⟨[(token, leaf.label)], leaf.label.blockIds, _, tick + 1,
          findOldestLeaf_here hdistinct hmem hscan,
          (isLeaf_node hdistinct).mpr ⟨token, leaf, [], hmem, rfl, Or.inl ⟨rfl, hleaf⟩⟩, ?_, ?_⟩
        · rw [searchPath_leaf hmem hleaf]
          rfl
        · intro q hq hqsearch
          rw [searchPath_leaf hmem hleaf, List.map_eq_nil_iff] at hqsearch
          obtain ⟨k, c, r, hc, rfl, hr⟩ := (isLeaf_node hdistinct).mp hq
          rcases hr with ⟨rfl, hnone⟩ | hr
          · exact holdest k c hc hnone
          · rw [List.dropLast_cons_of_ne_nil hr.ne_nil] at hqsearch
            cases hqsearch

end Search

/-! ### The leaf in the contents -/

@[simp] theorem keys_map_step (path : List (Token × RadixEntry)) :
    (path.map step).map (·.key) = path.map Prod.fst := by
  rw [List.map_map]
  rfl

theorem contents_keys_nodup {t : RadixNode} (h : DistinctKeys t) :
    (t.contents.map (·.map (·.key))).Nodup := by
  have hkeys : t.contents.map (·.map (·.key)) = t.keyPaths := by
    rw [contents, keyPaths, List.map_map]
    exact List.map_congr_left fun p _ => keys_map_step p
  rw [hkeys]
  exact keyPaths_nodup h

theorem contents_nodup {t : RadixNode} (h : DistinctKeys t) : t.contents.Nodup :=
  .of_map _ (contents_keys_nodup h)

/-- No path of the tree that is left goes on from the one that was taken. -/
theorem not_front_of_perm {t t' : RadixNode} {p : List PathStep} (hdistinct : DistinctKeys t)
    (hperm : t.contents.Perm (p :: t'.contents)) {q : List PathStep} (hq : q ∈ t'.contents) :
    ¬ p <+: q := by
  intro hfront
  obtain ⟨more, rfl⟩ := hfront
  exact (List.nodup_cons.mp (hperm.nodup_iff.mp (contents_nodup hdistinct))).1
    (mem_contents_of_append hq)

end RadixNode

namespace RadixCache

open RadixNode

/-- Every node was stamped before the next reading of the clock. -/
def Stamped (env : Env) (cache : RadixCache) : Prop :=
  cache.root.StampedBefore (env.now cache.tick)

section Stamps

variable {env : Env} {before : Instant → ℕ → Prop} {cache cache' : RadixCache}

theorem new_stamped (before : Instant → ℕ → Prop) (env : Env) (capacity : ℕ) :
    (new env capacity).root.StampedWith before (new env capacity).tick := by
  rw [StampedWith, new]
  exact allBelow_leaf _

variable (hstamping : Stamping env before) (h : cache.root.StampedWith before cache.tick)

include hstamping h

theorem matchPrefix_stamped (query : List Token) :
    (cache.matchPrefix env query).1.root.StampedWith before
      (cache.matchPrefix env query).1.tick :=
  (matchFrom_stamped hstamping h query).2

theorem attach_stamped (tokens : List Token) (blockIds : List BlockId) :
    (cache.attach env tokens blockIds).root.StampedWith before
      (cache.attach env tokens blockIds).tick :=
  (insertFrom_stamped hstamping blockIds h tokens).2

theorem removeOldestLeaf_stamped {evicted : Option (List BlockId)}
    (hremove : cache.removeOldestLeaf env = (cache', evicted)) :
    cache'.root.StampedWith before cache'.tick := by
  have hle := findOldestLeaf_tick_le env cache.root cache.tick
  unfold removeOldestLeaf at hremove
  split at hremove
  · rename_i hfind
    rw [hfind] at hle
    cases hremove
    exact StampedWith.later hstamping (findOldestLeaf_stamped cache.distinct h hfind) hle
  · rename_i hfind
    rw [hfind] at hle
    cases hremove
    exact StampedWith.later hstamping h hle

end Stamps

section Clock

variable {env : Env} (hclock : StrictMono env.now) {cache cache' : RadixCache}

include hclock

/-- A removal from a tree with nodes removes one. -/
theorem removeOldestLeaf_found (h : cache.Stamped env) (hchildren : cache.root.children ≠ []) :
    ∃ cache' evicted, cache.removeOldestLeaf env = (cache', some evicted) := by
  obtain ⟨p, blockIds, t', tick', hfind, _⟩ :=
    findOldestLeaf_found hclock cache.distinct h hchildren
  unfold removeOldestLeaf
  split
  · exact ⟨_, _, rfl⟩
  · rename_i hnone
    rw [hfind] at hnone
    cases hnone

end Clock

/-! ### The loop of an eviction -/

theorem children_of_size {cache : RadixCache} (h : cache.root.size = 0) :
    cache.root.children = [] := by
  have hlength := cache.size_root
  rw [h, contents, RadixNode.contents, List.length_map, paths_eq, List.length_cons] at hlength
  refine children_eq_nil fun q hq => ?_
  rw [paths_eq, List.length_eq_zero_iff.mp (by omega : (pathsBelow cache.root.children).length = 0)]
    at hq
  exact List.mem_singleton.mp hq

theorem removeOldestLeaf_empty (env : Env) {cache : RadixCache}
    (hnone : cache.root.children = []) : cache.removeOldestLeaf env = (cache, none) := by
  have hfind : findOldestLeaf env cache.root cache.tick = (none, cache.tick) := by
    cases hroot : cache.root with
    | node entry children =>
        rw [hroot, children_node] at hnone
        subst hnone
        rw [findOldestLeaf]
        rfl
  unfold removeOldestLeaf
  split
  · rename_i hsome
    rw [hfind] at hsome
    cases hsome
  · rename_i hsome
    rw [hfind] at hsome
    cases hsome
    rfl

theorem cachedBlocks_of_children {cache : RadixCache} (h : cache.root.children = []) :
    cache.cachedBlocks = [] := by
  rw [cachedBlocks_eq, contents, RadixNode.contents, paths_eq, h]
  rfl

/-- What an eviction did: it took leaves, one after the other, until the cache was within its
capacity or had no node left. -/
structure Evicted (cache cache' : RadixCache) (removed : List (List PathStep)) : Prop where
  contents : cache.contents.Perm (removed ++ cache'.contents)
  leaves : removed.Pairwise (fun p q => ¬ p <+: q)
  leavesLeft : ∀ p ∈ removed, ∀ q ∈ cache'.contents, ¬ p <+: q
  enough : cache'.numCachedBlocks ≤ cache.maxCapacity ∨ cache'.root.children = []
  progress : cache.root.children ≠ [] → removed ≠ []

theorem evictLoop_empty (env : Env) {cache : RadixCache} (hnone : cache.root.children = [])
    (fuel : ℕ) (blocksToFree : List BlockId) :
    cache.evictLoop env fuel blocksToFree = .ok (cache, blocksToFree) := by
  cases fuel with
  | zero => rfl
  | succ fuel => rw [evictLoop, removeOldestLeaf_empty env hnone]

/-- The loop with any fuel from the number of nodes on. -/
theorem evictLoop_evicted {env : Env} (hclock : StrictMono env.now) (fuel : ℕ)
    {cache : RadixCache} (hcounted : cache.Counted) (hstamped : cache.Stamped env)
    (hfuel : cache.root.size ≤ fuel) (blocksToFree : List BlockId) :
    ∃ cache' removed,
      (∀ extra, cache.evictLoop env (fuel + extra) blocksToFree =
        .ok (cache', blocksToFree ++ removed.flatMap endBlocks)) ∧
      Evicted cache cache' removed ∧ cache'.Stamped env := by
  by_cases hnone : cache.root.children = []
  · refine ⟨cache, [], fun extra => ?_, ⟨.refl _, .nil, by simp, Or.inr hnone, absurd hnone⟩,
      hstamped⟩
    rw [evictLoop_empty env hnone, List.flatMap_nil, List.append_nil]
  induction fuel generalizing cache blocksToFree with
  | zero => exact absurd (children_of_size (Nat.le_zero.mp hfuel)) hnone
  | succ fuel ih =>
      obtain ⟨cache₁, evicted, hremove⟩ := removeOldestLeaf_found hclock hstamped hnone
      obtain ⟨hcounted₁, hturn⟩ := evictLoop_some hcounted hremove
      obtain ⟨_, hcapacity, p, _, rfl, hperm⟩ := removeOldestLeaf_some hremove
      have hstamped₁ : cache₁.Stamped env :=
        removeOldestLeaf_stamped (stamping_lt hclock) hstamped hremove
      have hfront : ∀ q ∈ cache₁.contents, ¬ p <+: q := fun q hq =>
        not_front_of_perm cache.distinct hperm hq
      by_cases hle : (cache₁.discount (endBlocks p)).numCachedBlocks ≤ cache₁.maxCapacity
      · refine ⟨cache₁.discount (endBlocks p), [p], fun extra => ?_, ⟨hperm, by simp, ?_,
          Or.inl (hcapacity ▸ hle), by simp⟩, hstamped₁⟩
        · rw [Nat.add_right_comm, hturn, if_pos hle]
          simp
        · intro q hq
          rw [List.mem_singleton.mp hq]
          exact hfront
      · -- blocks are left, so nodes are left
        have hnone₁ : (cache₁.discount (endBlocks p)).root.children ≠ [] := by
          intro hnone₁
          rw [hcounted₁, cachedBlocks_of_children hnone₁] at hle
          exact hle (Nat.zero_le _)
        rw [size_of_perm hperm] at hfuel
        obtain ⟨cache', removed, hloop, hevicted, hstamped'⟩ :=
          ih hcounted₁ hstamped₁ (Nat.le_of_succ_le_succ hfuel)
            (blocksToFree ++ endBlocks p) hnone₁
        have hsub : ∀ q ∈ removed ++ cache'.contents, ¬ p <+: q := fun q hq =>
          hfront q (hevicted.contents.symm.subset hq)
        refine ⟨cache', p :: removed, fun extra => ?_, ⟨hperm.trans (hevicted.contents.cons p),
          ?_, ?_, ?_, by simp⟩, hstamped'⟩
        · rw [Nat.add_right_comm, hturn, if_neg hle, hloop, List.flatMap_cons, List.append_assoc]
        · exact List.pairwise_cons.mpr
            ⟨fun q hq => hsub q (List.mem_append_left _ hq), hevicted.leaves⟩
        · exact List.forall_mem_cons.mpr
            ⟨fun q hq => hsub q (List.mem_append_right _ hq), hevicted.leavesLeft⟩
        · rw [← hcapacity]
          exact hevicted.enough

/-! ### Reachable caches -/

section Reachable

variable {env : Env} (hclock : StrictMono env.now) {cache cache' : RadixCache}

include hclock

theorem evictLru_evicted (hcounted : cache.Counted) (hstamped : cache.Stamped env) :
    ∃ cache' removed,
      (∀ extra, cache.evictLoop env (cache.root.size + extra) [] =
        .ok (cache', removed.flatMap endBlocks)) ∧
      Evicted cache cache' removed ∧ cache'.Stamped env := by
  simpa only [List.nil_append] using
    evictLoop_evicted hclock cache.root.size hcounted hstamped le_rfl []

theorem evictLru_stamped (hcounted : cache.Counted) (hstamped : cache.Stamped env)
    {evicted : List BlockId} (hevict : cache.evictLru env = .ok (cache', evicted)) :
    cache'.Stamped env := by
  obtain ⟨_, removed, hloop, _, hstamped'⟩ := evictLru_evicted hclock hcounted hstamped
  have heq := hloop 0
  rw [Nat.add_zero, ← evictLru, hevict] at heq
  cases heq
  exact hstamped'

theorem exec_stamped (h : cache.Formed) (hstamped : cache.Stamped env) {call : Call}
    (hexec : cache.exec env call = .ok cache') : cache'.Stamped env := by
  cases call with
  | insert tokens blockIds =>
      have hattached := attach_stamped (stamping_lt hclock) hstamped tokens blockIds
      rw [exec, insert] at hexec
      split at hexec
      · obtain ⟨result, hevict, rfl⟩ := Machine.map_eq_ok.mp hexec
        exact evictLru_stamped hclock (attach_formed env h tokens blockIds).counted hattached hevict
      · cases hexec
        exact hattached
  | matchPrefix tokens =>
      cases hexec
      exact matchPrefix_stamped (stamping_lt hclock) hstamped tokens
  | evictLru =>
      obtain ⟨result, hevict, rfl⟩ := Machine.map_eq_ok.mp hexec
      exact evictLru_stamped hclock h.counted hstamped hevict

theorem history_stamped (capacity : ℕ) (calls : List Call) :
    ∃ cache, history env capacity calls = .ok cache ∧ cache.Formed ∧ cache.Stamped env ∧
      cache.maxCapacity = capacity := by
  refine Machine.run_progress (P := fun _ _ => True)
    (I := fun cache : RadixCache => cache.Formed ∧ cache.Stamped env ∧ cache.maxCapacity = capacity)
    (fun cache call h _ => ?_)
    ⟨new_formed env capacity, new_stamped (· < env.now ·) env capacity, rfl⟩
    (Machine.along_true _ _)
  obtain ⟨cache', hexec, hformed, hcapacity⟩ := exec_formed env h.1 call
  exact ⟨cache', hexec, hformed, exec_stamped hclock h.1 h.2.1 hexec, hcapacity.trans h.2.2⟩

/-- The cache is within its capacity after an insertion. -/
theorem insert_within (h : cache.Formed) (hstamped : cache.Stamped env) (tokens : List Token)
    (blockIds : List BlockId) :
    ∃ cache', cache.insert env tokens blockIds = .ok cache' ∧
      cache'.numCachedBlocks ≤ cache.maxCapacity := by
  have hformed := attach_formed env h tokens blockIds
  have hattached := attach_stamped (stamping_lt hclock) hstamped tokens blockIds
  rw [insert]
  split
  · obtain ⟨cache', removed, hloop, hevicted, _⟩ :=
      evictLru_evicted hclock hformed.counted hattached
    obtain ⟨_, _, heq, _, hcounted', _⟩ := evictLru_spec env hformed.counted
    have hevict : (cache.attach env tokens blockIds).evictLru env =
        .ok (cache', removed.flatMap endBlocks) := hloop 0
    rw [hevict] at heq ⊢
    obtain ⟨rfl, _⟩ := Prod.mk.inj (Except.ok.inj heq)
    refine ⟨cache', rfl, ?_⟩
    rcases hevicted.enough with hle | hnone
    · exact hle
    · rw [hcounted', cachedBlocks_of_children hnone]
      exact Nat.zero_le _
  · rename_i hwithin
    exact ⟨_, rfl, Nat.le_of_not_lt hwithin⟩

end Reachable

/-- **The cache accounts for its blocks and keeps to its capacity.** With a clock that never stands
still no call underflows the counter, which is the number of blocks of all nodes; an insertion
leaves no more than the capacity; an eviction ends, however long it may take, with the cache within
its capacity or empty, and returns the blocks of the leaves that it took one after the other, of one
at least where there is a node. -/
theorem cache_is_accounted {env : Env} (hclock : StrictMono env.now) (capacity : ℕ)
    (calls : List Call) :
    ∃ cache, history env capacity calls = .ok cache ∧ cache.maxCapacity = capacity ∧
      cache.numCachedBlocks = (cache.contents.flatMap endBlocks).length ∧
      (∀ tokens blockIds, ∃ cache', cache.insert env tokens blockIds = .ok cache' ∧
        cache'.numCachedBlocks ≤ capacity) ∧
      ∃ cache' removed, cache.evictLru env = .ok (cache', removed.flatMap endBlocks) ∧
        (∀ extra, cache.evictLoop env (cache.root.size + extra) [] = cache.evictLru env) ∧
        Evicted cache cache' removed := by
  obtain ⟨cache, hrun, hformed, hstamped, hcapacity⟩ := history_stamped hclock capacity calls
  obtain ⟨cache', removed, hloop, hevicted, _⟩ :=
    evictLru_evicted hclock hformed.counted hstamped
  refine ⟨cache, hrun, hcapacity, hformed.counted, fun tokens blockIds => ?_, cache', removed,
    hloop 0, fun extra => (hloop extra).trans (hloop 0).symm, hevicted⟩
  exact hcapacity ▸ insert_within hclock hformed hstamped tokens blockIds

/-- A cache of two blocks that has evicted by itself. -/
theorem cache_is_accounted_counting :
    ∃ cache, history .counting 2 [.insert [1] [4], .insert [2] [5, 6]] = .ok cache ∧
      cache.maxCapacity = 2 ∧
      cache.numCachedBlocks = (cache.contents.flatMap endBlocks).length := by
  have hclock : StrictMono Env.counting.now := strictMono_id
  obtain ⟨cache, hrun, hcapacity, hcounted, _⟩ := cache_is_accounted hclock 2
    [.insert [1] [4], .insert [2] [5, 6]]
  exact ⟨cache, hrun, hcapacity, hcounted⟩

end RadixCache
end Kyro
