import Kyro.Proof.Radix.Oldest

/-!
# Evictions that stall

A search takes a leaf only if the leaf was accessed before the reading that the clock gives for the
node above it, and readings may be equal. A search that finds nothing scans every node with children
once, each with a reading of its own; so it finds nothing exactly when every leaf carries the very
reading with which it is scanned. An eviction stops there, over its capacity or not.
-/

namespace Kyro

open KeyedTree

namespace RadixNode

/-- A leaf hangs right under a node whose last access meets `P`. -/
def HasLeaf (P : Instant → Prop) (t : RadixNode) : Prop :=
  ∃ kc ∈ t.children, kc.2.children = [] ∧ P kc.2.label.lastAccessed

instance HasLeaf.decidable {P : Instant → Prop} [DecidablePred P] (t : RadixNode) :
    Decidable (t.HasLeaf P) :=
  inferInstanceAs (Decidable (∃ kc ∈ t.children,
    kc.2.children = [] ∧ P kc.2.label.lastAccessed))

/-- Of the nodes, scanned one clock reading each, one has a leaf in the relation `R` to its
reading. -/
def Scanned (env : Env) (R : Instant → Instant → Prop) : ℕ → List RadixNode → Prop
  | _, [] => False
  | tick, t :: ts => t.HasLeaf (R · (env.now tick)) ∨ Scanned env R (tick + 1) ts

instance Scanned.decidable (env : Env) (R : Instant → Instant → Prop) [DecidableRel R] :
    ∀ tick ts, Decidable (Scanned env R tick ts)
  | _, [] => isFalse id
  | tick, _ :: ts =>
    have := Scanned.decidable env R (tick + 1) ts
    inferInstanceAs (Decidable (_ ∨ _))

section Search

variable {env : Env} {R S : Instant → Instant → Prop}

theorem scanned_append {tick : ℕ} {ts us : List RadixNode} :
    Scanned env R tick (ts ++ us) ↔
      Scanned env R tick ts ∨ Scanned env R (tick + ts.length) us := by
  induction ts generalizing tick with
  | nil => simp [Scanned]
  | cons t ts ih =>
      have hticks : tick + 1 + ts.length = tick + (ts.length + 1) := by omega
      rw [List.cons_append, Scanned, ih, Scanned, or_assoc, List.length_cons, hticks]

/-- Where no stamp is later than the clock, an earlier one is another one. -/
theorem scanned_lt_iff_ne {tick : ℕ} {ts : List RadixNode} (hclock : Monotone env.now)
    (hstamps : ∀ t ∈ ts, ∀ k c, (k, c) ∈ t.children → c.label.lastAccessed ≤ env.now tick) :
    Scanned env (· < ·) tick ts ↔ Scanned env (· ≠ ·) tick ts := by
  induction ts generalizing tick with
  | nil => exact Iff.rfl
  | cons t ts ih =>
      have hlater : ∀ t ∈ ts, ∀ k c, (k, c) ∈ t.children →
          c.label.lastAccessed ≤ env.now (tick + 1) := fun t ht k c hmem =>
        (hstamps t (.tail _ ht) k c hmem).trans (hclock (Nat.le_succ tick))
      have hrest : Scanned env (· < ·) (tick + 1) ts ↔ Scanned env (· ≠ ·) (tick + 1) ts :=
        ih hlater
      rw [Scanned, Scanned, hrest]
      refine or_congr_left (exists_congr fun kc => and_congr_right fun hmem => ?_)
      exact and_congr_right fun _ => lt_iff_le_and_ne.trans
        (and_iff_right (hstamps t List.mem_cons_self kc.1 kc.2 hmem))

/-- What a search through some inner nodes comes to: it finds nothing exactly when it scans no leaf
that is older than its reading, and then it has read the clock once for each of the nodes. -/
structure Searches {α : Type} (env : Env) (tick : ℕ) (ts : List RadixNode)
    (result : Option α × ℕ) : Prop where
  none_iff : result.1 = none ↔ ¬ Scanned env (· < ·) tick ts
  ticks : result.1 = none → result.2 = tick + ts.length

theorem searches_some {α : Type} {tick tick' : ℕ} {ts : List RadixNode} {victim : α}
    (h : Scanned env (· < ·) tick ts) : Searches env tick ts (some victim, tick') where
  none_iff := iff_of_false (Option.some_ne_none victim) (not_not.mpr h)
  ticks hnone := absurd hnone (Option.some_ne_none victim)

theorem searches_none {α : Type} {tick tick' : ℕ} {ts : List RadixNode}
    (h : ¬ Scanned env (· < ·) tick ts) (htick : tick' = tick + ts.length) :
    Searches env tick ts ((none : Option α), tick') where
  none_iff := iff_of_true rfl h
  ticks _ := htick

theorem findBelow_searches {cs : List (Token × RadixNode)}
    (h : ∀ token child, (token, child) ∈ cs → ∀ tick,
      Searches env tick child.inner (findOldestLeaf env child tick)) (tick : ℕ) :
    Searches env tick (innerBelow cs) (findBelow env cs tick) := by
  induction cs generalizing tick with
  | nil => exact searches_none id rfl
  | cons head rest ih =>
      obtain ⟨token, child⟩ := head
      have hchild := h token child List.mem_cons_self tick
      have hrest := ih (fun token child hmem => h token child (.tail _ hmem))
      rw [innerBelow, findBelow]
      cases hfind : findOldestLeaf env child tick with
      | mk found tick₁ =>
          rw [hfind] at hchild
          cases found with
          | some victim =>
              have hscanned := not_not.mp (mt hchild.none_iff.mpr (Option.some_ne_none victim))
              exact searches_some (scanned_append.mpr (Or.inl hscanned))
          | none =>
              obtain rfl : tick₁ = tick + child.inner.length := hchild.ticks rfl
              have hnot := hchild.none_iff.mp rfl
              have hrest := hrest (tick + child.inner.length)
              dsimp only
              cases hfindRest : findBelow env rest (tick + child.inner.length) with
              | mk foundRest tick₂ =>
                  rw [hfindRest] at hrest
                  cases foundRest with
                  | some victim =>
                      have hscanned :=
                        not_not.mp (mt hrest.none_iff.mpr (Option.some_ne_none victim))
                      exact searches_some (scanned_append.mpr (Or.inr hscanned))
                  | none =>
                      refine searches_none ?_ ?_
                      · rw [scanned_append, not_or]
                        exact ⟨hnot, hrest.none_iff.mp rfl⟩
                      · rw [List.length_append, ← Nat.add_assoc]
                        exact hrest.ticks rfl

/-- **The search goes through the inner nodes** one after the other. -/
theorem findOldestLeaf_searches (env : Env) (t : RadixNode) (tick : ℕ) :
    Searches env tick t.inner (findOldestLeaf env t tick) := by
  induction t using KeyedTree.induct generalizing tick with
  | hnode entry children ih =>
      by_cases hchildren : children = []
      · subst hchildren
        rw [findOldestLeaf]
        exact searches_none id rfl
      have hnonempty : children.isEmpty = false := List.isEmpty_eq_false_iff.mpr hchildren
      have hbelow := findBelow_searches ih (tick + 1)
      rw [inner_of_children hchildren]
      rcases oldestLeaf_cases children (env.now tick) none with
        ⟨hscan, hge⟩ | ⟨token, leaf, hscan, hmem, hleaf, hlt, _⟩
      · have hnot : ¬ HasLeaf (· < env.now tick) (node entry children) := by
          rintro ⟨kc, hmem, hleaf, hlt⟩
          exact absurd hlt (Nat.not_lt.mpr (hge kc.1 kc.2 hmem hleaf))
        simp only [findOldestLeaf, hnonempty, hscan, Bool.false_eq_true, if_false]
        cases hfind : findBelow env children (tick + 1) with
        | mk found tick₁ =>
            rw [hfind] at hbelow
            cases found with
            | some victim =>
                exact searches_some (Or.inr
                  (not_not.mp (mt hbelow.none_iff.mpr (Option.some_ne_none victim))))
            | none =>
                refine searches_none (not_or.mpr ⟨hnot, hbelow.none_iff.mp rfl⟩) ?_
                have htick : tick₁ = tick + 1 + (innerBelow children).length := hbelow.ticks rfl
                rw [List.length_cons]
                omega
      · have hkey : find? token children ≠ none := fun hnone =>
          find?_eq_none.mp hnone (List.mem_map_of_mem (f := Prod.fst) hmem)
        obtain ⟨victim, hvictim⟩ := Option.ne_none_iff_exists'.mp hkey
        simp only [findOldestLeaf, hnonempty, hscan, hvictim, Bool.false_eq_true, if_false]
        exact searches_some (Or.inl ⟨(token, leaf), hmem, hleaf, hlt⟩)

end Search

end RadixNode

namespace RadixCache

open RadixNode

/-- The clock has moved since some leaf was accessed: the search for a victim, which reads it once
for each node it scans, scans a leaf with another reading than that. -/
def ClockMoved (env : Env) (cache : RadixCache) : Prop :=
  Scanned env (· ≠ ·) cache.tick cache.root.inner

instance (env : Env) (cache : RadixCache) : Decidable (cache.ClockMoved env) :=
  Scanned.decidable env (· ≠ ·) cache.tick cache.root.inner

section Turns

variable {env : Env} {cache cache' : RadixCache}

/-- In a cache without later stamps a search finds nothing exactly where the clock stands still. -/
theorem findOldestLeaf_none_iff (hclock : Monotone env.now)
    (hstamped : cache.root.StampedWith (fun stamp tick => stamp ≤ env.now tick) cache.tick) :
    (findOldestLeaf env cache.root cache.tick).1 = none ↔ ¬ cache.ClockMoved env := by
  rw [(findOldestLeaf_searches env cache.root cache.tick).none_iff, ClockMoved,
    scanned_lt_iff_ne hclock fun t ht => AllBelow.inner hstamped ht]

theorem removeOldestLeaf_eq_none :
    (cache.removeOldestLeaf env).2 = none ↔
      (findOldestLeaf env cache.root cache.tick).1 = none := by
  unfold removeOldestLeaf
  split
  · rename_i hfind
    simp [hfind]
  · rename_i hfind
    simp [hfind]

/-- Turns of the loop of `evict_lru` that leave the cache over its capacity. -/
inductive Turns (env : Env) : RadixCache → RadixCache → Prop where
  | refl (cache : RadixCache) : Turns env cache cache
  | turn {cache cache₁ last : RadixCache} {evicted : List BlockId}
      (remove : cache.removeOldestLeaf env = (cache₁, some evicted))
      (crowded : cache₁.maxCapacity < (cache₁.discount evicted).numCachedBlocks)
      (rest : Turns env (cache₁.discount evicted) last) : Turns env cache last

/-- An eviction ends within the capacity exactly when, as long as the cache is over it, every search
finds a victim. -/
theorem evictLoop_within_iff (fuel : ℕ) (hcounted : cache.Counted)
    (hfuel : cache.root.size ≤ fuel) (blocksToFree : List BlockId) :
    ∃ last evicted, cache.evictLoop env fuel blocksToFree = .ok (last, evicted) ∧
      (last.numCachedBlocks ≤ cache.maxCapacity ↔
        ∀ turn, Turns env cache turn → cache.maxCapacity < turn.numCachedBlocks →
          (findOldestLeaf env turn.root turn.tick).1 ≠ none) := by
  induction fuel generalizing cache blocksToFree with
  | zero =>
      have hnone := children_of_size (Nat.le_zero.mp hfuel)
      have hzero : cache.numCachedBlocks = 0 := by
        rw [hcounted, cachedBlocks_of_children hnone]
        rfl
      refine ⟨cache, blocksToFree, rfl, iff_of_true (hzero ▸ Nat.zero_le _) ?_⟩
      intro turn hturn hover
      cases hturn with
      | refl => exact absurd hover (by omega)
      | turn hremove _ _ =>
          rw [removeOldestLeaf_empty env hnone] at hremove
          cases hremove
  | succ fuel ih =>
      cases hremove : cache.removeOldestLeaf env with
      | mk cache₁ evicted =>
          cases evicted with
          | none =>
              obtain ⟨_, hcount, _⟩ := removeOldestLeaf_none hremove
              have hfound : (findOldestLeaf env cache.root cache.tick).1 = none :=
                removeOldestLeaf_eq_none.mp (congrArg Prod.snd hremove)
              refine ⟨cache₁, blocksToFree, by rw [evictLoop, hremove], ?_⟩
              rw [hcount]
              constructor
              · intro hwithin turn hturn hover
                cases hturn with
                | refl => exact absurd hover (Nat.not_lt.mpr hwithin)
                | turn hremove' _ _ =>
                    rw [hremove] at hremove'
                    cases hremove'
              · intro hall
                exact Nat.le_of_not_lt fun hover => hall cache (.refl cache) hover hfound
          | some evicted =>
              obtain ⟨hcounted₁, hturn⟩ := evictLoop_some hcounted hremove
              obtain ⟨_, hcapacity, p, _, rfl, hperm⟩ := removeOldestLeaf_some hremove
              have hfound : (findOldestLeaf env cache.root cache.tick).1 ≠ none := fun hnone => by
                have hsnd := removeOldestLeaf_eq_none.mpr hnone
                rw [hremove] at hsnd
                cases hsnd
              rw [hturn]
              split
              · rename_i hwithin
                refine ⟨_, _, rfl, iff_of_true (hcapacity ▸ hwithin) ?_⟩
                intro turn hturns hover
                cases hturns with
                | refl => exact hfound
                | turn hremove' hover' _ =>
                    rw [hremove] at hremove'
                    cases hremove'
                    exact absurd hover' (Nat.not_lt.mpr hwithin)
              · rename_i hover₁
                rw [size_of_perm hperm] at hfuel
                obtain ⟨last, evicted, hloop, hiff⟩ :=
                  ih hcounted₁ (Nat.le_of_succ_le_succ hfuel) (blocksToFree ++ endBlocks p)
                refine ⟨last, evicted, hloop, ?_⟩
                rw [← hcapacity]
                refine hiff.trans ⟨fun hall turn hturns hover => ?_, fun hall turn hturns => ?_⟩
                · cases hturns with
                  | refl => exact hfound
                  | turn hremove' _ hrest =>
                      rw [hremove] at hremove'
                      cases hremove'
                      exact hall turn hrest hover
                · exact hall turn (.turn hremove (Nat.lt_of_not_le hover₁) hturns)

theorem Turns.stamped {before : Instant → ℕ → Prop} (hstamping : Stamping env before)
    {start turn : RadixCache} (hturns : Turns env start turn)
    (h : start.root.StampedWith before start.tick) :
    turn.root.StampedWith before turn.tick := by
  induction hturns with
  | refl => exact h
  | turn hremove _ _ ih =>
      have hremoved := removeOldestLeaf_stamped hstamping h hremove
      exact ih hremoved

end Turns

/-- The caches that a run of calls may evict from: those between the calls, and those that an
insertion has just made larger. -/
def Evicting (env : Env) (capacity : ℕ) (calls : List Call) (start : RadixCache) : Prop :=
  ∃ cache, history env capacity calls = .ok cache ∧
    (start = cache ∨ ∃ tokens blockIds, start = cache.attach env tokens blockIds)

theorem Evicting.formed {env : Env} {capacity : ℕ} {calls : List Call} {start : RadixCache}
    (h : Evicting env capacity calls start) :
    start.Formed ∧ Reached env capacity start ∧ start.maxCapacity = capacity := by
  obtain ⟨cache, hrun, hstart⟩ := h
  obtain ⟨_, htotal, hformed, hcapacity⟩ := history_total env capacity calls
  rw [hrun] at htotal
  cases htotal
  have hreached := reached_of_history hrun
  rcases hstart with rfl | ⟨tokens, blockIds, rfl⟩
  · exact ⟨hformed, hreached, hcapacity⟩
  · exact ⟨attach_formed env hformed tokens blockIds, hreached.attach tokens blockIds, hcapacity⟩

/-- **An eviction goes on exactly as long as the clock moves.** With readings that never decrease,
in every cache that occurs in an eviction of a run: the search for a victim gives up only in an
empty cache if and only if the cache is empty or the clock has moved since some leaf was accessed.
And the eviction ends within the capacity if and only if the clock has moved so in all its turns
with the cache over the capacity. -/
theorem eviction_goes_on_iff {env : Env} (hclock : Monotone env.now) {capacity : ℕ}
    {calls : List Call} {start : RadixCache} (hstart : Evicting env capacity calls start) :
    (∀ turn, Turns env start turn →
      (((findOldestLeaf env turn.root turn.tick).1 = none → turn.root.children = []) ↔
        turn.root.children = [] ∨ turn.ClockMoved env)) ∧
    ∃ last evicted, start.evictLru env = .ok (last, evicted) ∧
      (last.numCachedBlocks ≤ capacity ↔ ∀ turn, Turns env start turn →
        capacity < turn.numCachedBlocks → turn.ClockMoved env) := by
  obtain ⟨hformed, hreached, rfl⟩ := hstart.formed
  have hnone : ∀ turn, Turns env start turn →
      ((findOldestLeaf env turn.root turn.tick).1 = none ↔ ¬ turn.ClockMoved env) :=
    fun turn hturns => findOldestLeaf_none_iff hclock
      (hturns.stamped (stamping_le hclock) (hreached.stamped (stamping_le hclock)))
  refine ⟨fun turn hturns => ?_, ?_⟩
  · rw [hnone turn hturns, or_comm]
    exact Decidable.imp_iff_not_or.trans (by rw [not_not])
  · obtain ⟨last, evicted, hevict, hiff⟩ :=
      evictLoop_within_iff start.root.size hformed.counted le_rfl []
    refine ⟨last, evicted, hevict, hiff.trans ?_⟩
    refine forall_congr' fun turn => forall₂_congr fun hturns _ => ?_
    rw [ne_eq, hnone turn hturns, not_not]

/-- A clock that shows each reading twice. -/
def everySecond : Env := { Env.counting with now := fun n => n / 2 }

/-- An insertion over the capacity, with the clock moved since the leaf before it. -/
theorem eviction_goes_on_second :
    ∃ start, Evicting everySecond 1 [.insert [1] [4], .matchPrefix [1]] start ∧
      ((findOldestLeaf everySecond start.root start.tick).1 = none →
        start.root.children = []) := by
  have hclock : Monotone everySecond.now := fun _ _ hle => Nat.div_le_div_right hle
  have hrun : ∃ cache, history everySecond 1 [.insert [1] [4], .matchPrefix [1]] = .ok cache ∧
      (cache.attach everySecond [2] [5]).ClockMoved everySecond := by
    decide +kernel
  obtain ⟨cache, hrun, hmoved⟩ := hrun
  have hstart : Evicting everySecond 1 [.insert [1] [4], .matchPrefix [1]]
      (cache.attach everySecond [2] [5]) := ⟨cache, hrun, Or.inr ⟨[2], [5], rfl⟩⟩
  exact ⟨_, hstart, ((eviction_goes_on_iff hclock hstart).1 _ (.refl _)).mpr (Or.inr hmoved)⟩

/-- A clock that stands still. -/
def standing : Env := { Env.counting with now := fun _ => 0 }

/-- Two insertions at one reading of the clock: the second one finds no victim, and leaves the cache
over its capacity. -/
theorem eviction_stalls :
    Monotone standing.now ∧
      ∃ cache, history standing 1 [.insert [1, 2, 3] [10], .insert [4, 5, 6] [11]] = .ok cache ∧
        cache.numCachedBlocks = 2 ∧ cache.root.children ≠ [] ∧
        (findOldestLeaf standing cache.root cache.tick).1 = none ∧
        ∃ result, cache.evictLru standing = .ok result ∧ result.1.numCachedBlocks = 2 ∧
          result.2 = [] := by
  refine ⟨monotone_const, ?_⟩
  decide +kernel

end RadixCache
end Kyro
