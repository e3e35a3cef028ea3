import Kyro.Scheduler.RadixCache

/-!
# What does not depend on the clock and the hash maps

The clock readings and the orders of iteration are used to choose what to evict. A lookup and an
insertion that stays within the capacity come out the same whatever they are: the nodes, told apart
by the keys that lead to them, hold the same tokens and blocks.
-/

namespace Kyro

open KeyedTree

/-- What a node holds besides its stamp. -/
def RadixEntry.held (entry : RadixEntry) : List Token × List BlockId :=
  (entry.tokens, entry.blockIds)

namespace RadixNode

/-- Nodes that differ in stamps and orders at most. -/
abbrev Same (t t' : RadixNode) : Prop := Alike RadixEntry.held t t'

theorem Same.tokens {t t' : RadixNode} (h : Same t t') : t.label.tokens = t'.label.tokens :=
  congrArg Prod.fst h.label

theorem Same.blockIds {t t' : RadixNode} (h : Same t t') :
    t.label.blockIds = t'.label.blockIds :=
  congrArg Prod.snd h.label

/-- Both lookups pass through the same nodes. -/
theorem matchFrom_same (env env' : Env) {t t' : RadixNode} (h : Same t t') (query : List Token) (tick tick' : ℕ) :
    Same (matchFrom env t query tick).1 (matchFrom env' t' query tick').1 ∧
      (matchFrom env t query tick).2.1 = (matchFrom env' t' query tick').2.1 ∧
      (matchFrom env t query tick).2.2.1 = (matchFrom env' t' query tick').2.2.1 := by
  induction t using KeyedTree.induct generalizing t' query tick tick' with
  | hnode entry children ih =>
      obtain ⟨entry', children'⟩ := t'
      cases query with
      | nil =>
          rw [matchFrom_nil, matchFrom_nil]
          exact ⟨h, rfl, rfl⟩
      | cons first rest =>
          cases hfind : find? first children with
          | none =>
              rw [matchFrom_vacant hfind, matchFrom_vacant (h.vacant hfind)]
              exact ⟨h, rfl, rfl⟩
          | some child =>
              obtain ⟨child', hfind', hchild⟩ := h.child hfind
              by_cases hmatch :
                  matchLen child.label.tokens (first :: rest) = child.label.tokens.length
              · have hmatch' : matchLen child'.label.tokens (first :: rest) =
                    child'.label.tokens.length := by
                  rwa [← Same.tokens hchild]
                rw [matchFrom_step hfind hmatch, matchFrom_step hfind' hmatch', ← Same.tokens hchild,
                  ← Same.blockIds hchild]
                obtain ⟨hbelow, hblocks, hcount⟩ := ih first child (mem_of_find? hfind) hchild
                  ((first :: rest).drop child.label.tokens.length) (tick + 1) (tick' + 1)
                refine ⟨h.swap hfind (hbelow.relabel (fun _ => rfl) fun _ => rfl), ?_, ?_⟩
                · exact congrArg (child.label.blockIds ++ ·) hblocks
                · exact congrArg (child.label.tokens.length + ·) hcount
              · have hmatch' : ¬ matchLen child'.label.tokens (first :: rest) =
                    child'.label.tokens.length := by
                  rwa [← Same.tokens hchild]
                rw [matchFrom_stop hfind hmatch, matchFrom_stop hfind' hmatch']
                exact ⟨h, rfl, rfl⟩

/-- Both insertions hang the same node under the same one, or none. -/
theorem insertFrom_same (env env' : Env) {t t' : RadixNode} (h : Same t t')
    (hdistinct : t.DistinctKeys) (hdistinct' : t'.DistinctKeys) (blockIds : List BlockId) (tokens : List Token)
    (tick tick' : ℕ) :
    Same (insertFrom env blockIds t tokens tick).1 (insertFrom env' blockIds t' tokens tick').1 ∧
      (insertFrom env blockIds t tokens tick).2.1 =
        (insertFrom env' blockIds t' tokens tick').2.1 := by
  induction t using KeyedTree.induct generalizing t' tokens tick tick' with
  | hnode entry children ih =>
      obtain ⟨entry', children'⟩ := t'
      cases tokens with
      | nil =>
          rw [insertFrom, insertFrom]
          exact ⟨h, rfl⟩
      | cons first rest =>
          rw [insertFrom, insertFrom, insertChild_eq, insertChild_eq]
          cases hfind : find? first children with
          | none =>
              have hfind' := h.vacant hfind
              rw [hfind']
              have hnew : Same (leaf ⟨first :: rest, blockIds, env.now tick⟩)
                  (leaf ⟨first :: rest, blockIds, env'.now tick'⟩) := by
                rintro (_ | _)
                · rfl
                · rfl
              exact ⟨h.insert hnew
                (List.nodup_cons.mpr ⟨find?_eq_none.mp hfind, (distinctKeys_node.mp hdistinct).1⟩)
                (List.nodup_cons.mpr
                  ⟨find?_eq_none.mp hfind', (distinctKeys_node.mp hdistinct').1⟩)
                (env.place_perm _ _) (env'.place_perm _ _), rfl⟩
          | some child =>
              obtain ⟨child', hfind', hchild⟩ := h.child hfind
              rw [hfind', Option.map_some, Option.map_some, ← Same.tokens hchild]
              obtain ⟨hbelow, hflag⟩ := ih first child (mem_of_find? hfind) hchild
                (hdistinct.child (mem_of_find? hfind)) (hdistinct'.child (mem_of_find? hfind'))
                ((first :: rest).drop child.label.tokens.length) tick tick'
              exact ⟨h.swap hfind hbelow, hflag⟩

end RadixNode

namespace RadixCache

/-- Caches that differ in stamps, orders and clock readings at most. -/
structure Same (cache cache' : RadixCache) : Prop where
  root : RadixNode.Same cache.root cache'.root
  numCachedBlocks : cache.numCachedBlocks = cache'.numCachedBlocks
  maxCapacity : cache.maxCapacity = cache'.maxCapacity

variable {cache cache' : RadixCache}

theorem new_same (env env' : Env) (maxCapacity : ℕ) :
    (new env maxCapacity).Same (new env' maxCapacity) where
  root := by
    rintro (_ | _)
    · rfl
    · rfl
  numCachedBlocks := rfl
  maxCapacity := rfl

theorem Same.matchPrefix (h : cache.Same cache') (env env' : Env) (tokens : List Token) :
    (cache.matchPrefix env tokens).1.Same (cache'.matchPrefix env' tokens).1 ∧
      (cache.matchPrefix env tokens).2 = (cache'.matchPrefix env' tokens).2 := by
  obtain ⟨hroot, hblocks, hcount⟩ := RadixNode.matchFrom_same env env' h.root
    tokens cache.tick cache'.tick
  exact ⟨⟨hroot, h.numCachedBlocks, h.maxCapacity⟩, Prod.ext hblocks hcount⟩

theorem Same.attach (h : cache.Same cache') (env env' : Env) (tokens : List Token)
    (blockIds : List BlockId) :
    (cache.attach env tokens blockIds).Same (cache'.attach env' tokens blockIds) := by
  obtain ⟨hroot, hflag⟩ := RadixNode.insertFrom_same env env' h.root
    cache.distinct cache'.distinct blockIds tokens cache.tick cache'.tick
  refine ⟨hroot, ?_, h.maxCapacity⟩
  rw [RadixCache.attach, RadixCache.attach]
  dsimp only
  rw [h.numCachedBlocks, hflag]

end RadixCache
end Kyro
