import Kyro.Scheduler.Basic
import Kyro.Lib.KeyedTree
import Kyro.Lib.Run
import Mathlib.Data.List.Infix
import Mathlib.Data.List.TakeWhile

/-!
# The radix cache

`src/scheduler/radix_cache.rs`. The tree of cached prompt prefixes: a node holds a run of tokens and
the blocks computed for it, its children hang under the first token of their run, and a use stamps
the node with the clock.

Two things outside the code decide what a call does: the clock, read once for every node a call
stamps or searches, and the order in which a hash map iterates. `Env` fixes both for a whole run.
The children of a node are listed in the order the map iterates them, so only an insertion asks
`Env` for an order; removing a key leaves the others where they are.
-/

namespace Kyro

open KeyedTree

/-- What `RadixNode` holds besides its children. -/
structure RadixEntry where
  tokens : List Token
  blockIds : List BlockId
  lastAccessed : Instant
  deriving DecidableEq, Repr

/-- `RadixNode`, with `children: HashMap<u32, Box<RadixNode>>` as a keyed list. -/
abbrev RadixNode := KeyedTree Token RadixEntry

structure Env where
  /-- The `n`-th reading of the clock. -/
  now : ℕ → Instant
  /-- How a hash map iterates after the insertion that read the clock for the `n`-th time. -/
  place : ℕ → List (Token × RadixNode) → List (Token × RadixNode)
  place_perm : ∀ n children, (place n children).Perm children

/-- A clock that counts its readings, and maps that iterate from the last key put in. -/
def Env.counting : Env where
  now n := n
  place _ children := children
  place_perm _ _ := .refl _

namespace RadixNode

/-- Stamp a node with a clock reading. -/
def touch (now : Instant) (node : RadixNode) : RadixNode :=
  node.relabel fun entry => { entry with lastAccessed := now }

/-- `child.tokens.iter().zip(query).take_while(|(a, b)| a == b).count()` -/
def matchLen (tokens query : List Token) : ℕ :=
  ((tokens.zip query).takeWhile fun (a, b) => a == b).length

/-! ### The walk of `match_prefix` -/

mutual

/-- The loop of `match_prefix` from a node on: the node with its matched descendants stamped, the
blocks and the number of tokens matched, and the clock readings used so far. -/
def matchFrom (env : Env) : RadixNode → List Token → ℕ → RadixNode × List BlockId × ℕ × ℕ
  | node entry children, query, tick =>
    match query with
    | [] => (node entry children, [], 0, tick)
    | first :: _ =>
      let (children, blocks, matched, tick) := matchChild env children first query tick
      (node entry children, blocks, matched, tick)

/-- `children.get_mut(&first)` and, where its whole run matches, the step into that child. -/
def matchChild (env : Env) : List (Token × RadixNode) → Token → List Token → ℕ →
    List (Token × RadixNode) × List BlockId × ℕ × ℕ
  | [], _, _, tick => ([], [], 0, tick)
  | (key, child) :: rest, first, query, tick =>
    if key = first then
      if matchLen child.label.tokens query = child.label.tokens.length then
        let (below, blocks, matched, tick') :=
          matchFrom env child (query.drop child.label.tokens.length) (tick + 1)
        ((key, touch (env.now tick) below) :: rest, child.label.blockIds ++ blocks,
          child.label.tokens.length + matched, tick')
      else ((key, child) :: rest, [], 0, tick)
    else
      let (rest, blocks, matched, tick) := matchChild env rest first query tick
      ((key, child) :: rest, blocks, matched, tick)

end

/-! ### The walk of `insert` -/

mutual

/-- The loop of `insert` from a node on. The flag says whether a node was added. The walk passes a
child by its key alone and skips as many tokens as the child's run has. -/
def insertFrom (env : Env) (blockIds : List BlockId) : RadixNode → List Token → ℕ →
    RadixNode × Bool × ℕ
  | node entry children, tokens, tick =>
    match tokens with
    | [] => (node entry children, false, tick)
    | first :: rest =>
      match insertChild env blockIds children first tokens tick with
      | some (children, inserted, tick) => (node entry children, inserted, tick)
      | none =>
        let new := leaf { tokens := first :: rest, blockIds, lastAccessed := env.now tick }
        (node entry (env.place tick ((first, new) :: children)), true, tick + 1)

/-- The step into the child under `first`; `none` where the entry is vacant. -/
def insertChild (env : Env) (blockIds : List BlockId) : List (Token × RadixNode) → Token →
    List Token → ℕ → Option (List (Token × RadixNode) × Bool × ℕ)
  | [], _, _, _ => none
  | (key, child) :: rest, first, tokens, tick =>
    if key = first then
      let (child, inserted, tick) :=
        insertFrom env blockIds child (tokens.drop child.label.tokens.length) tick
      some ((key, child) :: rest, inserted, tick)
    else
      match insertChild env blockIds rest first tokens tick with
      | some (rest, inserted, tick) => some ((key, child) :: rest, inserted, tick)
      | none => none

end

/-! ### The search for a victim -/

/-- The first loop of `find_oldest_leaf`: among the children that are leaves and older than
`oldest`, the first of the oldest ones. -/
def oldestLeaf : List (Token × RadixNode) → Instant → Option Token → Option Token
  | [], _, found => found
  | (token, child) :: rest, oldest, found =>
    if child.children.isEmpty && child.label.lastAccessed < oldest then
      oldestLeaf rest child.label.lastAccessed (some token)
    else oldestLeaf rest oldest found

mutual

/-- `find_oldest_leaf`: the path to the leaf it removed, the leaf's blocks and the node without it.
A child that `oldestLeaf` names is there to be removed, so the inner `none` is the `expect` that
cannot fail. -/
def findOldestLeaf (env : Env) : RadixNode → ℕ → Option (List Token × List BlockId × RadixNode) × ℕ
  | node entry children, tick =>
    if children.isEmpty then (none, tick)
    else
      match oldestLeaf children (env.now tick) none with
      | some token =>
        match find? token children with
        | some child =>
          (some ([token], child.label.blockIds, node entry (erase token children)), tick + 1)
        | none => (none, tick + 1)
      | none =>
        match findBelow env children (tick + 1) with
        | (some (path, blockIds, children), tick) =>
          (some (path, blockIds, node entry children), tick)
        | (none, tick) => (none, tick)

/-- The second loop of `find_oldest_leaf`: the first child below which there is a victim. -/
def findBelow (env : Env) : List (Token × RadixNode) → ℕ →
    Option (List Token × List BlockId × List (Token × RadixNode)) × ℕ
  | [], tick => (none, tick)
  | (token, child) :: rest, tick =>
    match findOldestLeaf env child tick with
    | (some (path, blockIds, child), tick) =>
      (some (token :: path, blockIds, (token, child) :: rest), tick)
    | (none, tick) =>
      match findBelow env rest tick with
      | (some (path, blockIds, rest), tick) => (some (path, blockIds, (token, child) :: rest), tick)
      | (none, tick) => (none, tick)

end

/-! ### One step of each walk

The walks find a child by its key, so what they do to the children is a lookup and a replacement. -/

theorem matchFrom_nil (env : Env) (t : RadixNode) (tick : ℕ) :
    matchFrom env t [] tick = (t, [], 0, tick) := by
  cases t
  rw [matchFrom]

theorem matchChild_eq (env : Env) (children : List (Token × RadixNode)) (first : Token)
    (query : List Token) (tick : ℕ) :
    matchChild env children first query tick =
      match find? first children with
      | none => (children, [], 0, tick)
      | some child =>
        if matchLen child.label.tokens query = child.label.tokens.length then
          let step := matchFrom env child (query.drop child.label.tokens.length) (tick + 1)
          (replace first (touch (env.now tick) step.1) children,
            child.label.blockIds ++ step.2.1, child.label.tokens.length + step.2.2.1, step.2.2.2)
        else (children, [], 0, tick) := by
  induction children with
  | nil => rfl
  | cons head rest ih =>
      obtain ⟨key, child⟩ := head
      by_cases hkey : key = first
      · by_cases hmatch : matchLen child.label.tokens query = child.label.tokens.length
        · simp [matchChild, find?, replace, hkey, hmatch]
        · simp [matchChild, find?, hkey, hmatch]
      · simp only [matchChild, find?, replace, if_neg hkey, ih]
        cases find? first rest with
        | none => rfl
        | some child =>
            by_cases hmatch : matchLen child.label.tokens query = child.label.tokens.length
            · simp only [if_pos hmatch]
            · simp only [if_neg hmatch]

section MatchSteps

variable {env : Env} {entry : RadixEntry} {children : List (Token × RadixNode)} {first : Token}
  {rest : List Token} {child : RadixNode} {tick : ℕ}

theorem matchFrom_vacant (hfind : find? first children = none) :
    matchFrom env (node entry children) (first :: rest) tick =
      (node entry children, [], 0, tick) := by
  simp only [matchFrom, matchChild_eq, hfind]

theorem matchFrom_stop (hfind : find? first children = some child)
    (hmatch : matchLen child.label.tokens (first :: rest) ≠ child.label.tokens.length) :
    matchFrom env (node entry children) (first :: rest) tick =
      (node entry children, [], 0, tick) := by
  simp only [matchFrom, matchChild_eq, hfind, if_neg hmatch]

theorem matchFrom_step (hfind : find? first children = some child)
    (hmatch : matchLen child.label.tokens (first :: rest) = child.label.tokens.length) :
    matchFrom env (node entry children) (first :: rest) tick =
      let step := matchFrom env child ((first :: rest).drop child.label.tokens.length) (tick + 1)
      (node entry (replace first (touch (env.now tick) step.1) children),
        child.label.blockIds ++ step.2.1, child.label.tokens.length + step.2.2.1,
        step.2.2.2) := by
  simp only [matchFrom, matchChild_eq, hfind, if_pos hmatch]

end MatchSteps

theorem insertChild_eq (env : Env) (blockIds : List BlockId) (children : List (Token × RadixNode))
    (first : Token) (tokens : List Token) (tick : ℕ) :
    insertChild env blockIds children first tokens tick =
      (find? first children).map fun child =>
        let step := insertFrom env blockIds child (tokens.drop child.label.tokens.length) tick
        (replace first step.1 children, step.2.1, step.2.2) := by
  induction children with
  | nil => rfl
  | cons head rest ih =>
      obtain ⟨key, child⟩ := head
      by_cases hkey : key = first
      · simp [insertChild, find?, replace, hkey]
      · simp only [insertChild, find?, replace, if_neg hkey, ih]
        cases find? first rest with
        | none => rfl
        | some child => rfl

/-- A child that `findBelow` changes is one in which `find_oldest_leaf` found its victim. -/
theorem findBelow_split {env : Env} {children children' : List (Token × RadixNode)}
    {tick tick' : ℕ} {path : List Token} {blockIds : List BlockId}
    (hfind : findBelow env children tick = (some (path, blockIds, children'), tick')) :
    ∃ before after token child child' path' start,
      children = before ++ (token, child) :: after ∧
      children' = before ++ (token, child') :: after ∧ path = token :: path' ∧
      findOldestLeaf env child start = (some (path', blockIds, child'), tick') := by
  induction children generalizing tick children' path with
  | nil => simp [findBelow] at hfind
  | cons head rest ih =>
      obtain ⟨token, child⟩ := head
      rw [findBelow] at hfind
      split at hfind
      · rename_i path' blockIds' child' start' hchild
        cases hfind
        exact ⟨[], rest, token, child, child', path', tick, rfl, rfl, rfl, hchild⟩
      · split at hfind
        · rename_i hrest
          cases hfind
          obtain ⟨before, after, token', child', new, path', start, rfl, rfl, hpath, hleaf⟩ :=
            ih hrest
          exact ⟨(token, child) :: before, after, token', child', new, path', start, rfl, rfl,
            hpath, hleaf⟩
        · cases hfind

/-- What a search takes away: a leaf among the children, or a node below one of them. -/
theorem findOldestLeaf_cases {env : Env} {entry : RadixEntry} {children : List (Token × RadixNode)}
    {t' : RadixNode} {tick tick' : ℕ} {path : List Token} {blockIds : List BlockId}
    (hfind : findOldestLeaf env (node entry children) tick =
      (some (path, blockIds, t'), tick')) :
    ∃ before after token child, children = before ++ (token, child) :: after ∧
      ((oldestLeaf children (env.now tick) none = some token ∧ find? token children = some child ∧
          path = [token] ∧ blockIds = child.label.blockIds ∧ t' = node entry (before ++ after)) ∨
        ∃ child' path' start, path = token :: path' ∧
          t' = node entry (before ++ (token, child') :: after) ∧
          findOldestLeaf env child start = (some (path', blockIds, child'), tick')) := by
  rw [findOldestLeaf] at hfind
  split at hfind
  · cases hfind
  · split at hfind
    · rename_i token holdest
      split at hfind
      · rename_i child hchild
        obtain ⟨before, after, hsplit, _, herase⟩ := find?_split hchild
        rw [herase] at hfind
        cases hfind
        exact ⟨before, after, token, child, hsplit, Or.inl ⟨holdest, hchild, rfl, rfl, rfl⟩⟩
      · cases hfind
    · split at hfind
      · rename_i hbelow
        cases hfind
        obtain ⟨before, after, token, child, child', path', start, hsplit, rfl, rfl, hleaf⟩ :=
          findBelow_split hbelow
        exact ⟨before, after, token, child, hsplit,
          Or.inr ⟨child', path', start, rfl, rfl, hleaf⟩⟩
      · cases hfind

/-! ### The keys stay distinct -/

theorem distinctKeys_touch {now : Instant} {t : RadixNode} :
    DistinctKeys (touch now t) ↔ DistinctKeys t := distinctKeys_relabel

theorem matchFrom_distinct (env : Env) (t : RadixNode) (query : List Token) (tick : ℕ)
    (h : DistinctKeys t) : DistinctKeys (matchFrom env t query tick).1 := by
  induction t using KeyedTree.induct generalizing query tick with
  | hnode entry children ih =>
      cases query with
      | nil =>
          rw [matchFrom_nil]
          exact h
      | cons first rest =>
          cases hfind : find? first children with
          | none =>
              rw [matchFrom_vacant hfind]
              exact h
          | some child =>
              by_cases hmatch :
                  matchLen child.label.tokens (first :: rest) = child.label.tokens.length
              · have hmem := mem_of_find? hfind
                have hbelow := ih first child hmem
                  ((first :: rest).drop child.label.tokens.length) (tick + 1) (h.child hmem)
                rw [matchFrom_step hfind hmatch]
                obtain ⟨before, after, rfl, hreplace, _⟩ := find?_split hfind
                simp only [hreplace]
                exact h.swap (distinctKeys_touch.mpr hbelow)
              · rw [matchFrom_stop hfind hmatch]
                exact h

theorem insertFrom_distinct (env : Env) (blockIds : List BlockId) (t : RadixNode)
    (tokens : List Token) (tick : ℕ) (h : DistinctKeys t) :
    DistinctKeys (insertFrom env blockIds t tokens tick).1 := by
  induction t using KeyedTree.induct generalizing tokens tick with
  | hnode entry children ih =>
      cases tokens with
      | nil =>
          rw [insertFrom]
          exact h
      | cons first rest =>
          rw [insertFrom, insertChild_eq]
          cases hfind : find? first children with
          | none =>
              exact h.insert (find?_eq_none.mp hfind) (distinctKeys_leaf _) (env.place_perm _ _)
          | some child =>
              have hchild := h.child (mem_of_find? hfind)
              obtain ⟨before, after, hsplit, hreplace, _⟩ := find?_split hfind
              have hbelow := ih first child (mem_of_find? hfind)
                ((first :: rest).drop child.label.tokens.length) tick hchild
              rw [hsplit] at h
              simp only [Option.map_some, hreplace]
              exact h.swap hbelow

theorem findOldestLeaf_distinct {env : Env} {t t' : RadixNode} {tick tick' : ℕ}
    {path : List Token} {blockIds : List BlockId} (h : DistinctKeys t)
    (hfind : findOldestLeaf env t tick = (some (path, blockIds, t'), tick')) :
    DistinctKeys t' := by
  induction t using KeyedTree.induct generalizing tick tick' path t' with
  | hnode entry children ih =>
      obtain ⟨before, after, token, child, rfl, hcase⟩ := findOldestLeaf_cases hfind
      rcases hcase with ⟨_, _, _, _, rfl⟩ | ⟨child', path', start, _, rfl, hchild⟩
      · exact h.cut
      · have hmem : (token, child) ∈ before ++ (token, child) :: after := by simp
        exact h.swap (ih token child hmem (h.child hmem) hchild)

end RadixNode

/-! ### The cache -/

structure RadixCache where
  root : RadixNode
  /-- The children are hash maps: no key twice. -/
  distinct : root.DistinctKeys
  numCachedBlocks : ℕ
  maxCapacity : ℕ
  /-- How often the clock has been read. -/
  tick : ℕ

namespace RadixCache

open RadixNode

def new (env : Env) (maxCapacity : ℕ) : RadixCache where
  root := leaf { tokens := [], blockIds := [], lastAccessed := env.now 0 }
  distinct := distinctKeys_leaf _
  numCachedBlocks := 0
  maxCapacity := maxCapacity
  tick := 1

/-- The blocks of the longest run of whole nodes that `tokens` passes through, and the number of
tokens they cover. -/
def matchPrefix (env : Env) (cache : RadixCache) (tokens : List Token) :
    RadixCache × List BlockId × ℕ :=
  let result := matchFrom env cache.root tokens cache.tick
  ({ cache with
      root := result.1
      distinct := matchFrom_distinct env cache.root tokens cache.tick cache.distinct
      tick := result.2.2.2 }, result.2.1, result.2.2.1)

def removeOldestLeaf (env : Env) (cache : RadixCache) : RadixCache × Option (List BlockId) :=
  match hfind : findOldestLeaf env cache.root cache.tick with
  | (some (_, blockIds, root), tick) =>
    ({ cache with root, tick, distinct := findOldestLeaf_distinct cache.distinct hfind },
      some blockIds)
  | (none, tick) => ({ cache with tick }, none)

/-- The loop of `evict_lru`. Every turn but the last removes a node, so as many turns as there are
nodes are enough: with none left there is no victim and the loop ends. -/
def evictLoop (env : Env) : ℕ → RadixCache → List BlockId → Except Fault (RadixCache × List BlockId)
  | 0, cache, blocksToFree => .ok (cache, blocksToFree)
  | fuel + 1, cache, blocksToFree =>
    match cache.removeOldestLeaf env with
    | (cache, none) => .ok (cache, blocksToFree)
    | (cache, some evicted) => do
      let numCachedBlocks ← checkedSub .cachedBlocks cache.numCachedBlocks evicted.length
      if numCachedBlocks ≤ cache.maxCapacity then
        return ({ cache with numCachedBlocks }, blocksToFree ++ evicted)
      else evictLoop env fuel { cache with numCachedBlocks } (blocksToFree ++ evicted)

def evictLru (env : Env) (cache : RadixCache) : Except Fault (RadixCache × List BlockId) :=
  cache.evictLoop env cache.root.size []

/-- The loop of `insert`. -/
def attach (env : Env) (cache : RadixCache) (tokens : List Token) (blockIds : List BlockId) :
    RadixCache :=
  let result := insertFrom env blockIds cache.root tokens cache.tick
  { cache with
    root := result.1
    distinct := insertFrom_distinct env blockIds cache.root tokens cache.tick cache.distinct
    numCachedBlocks := cache.numCachedBlocks + if result.2.1 then blockIds.length else 0
    tick := result.2.2 }

/-- `insert` drops the blocks that its own call of `evict_lru` returns. -/
def insert (env : Env) (cache : RadixCache) (tokens : List Token) (blockIds : List BlockId) :
    Except Fault RadixCache :=
  let cache := cache.attach env tokens blockIds
  if cache.maxCapacity < cache.numCachedBlocks then (cache.evictLru env).map Prod.fst
  else .ok cache

/-! ### Call sequences -/

/-- A call of the cache's public interface. -/
inductive Call where
  | insert (tokens : List Token) (blockIds : List BlockId)
  | matchPrefix (tokens : List Token)
  | evictLru
  deriving DecidableEq

/-- The cache after a call. -/
def exec (env : Env) (cache : RadixCache) : Call → Except Fault RadixCache
  | .insert tokens blockIds => cache.insert env tokens blockIds
  | .matchPrefix tokens => .ok (cache.matchPrefix env tokens).1
  | .evictLru => (cache.evictLru env).map Prod.fst

/-- The cache after a sequence of calls on a fresh one. -/
def history (env : Env) (maxCapacity : ℕ) (calls : List Call) : Except Fault RadixCache :=
  Machine.run (exec env) (new env maxCapacity) calls

end RadixCache

end Kyro
