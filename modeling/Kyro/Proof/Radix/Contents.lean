import Kyro.Scheduler.RadixCache
import Mathlib.Data.List.Perm.Basic
import Mathlib.Tactic.Push

/-!
# What the radix tree holds

The contents of a tree are its root-to-node paths without the time stamps. The three walks are
described by them and nothing else: a match leaves them as they are and reads one of them off, an
insertion adds at most one path, an eviction takes one away.
-/

namespace Kyro

open KeyedTree

/-- One node on a path: its key in the parent, its run of tokens and its blocks. -/
@[ext] structure PathStep where
  key : Token
  tokens : List Token
  blockIds : List BlockId
  deriving DecidableEq, Repr

/-- The tokens a path spells. -/
def spell (path : List PathStep) : List Token := path.flatMap (·.tokens)

/-- The blocks of all nodes on a path. -/
def pathBlocks (path : List PathStep) : List BlockId := path.flatMap (·.blockIds)

/-- The blocks of the node a path ends at. -/
def endBlocks (path : List PathStep) : List BlockId := (path.getLast?.map (·.blockIds)).getD []

@[simp] theorem spell_nil : spell [] = [] := rfl

@[simp] theorem spell_cons (s : PathStep) (p : List PathStep) :
    spell (s :: p) = s.tokens ++ spell p := rfl

@[simp] theorem endBlocks_snoc (p : List PathStep) (s : PathStep) :
    endBlocks (p ++ [s]) = s.blockIds := by
  simp [endBlocks]

theorem endBlocks_cons (s : PathStep) {p : List PathStep} (hp : p ≠ []) :
    endBlocks (s :: p) = endBlocks p := by
  simp [endBlocks, List.getLast?_cons, List.getLast?_eq_getLast_of_ne_nil hp]

@[simp] theorem spell_append (p q : List PathStep) : spell (p ++ q) = spell p ++ spell q := by
  simp [spell]

namespace RadixNode

def step (e : Token × RadixEntry) : PathStep := ⟨e.1, e.2.tokens, e.2.blockIds⟩

/-- The paths of a tree, without the time stamps. -/
def contents (t : RadixNode) : List (List PathStep) :=
  t.paths.map (·.map step)

def contentsBelow (children : List (Token × RadixNode)) : List (List PathStep) :=
  (pathsBelow children).map (·.map step)

/-- The blocks of all nodes of a tree, a block once for each time it is listed. -/
def cachedBlocks (t : RadixNode) : List BlockId := t.contents.flatMap endBlocks

theorem contents_node (entry : RadixEntry) (children : List (Token × RadixNode)) :
    contents (node entry children) = [] :: contentsBelow children := by
  rw [contents, paths_eq]
  rfl

theorem mem_contentsBelow {children : List (Token × RadixNode)} {p : List PathStep} :
    p ∈ contentsBelow children ↔ ∃ key child q,
      (key, child) ∈ children ∧ q ∈ contents child ∧ p = step (key, child.label) :: q := by
  simp only [contentsBelow, contents, List.mem_map, mem_pathsBelow]
  constructor
  · rintro ⟨_, ⟨key, child, q, hmem, hq, rfl⟩, rfl⟩
    exact ⟨key, child, _, hmem, ⟨q, hq, rfl⟩, rfl⟩
  · rintro ⟨key, child, _, hmem, ⟨q, hq, rfl⟩, rfl⟩
    exact ⟨_, ⟨key, child, q, hmem, hq, rfl⟩, rfl⟩

theorem nil_mem_contents (t : RadixNode) : [] ∈ t.contents :=
  List.mem_map.mpr ⟨[], nil_mem_paths t, rfl⟩

/-- The start of a path is a path. -/
theorem mem_contents_of_append {t : RadixNode} {p q : List PathStep} (h : p ++ q ∈ t.contents) :
    p ∈ t.contents := by
  induction t using KeyedTree.induct generalizing p with
  | hnode entry children ih =>
      cases p with
      | nil => exact nil_mem_contents _
      | cons s p =>
          rw [contents_node, List.cons_append, List.mem_cons] at h
          rcases h with h | h
          · cases h
          · obtain ⟨key, child, r, hmem, hr, heq⟩ := mem_contentsBelow.mp h
            obtain ⟨rfl, rfl⟩ := List.cons.inj heq
            rw [contents_node]
            exact List.mem_cons_of_mem _
              (mem_contentsBelow.mpr ⟨key, child, p, hmem, ih key child hmem hr, rfl⟩)

/-- The blocks on a path of the tree are blocks of the tree. -/
theorem mem_cachedBlocks_of_path {t : RadixNode} {p : List PathStep} (hp : p ∈ t.contents)
    {block : BlockId} (hblock : block ∈ pathBlocks p) : block ∈ cachedBlocks t := by
  obtain ⟨s, hs, hblock⟩ := List.mem_flatMap.mp hblock
  obtain ⟨before, after, rfl⟩ := List.append_of_mem hs
  rw [← List.singleton_append, ← List.append_assoc] at hp
  refine List.mem_flatMap.mpr ⟨before ++ [s], mem_contents_of_append hp, ?_⟩
  rwa [endBlocks_snoc]

/-- The blocks of a tree are those of its children, each child's own and what is below it. -/
theorem flatMap_contentsBelow (children : List (Token × RadixNode)) :
    (contentsBelow children).flatMap endBlocks =
      children.flatMap fun kc => kc.2.label.blockIds ++ cachedBlocks kc.2 := by
  induction children with
  | nil => rfl
  | cons head rest ih =>
      obtain ⟨key, child⟩ := head
      have hsplit : contentsBelow ((key, child) :: rest) =
          (contents child).map (step (key, child.label) :: ·) ++ contentsBelow rest := by
        simp only [contentsBelow, contents, pathsBelow, List.map_append, List.map_map]
        rfl
      have hchild : ((contents child).map (step (key, child.label) :: ·)).flatMap endBlocks =
          child.label.blockIds ++ cachedBlocks child := by
        cases child with
        | node entry below =>
            have hne : ∀ p ∈ contentsBelow below, p ≠ [] := by
              intro p hp
              obtain ⟨_, _, _, _, _, rfl⟩ := mem_contentsBelow.mp hp
              simp
            rw [cachedBlocks, contents_node, List.map_cons, List.flatMap_cons, List.flatMap_cons,
              List.flatMap_map]
            congr 1
            exact List.flatMap_congr fun p hp => endBlocks_cons _ (hne p hp)
      rw [hsplit, List.flatMap_append, hchild, ih, List.flatMap_cons]

/-- A path holds a block no more often than the tree does: its nodes are different ones. -/
theorem count_pathBlocks_le {t : RadixNode} {p : List PathStep} (hp : p ∈ t.contents)
    (block : BlockId) : (pathBlocks p).count block ≤ (cachedBlocks t).count block := by
  induction t using KeyedTree.induct generalizing p with
  | hnode entry children ih =>
      rw [contents_node, List.mem_cons] at hp
      rcases hp with rfl | hp
      · exact Nat.zero_le _
      · obtain ⟨key, child, q, hmem, hq, rfl⟩ := mem_contentsBelow.mp hp
        have hbelow := ih key child hmem hq
        obtain ⟨before, after, rfl⟩ := List.append_of_mem hmem
        rw [cachedBlocks, contents_node, List.flatMap_cons, flatMap_contentsBelow,
          List.flatMap_append, List.flatMap_cons]
        change (child.label.blockIds ++ pathBlocks q).count block ≤ _
        simp only [List.count_append]
        omega

/-! ### Matching -/

theorem matchLen_eq_iff {tokens query : List Token} :
    matchLen tokens query = tokens.length ↔ tokens <+: query := by
  induction tokens generalizing query with
  | nil => simp [matchLen]
  | cons t tokens ih =>
      cases query with
      | nil => simp [matchLen]
      | cons q query =>
          by_cases heq : t = q
          · subst q
            rw [List.prefix_cons_inj, ← ih]
            simp [matchLen]
          · simp [matchLen, heq]

/-- A match changes nothing but time stamps. -/
theorem matchFrom_contents (env : Env) (t : RadixNode) (query : List Token) (tick : ℕ) :
    (matchFrom env t query tick).1.contents = t.contents ∧
      (matchFrom env t query tick).1.label = t.label := by
  induction t using KeyedTree.induct generalizing query tick with
  | hnode entry children ih =>
      cases query with
      | nil =>
          rw [matchFrom_nil]
          exact ⟨rfl, rfl⟩
      | cons first rest =>
          cases hfind : find? first children with
          | none =>
              rw [matchFrom_vacant hfind]
              exact ⟨rfl, rfl⟩
          | some child =>
              by_cases hmatch :
                  matchLen child.label.tokens (first :: rest) = child.label.tokens.length
              · obtain ⟨hcontents, hlabel⟩ := ih first child (mem_of_find? hfind)
                  ((first :: rest).drop child.label.tokens.length) (tick + 1)
                rw [matchFrom_step hfind hmatch]
                obtain ⟨before, after, rfl, hreplace, _⟩ := find?_split hfind
                refine ⟨?_, rfl⟩
                simp only [hreplace]
                rw [contents_node, contents_node, contentsBelow, contentsBelow]
                congr 1
                apply pathsBelow_swap_map
                · rw [touch, label_relabel, hlabel]
                  rfl
                · rw [touch, paths_relabel]
                  exact hcontents
              · rw [matchFrom_stop hfind hmatch]
                exact ⟨rfl, rfl⟩

/-- A match reads off a path whose tokens start the query. -/
theorem matchFrom_path (env : Env) (t : RadixNode) (query : List Token) (tick : ℕ) :
    ∃ p ∈ t.contents, spell p <+: query ∧
      (matchFrom env t query tick).2.1 = pathBlocks p ∧
      (matchFrom env t query tick).2.2.1 = (spell p).length := by
  induction t using KeyedTree.induct generalizing query tick with
  | hnode entry children ih =>
      have hstop : ∃ p ∈ contents (node entry children), spell p <+: query ∧
          ([] : List BlockId) = pathBlocks p ∧ 0 = (spell p).length :=
        ⟨[], nil_mem_contents _, List.nil_prefix, rfl, rfl⟩
      cases query with
      | nil =>
          rw [matchFrom_nil]
          exact hstop
      | cons first rest =>
          cases hfind : find? first children with
          | none =>
              rw [matchFrom_vacant hfind]
              exact hstop
          | some child =>
              by_cases hmatch :
                  matchLen child.label.tokens (first :: rest) = child.label.tokens.length
              · have hmem := mem_of_find? hfind
                obtain ⟨p, hp, hspell, hblocks, hlen⟩ := ih first child hmem
                  ((first :: rest).drop child.label.tokens.length) (tick + 1)
                rw [matchFrom_step hfind hmatch]
                refine ⟨step (first, child.label) :: p, ?_, ?_, ?_, ?_⟩
                · rw [contents_node]
                  exact List.mem_cons_of_mem _
                    (mem_contentsBelow.mpr ⟨first, child, p, hmem, hp, rfl⟩)
                · have htokens := List.prefix_iff_eq_append.mp (matchLen_eq_iff.mp hmatch)
                  rw [spell_cons, ← htokens]
                  exact (List.prefix_append_right_inj _).mpr hspell
                · simp only [hblocks]
                  rfl
                · simp only [hlen, spell_cons, List.length_append]
                  rfl
              · rw [matchFrom_stop hfind hmatch]
                exact hstop

/-! ### Insertion -/

mutual

/-- The path to the node under which `insert` hangs the rest of `tokens`, if it adds a node at all.
-/
def attachPath : RadixNode → List Token → Option (List PathStep)
  | node _ children, tokens =>
    match tokens with
    | [] => none
    | first :: _ => attachBelow children first tokens

def attachBelow : List (Token × RadixNode) → Token → List Token → Option (List PathStep)
  | [], _, _ => some []
  | (key, child) :: rest, first, tokens =>
    if key = first then
      (attachPath child (tokens.drop child.label.tokens.length)).map (step (key, child.label) :: ·)
    else attachBelow rest first tokens

end

theorem attachBelow_eq (children : List (Token × RadixNode)) (first : Token)
    (tokens : List Token) :
    attachBelow children first tokens =
      match find? first children with
      | none => some []
      | some child =>
        (attachPath child (tokens.drop child.label.tokens.length)).map
          (step (first, child.label) :: ·) := by
  induction children with
  | nil => rfl
  | cons head rest ih =>
      obtain ⟨key, child⟩ := head
      by_cases hkey : key = first
      · simp [attachBelow, find?, hkey]
      · simp [attachBelow, find?, hkey, ih]

/-- An insertion adds the path `attachPath` names, with the tokens that are left, or nothing. -/
theorem insertFrom_contents (env : Env) (blockIds : List BlockId) (t : RadixNode)
    (tokens : List Token) (tick : ℕ) :
    (insertFrom env blockIds t tokens tick).1.label = t.label ∧
      match attachPath t tokens with
      | none => (insertFrom env blockIds t tokens tick).2.1 = false ∧
          (insertFrom env blockIds t tokens tick).1.contents = t.contents
      | some p => (insertFrom env blockIds t tokens tick).2.1 = true ∧ p ∈ t.contents ∧
          ∃ first rest, tokens.drop (spell p).length = first :: rest ∧
            (insertFrom env blockIds t tokens tick).1.contents.Perm
              ((p ++ [⟨first, first :: rest, blockIds⟩]) :: t.contents) := by
  induction t using KeyedTree.induct generalizing tokens tick with
  | hnode entry children ih =>
      cases tokens with
      | nil =>
          rw [insertFrom]
          exact ⟨rfl, rfl, rfl⟩
      | cons first rest =>
          rw [insertFrom, insertChild_eq, attachPath, attachBelow_eq]
          cases hfind : find? first children with
          | none =>
              refine ⟨rfl, rfl, nil_mem_contents _, first, rest, rfl, ?_⟩
              have hperm := (pathsBelow_perm (env.place_perm tick
                ((first, leaf ⟨first :: rest, blockIds, env.now tick⟩) :: children))).map
                (·.map step)
              simp only [Option.map_none, contents_node]
              exact (hperm.cons []).trans (List.Perm.swap _ _ _)
          | some child =>
              obtain ⟨hlabel, hattach⟩ := ih first child (mem_of_find? hfind)
                ((first :: rest).drop child.label.tokens.length) tick
              have hmem := mem_of_find? hfind
              obtain ⟨before, after, rfl, hreplace, _⟩ := find?_split hfind
              simp only [Option.map_some, hreplace]
              refine ⟨rfl, ?_⟩
              cases hpath : attachPath child ((first :: rest).drop child.label.tokens.length) with
              | none =>
                  rw [hpath] at hattach
                  obtain ⟨hflag, hcontents⟩ := hattach
                  refine ⟨hflag, ?_⟩
                  rw [contents_node, contents_node, contentsBelow, contentsBelow]
                  congr 1
                  exact pathsBelow_swap_map (by rw [hlabel]) hcontents
              | some p =>
                  rw [hpath] at hattach
                  obtain ⟨hflag, hp, first', rest', hdrop, hperm⟩ := hattach
                  refine ⟨hflag, ?_, first', rest', ?_, ?_⟩
                  · rw [contents_node]
                    exact List.mem_cons_of_mem _
                      (mem_contentsBelow.mpr ⟨first, child, p, hmem, hp, rfl⟩)
                  · rw [spell_cons, List.length_append, ← List.drop_drop]
                    exact hdrop
                  · rw [contents_node, contents_node, contentsBelow, contentsBelow]
                    exact ((pathsBelow_gain_map (by rw [hlabel]) hperm).cons []).trans
                      (List.Perm.swap _ _ _)

/-! ### Eviction -/

/-- The scan names a leaf that is the oldest of those it sees, or none is older than the bound. -/
theorem oldestLeaf_cases (children : List (Token × RadixNode)) (oldest : Instant)
    (found : Option Token) :
    (oldestLeaf children oldest found = found ∧ ∀ key child, (key, child) ∈ children →
        child.children = [] → oldest ≤ child.label.lastAccessed) ∨
      ∃ token leaf, oldestLeaf children oldest found = some token ∧ (token, leaf) ∈ children ∧
        leaf.children = [] ∧ leaf.label.lastAccessed < oldest ∧
        ∀ key child, (key, child) ∈ children → child.children = [] →
          leaf.label.lastAccessed ≤ child.label.lastAccessed := by
  induction children generalizing oldest found with
  | nil => exact Or.inl ⟨rfl, by simp⟩
  | cons head rest ih =>
      obtain ⟨key, child⟩ := head
      rw [oldestLeaf]
      split
      · rename_i hleaf
        simp only [Bool.and_eq_true, List.isEmpty_iff, decide_eq_true_eq] at hleaf
        obtain ⟨hnone, hlt⟩ := hleaf
        rcases ih child.label.lastAccessed (some key) with ⟨hfound, hge⟩ | ⟨token, leaf, hfound,
          hmem, hnone', hlt', hge⟩
        · refine Or.inr ⟨key, child, hfound, List.mem_cons_self, hnone, hlt, fun k c hc hc' => ?_⟩
          rcases List.mem_cons.mp hc with heq | hc
          · rw [(Prod.mk.inj heq).2]
          · exact hge k c hc hc'
        · refine Or.inr ⟨token, leaf, hfound, List.mem_cons_of_mem _ hmem, hnone',
            hlt'.trans hlt, fun k c hc hc' => ?_⟩
          rcases List.mem_cons.mp hc with heq | hc
          · rw [(Prod.mk.inj heq).2]
            exact hlt'.le
          · exact hge k c hc hc'
      · rename_i hskip
        simp only [Bool.and_eq_true, List.isEmpty_iff, decide_eq_true_eq, not_and,
          Nat.not_lt] at hskip
        rcases ih oldest found with ⟨hfound, hge⟩ | ⟨token, leaf, hfound, hmem, hnone, hlt, hge⟩
        · refine Or.inl ⟨hfound, fun k c hc hc' => ?_⟩
          rcases List.mem_cons.mp hc with heq | hc
          · obtain ⟨_, rfl⟩ := Prod.mk.inj heq
            exact hskip hc'
          · exact hge k c hc hc'
        · refine Or.inr ⟨token, leaf, hfound, List.mem_cons_of_mem _ hmem, hnone, hlt,
            fun k c hc hc' => ?_⟩
          rcases List.mem_cons.mp hc with heq | hc
          · obtain ⟨_, rfl⟩ := Prod.mk.inj heq
            exact hlt.le.trans (hskip hc')
          · exact hge k c hc hc'

/-- The search for a victim takes away the path to one node, a leaf, and returns its blocks. -/
theorem findOldestLeaf_contents {env : Env} {t t' : RadixNode} {tick tick' : ℕ}
    {path : List Token} {blockIds : List BlockId} (hdistinct : DistinctKeys t)
    (hfind : findOldestLeaf env t tick = (some (path, blockIds, t'), tick')) :
    t'.label = t.label ∧ ∃ p, p ≠ [] ∧ p.map (·.key) = path ∧ endBlocks p = blockIds ∧
      t.contents.Perm (p :: t'.contents) := by
  induction t using KeyedTree.induct generalizing tick tick' path t' with
  | hnode entry children ih =>
      obtain ⟨before, after, token, child, rfl, hcase⟩ := findOldestLeaf_cases hfind
      have hmem : (token, child) ∈ before ++ (token, child) :: after := by simp
      rcases hcase with ⟨holdest, hchild, rfl, rfl, rfl⟩ | ⟨child', path', start, rfl, rfl, hfound⟩
      · -- distinct keys: the child found under the key is the leaf that was picked
        have hscan := (oldestLeaf_cases (before ++ (token, child) :: after) (env.now tick)
          none).resolve_left (by rw [holdest]; simp)
        obtain ⟨_, leaf, hpicked, hleafmem, hleaf, _⟩ := hscan
        obtain rfl := Option.some.inj (holdest.symm.trans hpicked)
        obtain rfl : leaf = child := Option.some.inj
          ((find?_of_mem (distinctKeys_node.mp hdistinct).1 hleafmem).symm.trans hchild)
        refine ⟨rfl, [step (token, leaf.label)], by simp, rfl, rfl, ?_⟩
        rw [contents_node, contents_node, contentsBelow, contentsBelow]
        exact (((pathsBelow_cut hleaf).map (·.map step)).cons []).trans (List.Perm.swap _ _ _)
      · obtain ⟨hlabel, p, hne, hkeys, hblocks, hperm⟩ :=
          ih token child hmem (hdistinct.child hmem) hfound
        refine ⟨rfl, step (token, child.label) :: p, by simp, by simp [hkeys, step],
          by rw [endBlocks_cons _ hne, hblocks], ?_⟩
        rw [contents_node, contents_node, contentsBelow, contentsBelow]
        rw [← hlabel]
        exact ((pathsBelow_gain_map (by rw [hlabel]) hperm).cons []).trans
          (List.Perm.swap _ _ _)

end RadixNode
end Kyro
