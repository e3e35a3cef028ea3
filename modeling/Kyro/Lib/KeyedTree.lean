import Mathlib.Data.List.Nodup
import Mathlib.Data.List.Perm.Basic
import Mathlib.Data.List.Flatten

/-!
# Trees with keyed children

A node carries a label and a list of children, each under a key; the list stands for a hash map in
its order of iteration, so a well-formed tree has distinct keys at every node. What an operation
does to a tree is said by the list of its root-to-node paths: replacing the labels on the way keeps
them up to relabelling, hanging a leaf adds one, cutting a leaf removes one.
-/

universe u v

inductive KeyedTree (κ : Type u) (α : Type v) where
  | node (label : α) (children : List (κ × KeyedTree κ α))

namespace KeyedTree

variable {κ : Type u} {α : Type v}

def label : KeyedTree κ α → α
  | node label _ => label

def children : KeyedTree κ α → List (κ × KeyedTree κ α)
  | node _ children => children

def leaf (label : α) : KeyedTree κ α := node label []

@[simp] theorem children_node (a : α) (cs : List (κ × KeyedTree κ α)) :
    (node a cs).children = cs := rfl

/-- Change the label of the root. -/
def relabel (f : α → α) : KeyedTree κ α → KeyedTree κ α
  | node label children => node (f label) children

@[simp] theorem label_relabel (f : α → α) (t : KeyedTree κ α) :
    (t.relabel f).label = f t.label := by
  cases t
  rfl

@[simp] theorem children_relabel (f : α → α) (t : KeyedTree κ α) :
    (t.relabel f).children = t.children := by
  cases t
  rfl

/-- To prove a property of every tree, prove it of a node whose children have it. -/
theorem induct {P : KeyedTree κ α → Prop}
    (hnode : ∀ a cs, (∀ k c, (k, c) ∈ cs → P c) → P (node a cs)) : ∀ t, P t := by
  refine @KeyedTree.rec κ α P (fun cs => ∀ k c, (k, c) ∈ cs → P c) (fun kc => P kc.2)
    ?_ ?_ ?_ ?_
  · exact hnode
  · intro k c hmem
    simp at hmem
  · intro head tail hhead htail k c hmem
    rcases List.mem_cons.mp hmem with heq | hmem
    · rw [show c = head.2 from congrArg Prod.snd heq]
      exact hhead
    · exact htail k c hmem
  · intro k c hc
    exact hc

/-! ### Children as a map -/

section Children

variable [DecidableEq κ]

/-- The child under a key. -/
def find? (key : κ) : List (κ × KeyedTree κ α) → Option (KeyedTree κ α)
  | [] => none
  | (k, child) :: rest => if k = key then some child else find? key rest

/-- Put another child under a key that has one. -/
def replace (key : κ) (new : KeyedTree κ α) : List (κ × KeyedTree κ α) → List (κ × KeyedTree κ α)
  | [] => []
  | (k, child) :: rest => if k = key then (k, new) :: rest else (k, child) :: replace key new rest

/-- Remove the child under a key. -/
def erase (key : κ) : List (κ × KeyedTree κ α) → List (κ × KeyedTree κ α)
  | [] => []
  | (k, child) :: rest => if k = key then rest else (k, child) :: erase key rest

/-- Where a key is found, the list splits around its child, and `replace` and `erase` work there. -/
theorem find?_split {key : κ} {c : KeyedTree κ α} {cs : List (κ × KeyedTree κ α)}
    (hfind : find? key cs = some c) :
    ∃ before after, cs = before ++ (key, c) :: after ∧
      (∀ new, replace key new cs = before ++ (key, new) :: after) ∧
      erase key cs = before ++ after := by
  induction cs with
  | nil => simp [find?] at hfind
  | cons head tail ih =>
      obtain ⟨k, child⟩ := head
      by_cases hkey : k = key
      · subst k
        rw [find?, if_pos rfl] at hfind
        cases hfind
        exact ⟨[], tail, rfl, fun new => by simp [replace], by simp [erase]⟩
      · rw [find?, if_neg hkey] at hfind
        obtain ⟨before, after, hsplit, hreplace, herase⟩ := ih hfind
        refine ⟨(k, child) :: before, after, by rw [hsplit]; rfl, fun new => ?_, ?_⟩
        · rw [replace, if_neg hkey, hreplace]
          rfl
        · rw [erase, if_neg hkey, herase]
          rfl

theorem mem_of_find? {key : κ} {c : KeyedTree κ α} {cs : List (κ × KeyedTree κ α)}
    (hfind : find? key cs = some c) : (key, c) ∈ cs := by
  obtain ⟨before, after, hsplit, _⟩ := find?_split hfind
  simp [hsplit]

theorem find?_eq_none {key : κ} {cs : List (κ × KeyedTree κ α)} :
    find? key cs = none ↔ key ∉ cs.map Prod.fst := by
  induction cs with
  | nil => simp [find?]
  | cons head tail ih =>
      obtain ⟨k, child⟩ := head
      by_cases hkey : k = key
      · simp [find?, hkey]
      · simp only [find?, if_neg hkey, ih, List.map_cons, List.mem_cons, not_or]
        exact ⟨fun h => ⟨Ne.symm hkey, h⟩, fun h => h.2⟩

theorem find?_of_mem {key : κ} {c : KeyedTree κ α} {cs : List (κ × KeyedTree κ α)}
    (hdistinct : (cs.map Prod.fst).Nodup) (hmem : (key, c) ∈ cs) : find? key cs = some c := by
  induction cs with
  | nil => simp at hmem
  | cons head tail ih =>
      obtain ⟨k, child⟩ := head
      obtain ⟨hhead, htail⟩ := List.nodup_cons.mp hdistinct
      rcases List.mem_cons.mp hmem with heq | hmem
      · obtain ⟨rfl, rfl⟩ := Prod.mk.inj heq
        simp [find?]
      · have hne : k ≠ key := by
          rintro rfl
          exact hhead (List.mem_map.mpr ⟨(k, c), hmem, rfl⟩)
        rw [find?, if_neg hne]
        exact ih htail hmem

end Children

/-! ### Distinct keys -/

mutual

/-- No node has two children under one key. -/
def DistinctKeys : KeyedTree κ α → Prop
  | node _ children => (children.map Prod.fst).Nodup ∧ DistinctBelow children

def DistinctBelow : List (κ × KeyedTree κ α) → Prop
  | [] => True
  | (_, child) :: rest => DistinctKeys child ∧ DistinctBelow rest

end

theorem distinctBelow_iff {cs : List (κ × KeyedTree κ α)} :
    DistinctBelow cs ↔ ∀ k c, (k, c) ∈ cs → DistinctKeys c := by
  induction cs with
  | nil => simp [DistinctBelow]
  | cons head tail ih =>
      obtain ⟨k, child⟩ := head
      simp only [DistinctBelow, ih, List.mem_cons, Prod.mk.injEq]
      constructor
      · rintro ⟨hchild, htail⟩ k' c (⟨rfl, rfl⟩ | hmem)
        · exact hchild
        · exact htail k' c hmem
      · intro h
        exact ⟨h k child (Or.inl ⟨rfl, rfl⟩), fun k' c hmem => h k' c (Or.inr hmem)⟩

theorem distinctKeys_node {a : α} {cs : List (κ × KeyedTree κ α)} :
    DistinctKeys (node a cs) ↔
      (cs.map Prod.fst).Nodup ∧ ∀ k c, (k, c) ∈ cs → DistinctKeys c := by
  rw [DistinctKeys, distinctBelow_iff]

theorem distinctKeys_leaf (a : α) : DistinctKeys (leaf a : KeyedTree κ α) := by
  simp [leaf, distinctKeys_node]

theorem distinctKeys_relabel {f : α → α} {t : KeyedTree κ α} :
    DistinctKeys (t.relabel f) ↔ DistinctKeys t := by
  cases t
  simp only [relabel, distinctKeys_node]

theorem child_unique {cs : List (κ × KeyedTree κ α)} (h : (cs.map Prod.fst).Nodup) {k : κ}
    {c c' : KeyedTree κ α} (hmem : (k, c) ∈ cs) (hmem' : (k, c') ∈ cs) : c = c' :=
  (Prod.mk.inj (List.inj_on_of_nodup_map h hmem hmem' rfl)).2

theorem DistinctKeys.child {a : α} {cs : List (κ × KeyedTree κ α)} {k : κ} {c : KeyedTree κ α}
    (h : DistinctKeys (node a cs)) (hmem : (k, c) ∈ cs) : DistinctKeys c :=
  (distinctKeys_node.mp h).2 k c hmem

theorem DistinctKeys.swap {a : α} {before after : List (κ × KeyedTree κ α)} {key : κ}
    {c new : KeyedTree κ α} (h : DistinctKeys (node a (before ++ (key, c) :: after)))
    (hnew : DistinctKeys new) : DistinctKeys (node a (before ++ (key, new) :: after)) := by
  rw [distinctKeys_node] at h ⊢
  refine ⟨by simpa using h.1, fun k c' hmem => ?_⟩
  simp only [List.mem_append, List.mem_cons, Prod.mk.injEq] at hmem
  rcases hmem with hmem | ⟨_, rfl⟩ | hmem
  · exact h.2 k c' (by simp [hmem])
  · exact hnew
  · exact h.2 k c' (by simp [hmem])

theorem DistinctKeys.cut {a : α} {before after : List (κ × KeyedTree κ α)} {key : κ}
    {c : KeyedTree κ α} (h : DistinctKeys (node a (before ++ (key, c) :: after))) :
    DistinctKeys (node a (before ++ after)) := by
  have hsub : (before ++ after).Sublist (before ++ (key, c) :: after) :=
    List.Sublist.append_left (List.sublist_cons_self _ _) _
  rw [distinctKeys_node] at h ⊢
  exact ⟨h.1.sublist (hsub.map _), fun k c' hmem => h.2 k c' (hsub.subset hmem)⟩

theorem DistinctKeys.insert {a : α} {cs cs' : List (κ × KeyedTree κ α)} {key : κ}
    {new : KeyedTree κ α} (h : DistinctKeys (node a cs)) (hkey : key ∉ cs.map Prod.fst)
    (hnew : DistinctKeys new) (hperm : cs'.Perm ((key, new) :: cs)) :
    DistinctKeys (node a cs') := by
  rw [distinctKeys_node] at h ⊢
  refine ⟨(hperm.map Prod.fst).nodup_iff.mpr (List.nodup_cons.mpr ⟨hkey, h.1⟩), fun k c hmem => ?_⟩
  rcases List.mem_cons.mp (hperm.subset hmem) with heq | hmem
  · obtain ⟨_, rfl⟩ := Prod.mk.inj heq
    exact hnew
  · exact h.2 k c hmem

/-! ### Paths -/

mutual

/-- Every path from the root, as the keys and labels of the nodes it enters; the empty path stays at
the root. -/
def paths : KeyedTree κ α → List (List (κ × α))
  | node _ children => [] :: pathsBelow children

def pathsBelow : List (κ × KeyedTree κ α) → List (List (κ × α))
  | [] => []
  | (k, child) :: rest => (paths child).map ((k, child.label) :: ·) ++ pathsBelow rest

end

theorem paths_eq (t : KeyedTree κ α) : t.paths = [] :: pathsBelow t.children := by
  cases t
  rw [paths, children_node]

@[simp] theorem paths_relabel (f : α → α) (t : KeyedTree κ α) :
    (t.relabel f).paths = t.paths := by
  rw [paths_eq, paths_eq, children_relabel]

theorem pathsBelow_eq (cs : List (κ × KeyedTree κ α)) :
    pathsBelow cs = cs.flatMap fun kc => kc.2.paths.map ((kc.1, kc.2.label) :: ·) := by
  induction cs with
  | nil => rfl
  | cons head tail ih =>
      obtain ⟨k, child⟩ := head
      rw [pathsBelow, ih, List.flatMap_cons]

theorem pathsBelow_append (cs ds : List (κ × KeyedTree κ α)) :
    pathsBelow (cs ++ ds) = pathsBelow cs ++ pathsBelow ds := by
  simp only [pathsBelow_eq, List.flatMap_append]

theorem pathsBelow_perm {cs ds : List (κ × KeyedTree κ α)} (h : cs.Perm ds) :
    (pathsBelow cs).Perm (pathsBelow ds) := by
  rw [pathsBelow_eq, pathsBelow_eq]
  exact h.flatMap_right _

theorem mem_pathsBelow {cs : List (κ × KeyedTree κ α)} {p : List (κ × α)} :
    p ∈ pathsBelow cs ↔ ∃ k c q, (k, c) ∈ cs ∧ q ∈ c.paths ∧ p = (k, c.label) :: q := by
  simp only [pathsBelow_eq, List.mem_flatMap, List.mem_map, Prod.exists]
  constructor
  · rintro ⟨k, c, hmem, q, hq, rfl⟩
    exact ⟨k, c, q, hmem, hq, rfl⟩
  · rintro ⟨k, c, q, hmem, hq, rfl⟩
    exact ⟨k, c, hmem, q, hq, rfl⟩

theorem nil_mem_paths (t : KeyedTree κ α) : [] ∈ t.paths := by
  rw [paths_eq]
  exact List.mem_cons_self

/-- The nodes below the root. -/
def size (t : KeyedTree κ α) : ℕ := t.paths.length - 1

/-! ### Paths by their keys -/

/-- The paths, without the labels. -/
def keyPaths (t : KeyedTree κ α) : List (List κ) := t.paths.map (·.map Prod.fst)

theorem keyPaths_node (a : α) (cs : List (κ × KeyedTree κ α)) :
    (node a cs).keyPaths = [] :: cs.flatMap fun kc => kc.2.keyPaths.map (kc.1 :: ·) := by
  rw [keyPaths, paths_eq, children_node, pathsBelow_eq, List.map_cons, List.map_flatMap]
  simp only [keyPaths, List.map_map]
  rfl

/-- With distinct keys a path is known by its keys. -/
theorem keyPaths_nodup {t : KeyedTree κ α} (h : DistinctKeys t) : t.keyPaths.Nodup := by
  induction t using KeyedTree.induct with
  | hnode a cs ih =>
      have hkeys := (distinctKeys_node.mp h).1
      rw [keyPaths_node, List.nodup_cons, List.nodup_flatMap]
      refine ⟨by simp, fun kc hmem => ?_, ?_⟩
      · exact (ih kc.1 kc.2 hmem (h.child hmem)).map List.cons_injective
      · refine (List.pairwise_map.mp hkeys).imp fun hne p hp hq => ?_
        obtain ⟨_, _, rfl⟩ := List.mem_map.mp hp
        obtain ⟨_, _, heq⟩ := List.mem_map.mp hq
        exact hne (List.cons.inj heq).1.symm

theorem eq_of_keys {t : KeyedTree κ α} (h : DistinctKeys t) {p q : List (κ × α)}
    (hp : p ∈ t.paths) (hq : q ∈ t.paths) (hkeys : p.map Prod.fst = q.map Prod.fst) : p = q :=
  List.inj_on_of_nodup_map (keyPaths_nodup h) hp hq hkeys

/-! ### Leaves -/

/-- A path below the root from which no other path goes on. -/
structure IsLeaf (t : KeyedTree κ α) (p : List (κ × α)) : Prop where
  mem : p ∈ t.paths
  ne_nil : p ≠ []
  last : ∀ q ∈ t.paths, p <+: q → q = p

instance IsLeaf.decidable [DecidableEq κ] [DecidableEq α] (t : KeyedTree κ α)
    (p : List (κ × α)) : Decidable (t.IsLeaf p) :=
  decidable_of_iff (p ∈ t.paths ∧ p ≠ [] ∧ ∀ q ∈ t.paths, p <+: q → q = p)
    ⟨fun h => ⟨h.1, h.2.1, h.2.2⟩, fun h => ⟨h.mem, h.ne_nil, h.last⟩⟩

theorem children_eq_nil {t : KeyedTree κ α} (h : ∀ q ∈ t.paths, q = []) : t.children = [] := by
  cases hcs : t.children with
  | nil => rfl
  | cons head tail =>
      obtain ⟨k, c⟩ := head
      have hmem : [(k, c.label)] ∈ t.paths := by
        rw [paths_eq, hcs]
        exact List.mem_cons_of_mem _
          (mem_pathsBelow.mpr ⟨k, c, [], List.mem_cons_self, nil_mem_paths c, rfl⟩)
      cases h _ hmem

/-- A leaf is a child without children, or a leaf below a child. -/
theorem isLeaf_node {a : α} {cs : List (κ × KeyedTree κ α)} (h : DistinctKeys (node a cs))
    {p : List (κ × α)} :
    IsLeaf (node a cs) p ↔ ∃ k c q, (k, c) ∈ cs ∧ p = (k, c.label) :: q ∧
      (q = [] ∧ c.children = [] ∨ IsLeaf c q) := by
  have hpath : ∀ k c q, (k, c) ∈ cs → q ∈ c.paths → (k, c.label) :: q ∈ (node a cs).paths := by
    intro k c q hmem hq
    rw [paths_eq]
    exact List.mem_cons_of_mem _ (mem_pathsBelow.mpr ⟨k, c, q, hmem, hq, rfl⟩)
  constructor
  · intro hleaf
    have hmem := hleaf.mem
    rw [paths_eq, List.mem_cons] at hmem
    obtain ⟨k, c, q, hchild, hq, rfl⟩ := mem_pathsBelow.mp (hmem.resolve_left hleaf.ne_nil)
    have hlast : ∀ r ∈ c.paths, q <+: r → r = q := by
      intro r hr hle
      exact (List.cons.inj
        (hleaf.last _ (hpath k c r hchild hr) ((List.prefix_cons_inj _).mpr hle))).2
    refine ⟨k, c, q, hchild, rfl, ?_⟩
    by_cases hnil : q = []
    · subst hnil
      exact Or.inl ⟨rfl, children_eq_nil fun r hr => hlast r hr List.nil_prefix⟩
    · exact Or.inr ⟨hq, hnil, hlast⟩
  · intro hleaf
    obtain ⟨k, c, q, hchild, rfl, hbelow⟩ := hleaf
    have hq : q ∈ c.paths ∧ ∀ r ∈ c.paths, q <+: r → r = q := by
      rcases hbelow with ⟨rfl, hnone⟩ | hbelow
      · refine ⟨nil_mem_paths c, fun r hr _ => ?_⟩
        rw [paths_eq, hnone] at hr
        exact List.mem_singleton.mp hr
      · exact ⟨hbelow.mem, hbelow.last⟩
    refine ⟨hpath k c q hchild hq.1, by simp, fun r hr hle => ?_⟩
    rw [paths_eq, List.mem_cons] at hr
    rcases hr with rfl | hr
    · simp at hle
    · obtain ⟨k', c', s, hchild', hs, rfl⟩ := mem_pathsBelow.mp hr
      obtain ⟨heq, hrest⟩ := List.cons_prefix_cons.mp hle
      obtain ⟨rfl, _⟩ := Prod.mk.inj heq
      obtain rfl := child_unique (distinctKeys_node.mp h).1 hchild hchild'
      rw [hq.2 s hs hrest]

/-! ### Labels below the root -/

/-- Every label below the root meets `P`. -/
def AllBelow (P : α → Prop) (t : KeyedTree κ α) : Prop := ∀ p ∈ t.paths, ∀ e ∈ p, P e.2

section AllBelow

variable {P Q : α → Prop} {a : α} {cs : List (κ × KeyedTree κ α)}

theorem allBelow_node :
    AllBelow P (node a cs) ↔ ∀ k c, (k, c) ∈ cs → P c.label ∧ AllBelow P c := by
  simp only [AllBelow, paths_eq (node a cs), children_node, List.forall_mem_cons]
  constructor
  · intro h k c hmem
    have hpath := fun q hq => h.2 _ (mem_pathsBelow.mpr ⟨k, c, q, hmem, hq, rfl⟩)
    exact ⟨hpath [] (nil_mem_paths c) _ List.mem_cons_self,
      fun q hq e he => hpath q hq e (List.mem_cons_of_mem _ he)⟩
  · intro h
    refine ⟨by simp, fun p hp => ?_⟩
    obtain ⟨k, c, q, hmem, hq, rfl⟩ := mem_pathsBelow.mp hp
    exact List.forall_mem_cons.mpr ⟨(h k c hmem).1, (h k c hmem).2 q hq⟩

theorem allBelow_leaf (a : α) : AllBelow P (leaf a : KeyedTree κ α) := by
  simp [leaf, allBelow_node]

@[simp] theorem allBelow_relabel {f : α → α} {t : KeyedTree κ α} :
    AllBelow P (t.relabel f) ↔ AllBelow P t := by
  rw [AllBelow, AllBelow, paths_relabel]

theorem AllBelow.mono {t : KeyedTree κ α} (h : AllBelow P t) (himp : ∀ a, P a → Q a) :
    AllBelow Q t := fun p hp e he => himp e.2 (h p hp e he)

theorem AllBelow.sub {cs' : List (κ × KeyedTree κ α)} (h : AllBelow P (node a cs))
    (hsub : cs' ⊆ cs) : AllBelow P (node a cs') :=
  allBelow_node.mpr fun k c hmem => allBelow_node.mp h k c (hsub hmem)

theorem AllBelow.swap {before after : List (κ × KeyedTree κ α)} {key : κ}
    {c new : KeyedTree κ α} (h : AllBelow P (node a (before ++ (key, c) :: after)))
    (hlabel : P new.label) (hnew : AllBelow P new) :
    AllBelow P (node a (before ++ (key, new) :: after)) := by
  refine allBelow_node.mpr fun k c' hmem => ?_
  simp only [List.mem_append, List.mem_cons, Prod.mk.injEq] at hmem
  rcases hmem with hmem | ⟨_, rfl⟩ | hmem
  · exact allBelow_node.mp h k c' (by simp [hmem])
  · exact ⟨hlabel, hnew⟩
  · exact allBelow_node.mp h k c' (by simp [hmem])

end AllBelow

/-! ### Inner nodes -/

mutual

/-- The nodes that have children, each before the ones below it. -/
def inner : KeyedTree κ α → List (KeyedTree κ α)
  | node label children =>
    if children.isEmpty then [] else node label children :: innerBelow children

def innerBelow : List (κ × KeyedTree κ α) → List (KeyedTree κ α)
  | [] => []
  | (_, child) :: rest => inner child ++ innerBelow rest

end

theorem inner_of_children {a : α} {cs : List (κ × KeyedTree κ α)} (h : cs ≠ []) :
    (node a cs).inner = node a cs :: innerBelow cs := by
  rw [inner, if_neg]
  rwa [List.isEmpty_iff]

theorem mem_innerBelow {cs : List (κ × KeyedTree κ α)} {s : KeyedTree κ α} :
    s ∈ innerBelow cs ↔ ∃ k c, (k, c) ∈ cs ∧ s ∈ c.inner := by
  induction cs with
  | nil => simp [innerBelow]
  | cons head tail ih =>
      obtain ⟨k, child⟩ := head
      simp only [innerBelow, List.mem_append, ih, List.mem_cons, Prod.mk.injEq]
      constructor
      · rintro (hs | ⟨k', c, hmem, hs⟩)
        · exact ⟨k, child, Or.inl ⟨rfl, rfl⟩, hs⟩
        · exact ⟨k', c, Or.inr hmem, hs⟩
      · rintro ⟨k', c, ⟨rfl, rfl⟩ | hmem, hs⟩
        · exact Or.inl hs
        · exact Or.inr ⟨k', c, hmem, hs⟩

/-- The children of an inner node are below the root. -/
theorem AllBelow.inner {P : α → Prop} {t : KeyedTree κ α} (h : AllBelow P t)
    {s : KeyedTree κ α} (hs : s ∈ t.inner) : ∀ k c, (k, c) ∈ s.children → P c.label := by
  induction t using KeyedTree.induct with
  | hnode a cs ih =>
      by_cases hcs : cs = []
      · subst hcs
        simp [KeyedTree.inner] at hs
      · rw [inner_of_children hcs, List.mem_cons] at hs
        rcases hs with rfl | hs
        · exact fun k c hmem => (allBelow_node.mp h k c hmem).1
        · obtain ⟨k, c, hmem, hs⟩ := mem_innerBelow.mp hs
          exact ih k c hmem (allBelow_node.mp h k c hmem).2 hs

section Update

variable {before after : List (κ × KeyedTree κ α)} {key : κ} {c new : KeyedTree κ α}

/-- Cutting a leaf loses the path to it. -/
theorem pathsBelow_cut (hleaf : c.children = []) :
    (pathsBelow (before ++ (key, c) :: after)).Perm
      ([(key, c.label)] :: pathsBelow (before ++ after)) := by
  rw [pathsBelow_append, pathsBelow_append, pathsBelow, paths_eq, hleaf]
  simp only [pathsBelow, List.map_cons, List.map_nil, List.cons_append, List.nil_append]
  exact List.perm_middle

section Map

variable {β : Type*} {f : κ × α → β}

private theorem map_map_cons (t : KeyedTree κ α) :
    (t.paths.map ((key, t.label) :: ·)).map (·.map f) =
      (t.paths.map (·.map f)).map (f (key, t.label) :: ·) := by
  simp only [List.map_map]
  rfl

/-- Replacing a child keeps what `f` reads of the paths if it does so for the child. -/
theorem pathsBelow_swap_map (hlabel : f (key, new.label) = f (key, c.label))
    (hpaths : new.paths.map (·.map f) = c.paths.map (·.map f)) :
    (pathsBelow (before ++ (key, new) :: after)).map (·.map f) =
      (pathsBelow (before ++ (key, c) :: after)).map (·.map f) := by
  rw [pathsBelow_append, pathsBelow_append, pathsBelow, pathsBelow]
  simp only [List.map_append, map_map_cons, hpaths, hlabel]

/-- A child that gains the path `p` makes the node gain that path through the child's key. -/
theorem pathsBelow_gain_map {p : List β} (hlabel : f (key, new.label) = f (key, c.label))
    (hgain : (new.paths.map (·.map f)).Perm (p :: c.paths.map (·.map f))) :
    ((pathsBelow (before ++ (key, new) :: after)).map (·.map f)).Perm
      ((f (key, c.label) :: p) :: (pathsBelow (before ++ (key, c) :: after)).map (·.map f)) := by
  rw [pathsBelow_append, pathsBelow_append, pathsBelow, pathsBelow]
  simp only [List.map_append, map_map_cons, hlabel]
  refine ((hgain.map _).append_right _ |>.append_left _).trans ?_
  simp only [List.map_cons, List.cons_append]
  exact List.perm_middle

end Map

end Update

/-! ### Labels along keys -/

section Labels

variable [DecidableEq κ]

/-- The label of the node that is reached by some keys. -/
def labelAt : List κ → KeyedTree κ α → Option α
  | [], t => some t.label
  | key :: keys, t => (find? key t.children).bind (labelAt keys)

theorem find?_replace {key : κ} {c : KeyedTree κ α} {cs : List (κ × KeyedTree κ α)}
    (hfind : find? key cs = some c) (new : KeyedTree κ α) (other : κ) :
    find? other (replace key new cs) = if key = other then some new else find? other cs := by
  induction cs with
  | nil => cases hfind
  | cons head tail ih =>
      obtain ⟨k, child⟩ := head
      rw [find?] at hfind
      by_cases hkey : k = key
      · rw [replace, if_pos hkey, find?, find?, hkey]
        split
        · rfl
        · rfl
      · rw [if_neg hkey] at hfind
        rw [replace, if_neg hkey, find?, find?, ih hfind]
        by_cases hother : key = other
        · rw [if_pos hother, if_pos hother, if_neg (hother ▸ hkey)]
        · rw [if_neg hother, if_neg hother]

theorem find?_perm {cs cs' : List (κ × KeyedTree κ α)} (hnodup : (cs.map Prod.fst).Nodup)
    (hperm : cs'.Perm cs) (key : κ) : find? key cs' = find? key cs := by
  cases hfind : find? key cs with
  | none =>
      rw [find?_eq_none] at hfind ⊢
      exact fun hmem => hfind ((hperm.map Prod.fst).mem_iff.mp hmem)
  | some c =>
      exact find?_of_mem ((hperm.map Prod.fst).nodup_iff.mpr hnodup)
        (hperm.mem_iff.mpr (mem_of_find? hfind))

variable {β : Type*} {f : α → β}

/-- Two trees with the same nodes, of whose labels `f` says the same. -/
def Alike (f : α → β) (t t' : KeyedTree κ α) : Prop :=
  ∀ keys, (labelAt keys t).map f = (labelAt keys t').map f

theorem Alike.label {t t' : KeyedTree κ α} (h : Alike f t t') : f t.label = f t'.label :=
  Option.some.inj (h [])

/-- The children are alike under each key. -/
theorem alike_iff {t t' : KeyedTree κ α} :
    Alike f t t' ↔ f t.label = f t'.label ∧
      ∀ key, Option.Rel (Alike f) (find? key t.children) (find? key t'.children) := by
  constructor
  · intro h
    refine ⟨h.label, fun key => ?_⟩
    have hkey : ∀ keys, ((find? key t.children).bind (labelAt keys)).map f =
        ((find? key t'.children).bind (labelAt keys)).map f := fun keys => h (key :: keys)
    cases hfind : find? key t.children with
    | none =>
        cases hfind' : find? key t'.children with
        | none => exact .none
        | some c' =>
            have hnil := hkey []
            rw [hfind, hfind'] at hnil
            cases hnil
    | some c =>
        cases hfind' : find? key t'.children with
        | none =>
            have hnil := hkey []
            rw [hfind, hfind'] at hnil
            cases hnil
        | some c' =>
            refine .some fun keys => ?_
            have hkeys := hkey keys
            rwa [hfind, hfind'] at hkeys
  · rintro ⟨hlabel, hchildren⟩ keys
    cases keys with
    | nil => exact congrArg some hlabel
    | cons key keys =>
        have hchild := hchildren key
        rw [labelAt, labelAt]
        cases hfind : find? key t.children with
        | none =>
            rw [hfind] at hchild
            generalize find? key t'.children = found at hchild ⊢
            cases hchild
            rfl
        | some c =>
            rw [hfind] at hchild
            generalize find? key t'.children = found at hchild ⊢
            cases hchild with
            | some halike => exact halike keys

theorem Alike.vacant {a a' : α} {cs cs' : List (κ × KeyedTree κ α)}
    (h : Alike f (node a cs) (node a' cs')) {key : κ} (hfind : find? key cs = none) :
    find? key cs' = none := by
  have hchild := (alike_iff.mp h).2 key
  rw [children_node, children_node, hfind] at hchild
  generalize find? key cs' = found at hchild ⊢
  cases hchild
  rfl

theorem Alike.child {a a' : α} {cs cs' : List (κ × KeyedTree κ α)}
    (h : Alike f (node a cs) (node a' cs')) {key : κ} {c : KeyedTree κ α}
    (hfind : find? key cs = some c) : ∃ c', find? key cs' = some c' ∧ Alike f c c' := by
  have hchild := (alike_iff.mp h).2 key
  rw [children_node, children_node, hfind] at hchild
  generalize find? key cs' = found at hchild ⊢
  cases hchild with
  | some halike => exact ⟨_, rfl, halike⟩

theorem Alike.relabel {t t' : KeyedTree κ α} (h : Alike f t t') {g g' : α → α}
    (hg : ∀ a, f (g a) = f a) (hg' : ∀ a, f (g' a) = f a) :
    Alike f (t.relabel g) (t'.relabel g') := by
  rw [alike_iff] at h ⊢
  rw [label_relabel, label_relabel, children_relabel, children_relabel, hg, hg']
  exact h

/-- Alike children in the place of alike ones. -/
theorem Alike.swap {a a' : α} {cs cs' : List (κ × KeyedTree κ α)}
    (h : Alike f (node a cs) (node a' cs')) {key : κ} {c : KeyedTree κ α}
    (hfind : find? key cs = some c) {new new' : KeyedTree κ α} (hnew : Alike f new new') :
    Alike f (node a (replace key new cs)) (node a' (replace key new' cs')) := by
  obtain ⟨c', hfind', -⟩ := h.child hfind
  rw [alike_iff] at h ⊢
  refine ⟨h.1, fun other => ?_⟩
  rw [children_node, children_node, find?_replace hfind, find?_replace hfind']
  split
  · exact .some hnew
  · exact h.2 other

/-- Alike children under a new key, however the maps iterate then. -/
theorem Alike.insert {a a' : α} {cs cs' ds ds' : List (κ × KeyedTree κ α)}
    (h : Alike f (node a cs) (node a' cs')) {key : κ} {new new' : KeyedTree κ α}
    (hnew : Alike f new new') (hnodup : (((key, new) :: cs).map Prod.fst).Nodup)
    (hnodup' : (((key, new') :: cs').map Prod.fst).Nodup) (hperm : ds.Perm ((key, new) :: cs))
    (hperm' : ds'.Perm ((key, new') :: cs')) : Alike f (node a ds) (node a' ds') := by
  rw [alike_iff] at h ⊢
  refine ⟨h.1, fun other => ?_⟩
  rw [children_node, children_node, find?_perm hnodup hperm, find?_perm hnodup' hperm', find?,
    find?]
  split
  · exact .some hnew
  · exact h.2 other

end Labels

end KeyedTree
