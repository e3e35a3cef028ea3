import Kyro.Model.Attention
import Kyro.Model.PagedAttention

/-!
# Groups of heads

The three functions that give every head its key/value head copy the heads one after the other, on
the first or on the third dimension. They agree on the index of the head that a head reads, and none
of them has an answer where there is no head to give.
-/

namespace Kyro

variable {R : Type}

/-- As many heads as asked for in a dimension, each of them the head of its group. -/
structure HeadsExpanded (tensor expanded : Tensor R) (axis nKvHeads nHeads : ℕ) : Prop where
  dims : expanded.dims = tensor.dims.set axis nHeads
  heads : ∀ idx h, idx[axis]? = some h → h < nHeads →
    expanded.entry idx = tensor.entry (idx.set axis (h / (nHeads / nKvHeads)))

/-- A tensor with the heads it should have. -/
theorem headsExpanded_refl {tensor : Tensor R} {axis nHeads : ℕ}
    (hdim : tensor.dim axis = some nHeads) :
    HeadsExpanded tensor tensor axis nHeads nHeads where
  dims := (Tensor.set_self hdim).symm
  heads idx h hh hlt := by
    rw [Nat.div_self (Nat.zero_lt_of_lt hlt), Nat.div_one, Tensor.set_self hh]

/-- Copies of heads, put together. -/
theorem headsExpanded_copies {tensor : Tensor R} {slice : ℕ → Tensor R} {axis nKvHeads nHeads : ℕ}
    (hdim : tensor.dim axis = some nKvHeads) (hgroups : nKvHeads ∣ nHeads) (hheads : 0 < nHeads)
    (hdims : ∀ h, (slice h).dims = tensor.dims.set axis 1)
    (hentry : ∀ h (idx : List ℕ), axis < idx.length →
      (slice h).entry (idx.set axis 0) = tensor.entry (idx.set axis h)) :
    ∃ expanded, Tensor.cat axis ((List.range nKvHeads).map fun h =>
        List.replicate (nHeads / nKvHeads) (slice h)).flatten = some expanded ∧
      HeadsExpanded tensor expanded axis nKvHeads nHeads := by
  have hsize : nKvHeads * (nHeads / nKvHeads) = nHeads := Nat.mul_div_cancel' hgroups
  obtain ⟨expanded, hcat, hexpanded, hread⟩ :=
    Tensor.cat_copies (List.getElem?_eq_some_iff.mp hdim).1 hdims hentry (by rwa [hsize])
  rw [hsize] at hexpanded hread
  exact ⟨expanded, hcat, hexpanded, hread⟩

/-- No copies of any head are nothing to put together. -/
theorem cat_no_copies {repeats : ℕ → Option (List (Tensor R))}
    (hnone : ∀ h copies, repeats h = some copies → copies = []) (axis : ℕ) (heads : List ℕ) :
    (heads.mapM repeats).bind (fun made => Tensor.cat axis made.flatten) = none := by
  refine Option.bind_eq_none_iff.mpr fun made hmade => ?_
  have hempty : made.flatten = [] := by
    refine List.flatten_eq_nil_iff.mpr fun copies hcopies => ?_
    obtain ⟨h, hrepeat⟩ := Tensor.exists_of_mapM hmade copies hcopies
    exact hnone h copies hrepeat
  rw [hempty]
  rfl

/-! ### The first dimension -/

namespace PagedAttention

variable {attn : PagedAttention} {tensor : Tensor R} {nKvHeads : ℕ}

theorem expandKvForGqa_expanded (hdim : tensor.dim 0 = some nKvHeads)
    (hgroups : nKvHeads ∣ attn.numHeads) (hheads : 0 < attn.numHeads) :
    ∃ expanded, attn.expandKvForGqa tensor = some expanded ∧
      HeadsExpanded tensor expanded 0 nKvHeads attn.numHeads := by
  by_cases hsame : nKvHeads = attn.numHeads
  · subst hsame
    refine ⟨tensor, ?_, headsExpanded_refl hdim⟩
    rw [expandKvForGqa, hdim]
    exact if_pos rfl
  · obtain ⟨dims, entry⟩ := tensor
    cases dims with
    | nil => cases hdim
    | cons d rest =>
        cases hdim
        let slice (h : ℕ) : Tensor R := ⟨1 :: rest, fun idx => entry (h :: idx.eraseIdx 0)⟩
        have hmade : (List.range nKvHeads).mapM
            (repeatHead ⟨nKvHeads :: rest, entry⟩ (attn.numHeads / nKvHeads)) =
              some ((List.range nKvHeads).map fun h =>
                List.replicate (attn.numHeads / nKvHeads) (slice h)) := by
          refine Tensor.mapM_eq_some fun h hmem => ?_
          rw [repeatHead, Tensor.get_cons (List.mem_range.mp hmem)]
          rfl
        obtain ⟨expanded, hcat, hexpanded⟩ := @headsExpanded_copies _ ⟨nKvHeads :: rest, entry⟩
          slice 0 nKvHeads attn.numHeads rfl hgroups hheads (fun _ => rfl) fun h idx hlong => by
            obtain ⟨i, idx, rfl⟩ := List.exists_cons_of_length_pos hlong
            rfl
        refine ⟨expanded, ?_, hexpanded⟩
        rw [expandKvForGqa]
        simp only [Tensor.dim, List.getElem?_cons_zero, Option.bind_eq_bind, Option.bind_some,
          if_neg hsame, hmade]
        exact hcat

/-- Heads that are there, and none to give. -/
theorem expandKvForGqa_none (hdim : tensor.dim 0 = some nKvHeads) (hpos : 0 < nKvHeads)
    (hnone : attn.numHeads = 0) : attn.expandKvForGqa tensor = none := by
  rw [expandKvForGqa, hdim]
  simp only [Option.bind_eq_bind, Option.bind_some, hnone, if_neg hpos.ne', Nat.zero_div]
  refine cat_no_copies (fun h copies hrepeat => ?_) 0 _
  obtain ⟨hT, _, hrepeat⟩ := Option.bind_eq_some_iff.mp hrepeat
  obtain ⟨head, _, hrepeat⟩ := Option.bind_eq_some_iff.mp hrepeat
  exact (Option.some.inj hrepeat).symm

end PagedAttention

/-! ### The third dimension -/

namespace Loader

variable {tensor : Tensor R} {nKvHeads nHeads : ℕ}

theorem expandKv_expanded (hdim : tensor.dim 2 = some nKvHeads) (hpos : 0 < nKvHeads)
    (hgroups : nKvHeads ∣ nHeads) (hheads : 0 < nHeads) :
    ∃ expanded, expandKv nHeads tensor = some expanded ∧
      HeadsExpanded tensor expanded 2 nKvHeads nHeads := by
  by_cases hsame : nKvHeads = nHeads
  · subst hsame
    refine ⟨tensor, ?_, headsExpanded_refl hdim⟩
    rw [expandKv, hdim]
    exact if_pos rfl
  · let slice (h : ℕ) : Tensor R := tensor.part 2 1 h
    have hmade : (List.range nKvHeads).mapM (repeatHead tensor (nHeads / nKvHeads)) =
        some ((List.range nKvHeads).map fun h =>
          List.replicate (nHeads / nKvHeads) (slice h)) := by
      refine Tensor.mapM_eq_some fun h hmem => ?_
      rw [repeatHead, Tensor.narrow_of_le hdim (List.mem_range.mp hmem)]
      rfl
    have hslice : ∀ h (idx : List ℕ), 2 < idx.length →
        (slice h).entry (idx.set 2 0) = tensor.entry (idx.set 2 h) := by
      intro h idx _
      refine congrArg tensor.entry ?_
      rw [List.set_eq_modify, List.modify_modify_eq, List.set_eq_modify]
      rfl
    obtain ⟨expanded, hcat, hexpanded⟩ :=
      headsExpanded_copies hdim hgroups hheads (fun _ => rfl) hslice
    refine ⟨expanded, ?_, hexpanded⟩
    rw [expandKv, hdim]
    simp only [Option.bind_eq_bind, Option.bind_some, if_neg hsame, if_neg hpos.ne', hmade]
    exact hcat

theorem expandKv_none (hdim : tensor.dim 2 = some nKvHeads) (hpos : 0 < nKvHeads) :
    expandKv 0 tensor = none := by
  rw [expandKv, hdim]
  simp only [Option.bind_eq_bind, Option.bind_some, if_neg hpos.ne', Nat.zero_div]
  refine cat_no_copies (fun h copies hrepeat => ?_) 2 _
  obtain ⟨hT, _, rfl⟩ := Option.map_eq_some_iff.mp hrepeat
  rfl

end Loader

/-! ### Agreement -/

/-- What an expansion answers: an error where there is no head to give, and else the heads. -/
def HeadsAnswered (tensor : Tensor R) (axis nKvHeads nHeads : ℕ) : Option (Tensor R) → Prop
  | none => nHeads = 0
  | some expanded => 0 < nHeads ∧ HeadsExpanded tensor expanded axis nKvHeads nHeads

theorem headsAnswered_of {tensor : Tensor R} {axis nKvHeads nHeads : ℕ}
    {answer : Option (Tensor R)} (hnone : nHeads = 0 → answer = none)
    (hsome : 0 < nHeads → ∃ expanded, answer = some expanded ∧
      HeadsExpanded tensor expanded axis nKvHeads nHeads) :
    HeadsAnswered tensor axis nKvHeads nHeads answer := by
  rcases Nat.eq_zero_or_pos nHeads with hzero | hheads
  · rw [hnone hzero]
    exact hzero
  · obtain ⟨expanded, hexpanded, hspec⟩ := hsome hheads
    rw [hexpanded]
    exact ⟨hheads, hspec⟩

/-- **The expansions agree.** For any number of heads that the key/value heads divide, and tensors
of any other dimensions, each of the three gives that many heads, the head `h` being the key/value
head `h / (nHeads / nKvHeads)`; with no heads to give, each of them fails. -/
theorem expansions_agree [CommRing R] {nKvHeads nHeads : ℕ} (hpos : 1 ≤ nKvHeads)
    (hgroups : nKvHeads ∣ nHeads) {paged : PagedAttention} (hpaged : paged.numHeads = nHeads)
    {llama : Loader.Attention (Tensor R)} (hllama : llama.nHeads = nHeads)
    {block full : Tensor R} (hblock : block.dim 0 = some nKvHeads)
    (hfull : full.dim 2 = some nKvHeads) :
    HeadsAnswered block 0 nKvHeads nHeads (paged.expandKvForGqa block) ∧
      HeadsAnswered full 2 nKvHeads nHeads (Loader.LlamaAttention.expandKv llama full) ∧
      HeadsAnswered full 2 nKvHeads nHeads (Loader.Qwen2.expandKv full nHeads) := by
  subst hpaged
  have hthird : HeadsAnswered full 2 nKvHeads paged.numHeads
      (Loader.expandKv paged.numHeads full) := by
    refine headsAnswered_of (fun hnone => ?_) (Loader.expandKv_expanded hfull hpos hgroups)
    rw [hnone]
    exact Loader.expandKv_none hfull hpos
  refine ⟨headsAnswered_of (PagedAttention.expandKvForGqa_none hblock hpos)
    (PagedAttention.expandKvForGqa_expanded hblock hgroups), ?_, hthird⟩
  rw [Loader.LlamaAttention.expandKv, hllama]
  exact hthird

/-- Two key/value heads of four places, with so many heads. -/
def sharedHeads (nHeads : ℕ) : Loader.Attention (Tensor ℤ) where
  qProj := ⟨8, nHeads * 4, Tensor.zeros [nHeads * 4, 8], Tensor.zeros [nHeads * 4]⟩
  kProj := ⟨8, 8, Tensor.zeros [8, 8], Tensor.zeros [8]⟩
  vProj := ⟨8, 8, Tensor.zeros [8, 8], Tensor.zeros [8]⟩
  oProj := ⟨nHeads * 4, 8, Tensor.zeros [8, nHeads * 4], Tensor.zeros [8]⟩
  nHeads := nHeads
  nKvHeads := 2
  headDim := 4

/-- Six heads for two key/value heads. -/
theorem expansions_agree_six :
    HeadsAnswered (Tensor.zeros [2, 16, 4] : Tensor ℤ) 0 2 6
        (PagedAttention.expandKvForGqa ⟨16, 6, 4, 2⟩ (Tensor.zeros [2, 16, 4])) ∧
      HeadsAnswered (Tensor.zeros [1, 5, 2, 4] : Tensor ℤ) 2 2 6
        (Loader.LlamaAttention.expandKv (sharedHeads 6) (Tensor.zeros [1, 5, 2, 4])) ∧
      HeadsAnswered (Tensor.zeros [1, 5, 2, 4] : Tensor ℤ) 2 2 6
        (Loader.Qwen2.expandKv (Tensor.zeros [1, 5, 2, 4]) 6) := by
  have hpos : 1 ≤ 2 := by decide
  have hgroups : 2 ∣ 6 := by decide
  exact expansions_agree hpos hgroups rfl rfl rfl rfl

/-- No heads for two key/value heads: there is nothing to put together. -/
theorem expansions_fail_zero :
    PagedAttention.expandKvForGqa ⟨16, 0, 4, 2⟩ (Tensor.zeros [2, 16, 4] : Tensor ℤ) = none ∧
      Loader.LlamaAttention.expandKv (sharedHeads 0) (Tensor.zeros [1, 5, 2, 4]) = none ∧
      Loader.Qwen2.expandKv (Tensor.zeros [1, 5, 2, 4] : Tensor ℤ) 0 = none :=
  ⟨rfl, rfl, rfl⟩

end Kyro
