import Kyro.Proof.Model.Answers
import Mathlib.Tactic.LinearCombination

/-!
# What a model computes for one token

The scores are between the heads of one token, and a rotation by the angles of one position does not
change them. So no row of an output depends on another row of the input, on the position or on what
is cached: a model maps each token to its logits by itself.
-/

namespace Kyro
namespace Loader

variable {R : Type} [CommRing R]

/-! ### Rows -/

/-- A row under a linear layer. -/
def Linear.row (layer : Linear (Tensor R)) (x : ℕ → R) (c : ℕ) : R :=
  ∑ y ∈ Finset.range (layer.weight.dims.getD 1 0), x y * layer.weight.entry [c, y] +
    layer.bias.entry [c]

def RmsNorm.row (kernels : Kernels R) (weight : Tensor R) (x : ℕ → R) (c : ℕ) : R :=
  (kernels.rms ((List.range (weight.dims.getD 0 0)).map x)).getD c 0 * weight.entry [c]

def Mlp.row (kernels : Kernels R) (mlp : Mlp (Tensor R)) (x : ℕ → R) : ℕ → R :=
  mlp.downProj.row fun y => kernels.silu (mlp.gateProj.row x y) * mlp.upProj.row x y

namespace Attention

variable (num : Numerics R) (attn : Attention (Tensor R))

/-- An entry of a head. -/
def head (proj : Linear (Tensor R)) (x : ℕ → R) (h e : ℕ) : R := proj.row x (h * attn.headDim + e)

/-- The key/value head of a head. -/
def group (h : ℕ) : ℕ := h / (attn.nHeads / attn.nKvHeads)

/-- The scores of a head with all heads of its token. -/
def scores (x : ℕ → R) (h : ℕ) : List R :=
  (List.range attn.nHeads).map fun other =>
    (∑ e ∈ Finset.range attn.headDim,
      attn.head attn.qProj x h e * attn.head attn.kProj x (attn.group other) e) *
        num.scale attn.headDim

def row (x : ℕ → R) : ℕ → R :=
  attn.oProj.row fun n => ∑ other ∈ Finset.range attn.nHeads,
    (num.softmax (attn.scores num x (n / attn.headDim))).getD other 0 *
      attn.head attn.vProj x (attn.group other) (n % attn.headDim)

end Attention

def DecoderLayer.row (kernels : Kernels R) (layer : DecoderLayer (Tensor R)) (x : ℕ → R) :
    ℕ → R :=
  let attended c :=
    layer.selfAttn.row kernels.toNumerics (RmsNorm.row kernels layer.inputLayernorm x) c + x c
  fun c =>
    layer.mlp.row kernels (RmsNorm.row kernels layer.postAttentionLayernorm attended) c + attended c

/-- A row after a step that only some stage has. -/
def stageRow {τ : Type} (f : τ → (ℕ → R) → ℕ → R) (part : Option τ) (x : ℕ → R) : ℕ → R :=
  match part with
  | some part => f part x
  | none => x

/-- The logits of a token. -/
def Model.logits (kernels : Kernels R) (model : Model (Tensor R)) (token : Token) : ℕ → R :=
  let embedded c := (model.embedTokens.map fun table => table.entry [token.toNat, c]).getD 0
  let x := model.layers.foldl (fun x layer => layer.row kernels x) embedded
  stageRow Linear.row model.lmHead (stageRow (RmsNorm.row kernels) model.norm x)

/-! ### Rotation -/

namespace RotaryEmbedding

variable (num : Numerics R) {rope : RotaryEmbedding R}

/-- The angle of a place in a head, at a position. -/
def angle (rope : RotaryEmbedding R) (position e : ℕ) : R :=
  (position : R) * rope.invFreq.entry [e]

theorem entry_freqs {seqLen index : ℕ} {freqs : Tensor R}
    (h : rope.freqs seqLen index = some freqs) {j : ℕ} (hj : j < seqLen) (e : ℕ) :
    freqs.entry [j, e] = rope.angle (index + j) e := by
  obtain ⟨positions, hpositions, h⟩ := Option.bind_eq_some_iff.mp h
  obtain ⟨column, hcolumn, h⟩ := Option.bind_eq_some_iff.mp h
  obtain ⟨row, hrow, h⟩ := Option.bind_eq_some_iff.mp h
  rw [Tensor.fromSlice_eq_some (by simp)] at hpositions
  cases hpositions
  cases hcolumn
  rw [Tensor.unsqueeze, if_pos (Nat.zero_le _)] at hrow
  cases hrow
  refine (Tensor.entry_matmul [] h rfl (List.length_nil) j e).trans ?_
  rw [Finset.sum_range_one]
  simp [Tensor.offset, angle, hj]

omit [CommRing R] in
/-- Both halves of a head have the same table. -/
theorem entry_table {f : R → R} {freqs table : Tensor R} {half seqLen : ℕ}
    (hfreqs : freqs.dims = [seqLen, half])
    (h : RotaryEmbedding.table f freqs seqLen (half + half) = some table) {j e : ℕ}
    (hj : j < seqLen) (he : e < half + half) :
    table.entry [0, j, 0, e] = f (freqs.entry [j, if e < half then e else e - half]) := by
  have hhalf : (half + half) / 2 = half := by omega
  obtain ⟨first, hfirst, h⟩ := Option.bind_eq_some_iff.mp h
  obtain ⟨whole, hwhole, h⟩ := Option.bind_eq_some_iff.mp h
  rw [hhalf] at hfirst
  have hfirstDims : first.dims = [seqLen, half] := by
    rw [Tensor.reshape] at hfirst
    split at hfirst
    · cases hfirst
      rfl
    · cases hfirst
  have hfirstEntry (d : ℕ) (hd : d < half) : first.entry [j, d] = f (freqs.entry [j, d]) := by
    have hin : List.Forall₂ (· < ·) [j, d] (freqs.map f).dims := by
      rw [Tensor.map, hfreqs]
      exact .cons hj (.cons hd .nil)
    rw [Tensor.entry_reshape hfirst hin (by rw [Tensor.map, hfreqs])]
    rfl
  have hwholeDims : whole.dims = [seqLen, half + half] := by
    have hshape := Tensor.shape?_append (a := first) (b := first) (i := 1) (m := half) (n := half)
      (by rw [hfirstDims]; rfl) (by rw [hfirstDims]; rfl) rfl
    have happend : first.append first 1 = some whole := hwhole
    rw [happend, Tensor.shape?_some, hfirstDims] at hshape
    exact Option.some.inj hshape
  have hin : List.Forall₂ (· < ·) [j, e] whole.dims := by
    rw [hwholeDims]
    exact .cons hj (.cons he .nil)
  rw [Tensor.entry_reshape h hin (by simp [Tensor.offset, hwholeDims])]
  have happend : first.append first 1 = some whole := hwhole
  rw [Tensor.entry_append happend (m := half) (by rw [hfirstDims]; rfl)]
  show (if e < half then first.entry [j, e] else first.entry [j, e - half]) = _
  split
  · exact hfirstEntry e ‹_›
  · exact hfirstEntry (e - half) (by omega)

theorem entry_rotated {x turned : Tensor R} {bSz seqLen heads half : ℕ}
    (hx : x.dims = [bSz, seqLen, heads, half + half]) (h : rotated x half = some turned)
    (i j h' e : ℕ) :
    turned.entry [i, j, h', e] =
      if e < half then - x.entry [i, j, h', half + e] else x.entry [i, j, h', e - half] := by
  obtain ⟨x1, hx1, h⟩ := Option.bind_eq_some_iff.mp h
  obtain ⟨x2, hx2, h⟩ := Option.bind_eq_some_iff.mp h
  have happend : (x2.map (- ·)).append x1 3 = some turned := h
  have hx2dims : (x2.map (- ·)).dims[3]? = some half := by
    rw [Tensor.narrow_of_le (d := half + half) (by rw [hx]; rfl) le_rfl] at hx2
    cases hx2
    rw [Tensor.map, hx]
    rfl
  rw [Tensor.entry_append happend hx2dims]
  show (if e < half then - x2.entry [i, j, h', e] else x1.entry [i, j, h', e - half]) = _
  rw [Tensor.entry_narrow hx2, Tensor.entry_narrow hx1]
  congr 2
  show [i, j, h', 0 + (e - half)] = _
  rw [Nat.zero_add]

/-- A rotated head: its halves are turned by the angles of the position. -/
theorem entry_apply {num : Numerics R} {x turned : Tensor R} {bSz seqLen heads half index : ℕ}
    (hrope : rope.invFreq.dims = [half]) (hx : x.dims = [bSz, seqLen, heads, half + half])
    (happly : rope.apply num x index = some turned) {i j h : ℕ} (hi : i < bSz) (hj : j < seqLen)
    (hh : h < heads) {e : ℕ} (he : e < half) :
    turned.entry [i, j, h, e] =
        x.entry [i, j, h, e] * num.cos (rope.angle (index + j) e) -
          x.entry [i, j, h, half + e] * num.sin (rope.angle (index + j) e) ∧
      turned.entry [i, j, h, half + e] =
        x.entry [i, j, h, half + e] * num.cos (rope.angle (index + j) e) +
          x.entry [i, j, h, e] * num.sin (rope.angle (index + j) e) := by
  have hhalf : (half + half) / 2 = half := by omega
  have hseq : 0 < seqLen := Nat.zero_lt_of_lt hj
  rw [apply, hx] at happly
  obtain ⟨freqs, hfreqs, happly⟩ := Option.bind_eq_some_iff.mp happly
  obtain ⟨cos, hcos, happly⟩ := Option.bind_eq_some_iff.mp happly
  obtain ⟨sin, hsin, happly⟩ := Option.bind_eq_some_iff.mp happly
  obtain ⟨turn, hturn, happly⟩ := Option.bind_eq_some_iff.mp happly
  obtain ⟨straight, hstraight, happly⟩ := Option.bind_eq_some_iff.mp happly
  obtain ⟨crossed, hcrossed, happly⟩ := Option.bind_eq_some_iff.mp happly
  rw [hhalf] at hturn
  have hfreqsDims : freqs.dims = [seqLen, half] := by
    have hshape := shape?_freqs hrope seqLen index
    rw [hfreqs] at hshape
    exact Option.some.inj hshape
  have htableDims {f : R → R} {table : Tensor R}
      (htable : RotaryEmbedding.table f freqs seqLen (half + half) = some table) :
      table.dims = [1, seqLen, 1, half + half] := by
    have hshape : Tensor.shape? (RotaryEmbedding.table f freqs seqLen (half + half)) = _ :=
      shape?_table hseq (by rwa [hhalf])
    rw [htable, if_pos ⟨half, rfl⟩] at hshape
    exact Option.some.inj hshape
  have hturnDims : turn.dims = [bSz, seqLen, heads, half + half] := by
    have hshape := shape?_rotated hx
    rw [hturn] at hshape
    exact Option.some.inj hshape
  -- an index of the output is the same index of both factors, up to the places of size one
  have hentry (d : ℕ) (hd : d < half + half) : turned.entry [i, j, h, d] =
      x.entry [i, j, h, d] * num.cos (rope.angle (index + j) (if d < half then d else d - half)) +
        (if d < half then - x.entry [i, j, h, half + d] else x.entry [i, j, h, d - half]) *
          num.sin (rope.angle (index + j) (if d < half then d else d - half)) := by
    have hin : List.Forall₂ (· < ·) [i, j, h, d] [bSz, seqLen, heads, half + half] :=
      .cons hi (.cons hj (.cons hh (.cons hd .nil)))
    have hpinned : Tensor.pinned [1, seqLen, 1, half + half] [i, j, h, d] = [0, j, 0, d] := by
      have hrow : (if seqLen = 1 then 0 else j) = j := by split <;> omega
      have hplace : (if half + half = 1 then 0 else d) = d := by split <;> omega
      simp [Tensor.pinned, hrow, hplace]
    rw [Tensor.entry_add happly, Tensor.entry_broadcastMul hstraight,
      Tensor.entry_broadcastMul hcrossed, hx, hturnDims, htableDims hcos, htableDims hsin,
      Tensor.pinned_of_lt hin, hpinned, entry_table hfreqsDims hcos hj hd,
      entry_table hfreqsDims hsin hj hd, entry_freqs hfreqs hj, entry_rotated hx hturn]
  constructor
  · rw [hentry e (by omega), if_pos he, if_pos he]
    ring
  · rw [hentry (half + e) (by omega), if_neg (by omega), if_neg (by omega),
      Nat.add_sub_cancel_left]

/-- **A rotation keeps the products of the heads of one token.** -/
theorem dot_apply {num : Numerics R}
    (hcircle : ∀ x, num.cos x * num.cos x + num.sin x * num.sin x = 1)
    {q q' k k' : Tensor R} {bSz seqLen heads kvHeads half index : ℕ}
    (hrope : rope.invFreq.dims = [half]) (hq : q.dims = [bSz, seqLen, heads, half + half])
    (hk : k.dims = [bSz, seqLen, kvHeads, half + half])
    (hq' : rope.apply num q index = some q') (hk' : rope.apply num k index = some k')
    {i j h g : ℕ} (hi : i < bSz) (hj : j < seqLen) (hh : h < heads) (hg : g < kvHeads) :
    ∑ e ∈ Finset.range (half + half), q'.entry [i, j, h, e] * k'.entry [i, j, g, e] =
      ∑ e ∈ Finset.range (half + half), q.entry [i, j, h, e] * k.entry [i, j, g, e] := by
  rw [Finset.sum_range_add, Finset.sum_range_add, ← Finset.sum_add_distrib,
    ← Finset.sum_add_distrib]
  refine Finset.sum_congr rfl fun e he => ?_
  have he := Finset.mem_range.mp he
  obtain ⟨hqFirst, hqSecond⟩ := entry_apply hrope hq hq' hi hj hh he
  obtain ⟨hkFirst, hkSecond⟩ := entry_apply hrope hk hk' hi hj hg he
  rw [hqFirst, hqSecond, hkFirst, hkSecond]
  linear_combination (q.entry [i, j, h, e] * k.entry [i, j, g, e] +
    q.entry [i, j, h, half + e] * k.entry [i, j, g, half + e]) *
      hcircle (rope.angle (index + j) e)

end RotaryEmbedding

/-! ### Tensors by their rows -/

structure HasRows (t : Tensor R) (bSz seqLen width : ℕ) (row : ℕ → ℕ → ℕ → R) : Prop where
  dims : t.dims = [bSz, seqLen, width]
  entry : ∀ i < bSz, ∀ j < seqLen, ∀ c < width, t.entry [i, j, c] = row i j c

section Rows

variable {t u : Tensor R} {bSz seqLen width : ℕ} {row : ℕ → ℕ → ℕ → R}

theorem HasRows.linear (h : HasRows t bSz seqLen width row) {layer : Linear (Tensor R)} {n : ℕ}
    (hweight : layer.weight.dims = [n, width]) (hbias : layer.bias.dims = [n])
    (hforward : layer.forward t = some u) :
    HasRows u bSz seqLen n fun i j => layer.row (row i j) where
  dims := by
    have hshape := Tensor.shape?_linear [bSz, seqLen] h.dims hweight hbias
    rw [Linear.forward] at hforward
    rw [hforward] at hshape
    exact Option.some.inj hshape
  entry i hi j hj c _ := by
    refine (Tensor.entry_linear hforward hweight [i, j] c).trans ?_
    rw [Linear.row, hweight]
    congr 1
    refine Finset.sum_congr rfl fun y hy => ?_
    congr 1
    exact h.entry i hi j hj y (Finset.mem_range.mp hy)

theorem HasRows.rmsNorm (h : HasRows t bSz seqLen width row) {kernels : Kernels R}
    {weight : Tensor R} (hweight : weight.dims = [width])
    (hforward : RmsNorm.forward kernels weight t = some u) :
    HasRows u bSz seqLen width fun i j => RmsNorm.row kernels weight (row i j) := by
  rw [RmsNorm.forward, hweight] at hforward
  dsimp only at hforward
  split at hforward
  · cases hforward
    refine ⟨h.dims, fun i hi j hj c _ => ?_⟩
    rw [RmsNorm.row, hweight]
    dsimp only [Tensor.mapRows]
    rw [h.dims]
    congr 3
    refine List.map_congr_left fun y hy => ?_
    exact h.entry i hi j hj y (List.mem_range.mp hy)
  · cases hforward

theorem HasRows.add (h : HasRows t bSz seqLen width row) {v : Tensor R} {row' : ℕ → ℕ → ℕ → R}
    (h' : HasRows u bSz seqLen width row') (hadd : t.add u = some v) :
    HasRows v bSz seqLen width fun i j c => row i j c + row' i j c where
  dims := by
    have hshape := Tensor.shape?_add (a := t) (b := u) (h.dims.trans h'.dims.symm)
    rw [hadd] at hshape
    exact (Option.some.inj hshape).trans h.dims
  entry i hi j hj c hc := by
    rw [Tensor.entry_add hadd, h.entry i hi j hj c hc, h'.entry i hi j hj c hc]

theorem HasRows.mlp (h : HasRows t bSz seqLen width row) {kernels : Kernels R}
    {mlp : Mlp (Tensor R)} {columns : ℕ} (hshaped : mlp.Shaped width columns)
    (hforward : mlp.forward kernels t = some u) :
    HasRows u bSz seqLen width fun i j => mlp.row kernels (row i j) := by
  obtain ⟨gate, hgate, hforward⟩ := Option.bind_eq_some_iff.mp hforward
  obtain ⟨up, hup, hforward⟩ := Option.bind_eq_some_iff.mp hforward
  obtain ⟨x, hx, hforward⟩ := Option.bind_eq_some_iff.mp hforward
  have hgateRows := h.linear hshaped.gateWeight hshaped.gateBias hgate
  have hupRows := h.linear hshaped.upWeight hshaped.upBias hup
  have hxRows : HasRows x bSz seqLen columns fun i j y =>
      kernels.silu (mlp.gateProj.row (row i j) y) * mlp.upProj.row (row i j) y := by
    constructor
    · have hshape := Tensor.shape?_mul (a := gate.map kernels.silu) (b := up)
        (hgateRows.dims.trans hupRows.dims.symm)
      rw [hx] at hshape
      exact (Option.some.inj hshape).trans hgateRows.dims
    · intro i hi j hj y hy
      rw [Tensor.entry_mul hx, hupRows.entry i hi j hj y hy, ← hgateRows.entry i hi j hj y hy]
      rfl
  exact hxRows.linear hshaped.downWeight hshaped.downBias hforward

end Rows

/-! ### Attention -/

namespace Attention

variable {num : Numerics R} {rope : RotaryEmbedding R} {attn : Attention (Tensor R)} {hidden : ℕ}
  {bSz seqLen : ℕ}

theorem project_row {proj : Linear (Tensor R)} {heads : ℕ} {x out : Tensor R}
    {row : ℕ → ℕ → ℕ → R} (hx : HasRows x bSz seqLen hidden row)
    (hweight : proj.weight.dims = [heads * attn.headDim, hidden])
    (hbias : proj.bias.dims = [heads * attn.headDim])
    (hproject : attn.project proj heads x bSz seqLen = some out) :
    out.dims = [bSz, seqLen, heads, attn.headDim] ∧
      ∀ i < bSz, ∀ j < seqLen, ∀ h < heads, ∀ e < attn.headDim,
        out.entry [i, j, h, e] = attn.head proj (row i j) h e := by
  constructor
  · have hshape : Tensor.shape? (attn.project proj heads x bSz seqLen) = _ :=
      shape?_project hx.dims hweight hbias
    rw [hproject] at hshape
    exact Option.some.inj hshape
  · intro i hi j hj h hh e he
    obtain ⟨flat, hflat, hreshape⟩ := Option.bind_eq_some_iff.mp hproject
    have hrows := hx.linear hweight hbias hflat
    have hplace : h * attn.headDim + e < heads * attn.headDim :=
      calc h * attn.headDim + e < (h + 1) * attn.headDim := by
            rw [Nat.add_mul, Nat.one_mul]
            omega
        _ ≤ heads * attn.headDim := Nat.mul_le_mul_right _ hh
    have hin : List.Forall₂ (· < ·) [i, j, h * attn.headDim + e] flat.dims := by
      rw [hrows.dims]
      exact .cons hi (.cons hj (.cons hplace .nil))
    rw [Tensor.entry_reshape hreshape hin (by simp [Tensor.offset, hrows.dims]),
      hrows.entry i hi j hj _ hplace, head]

omit [CommRing R] in
/-- Every head has the key/value head of its group. -/
theorem expandKv_group (hshaped : Shaped rope attn hidden) (hheads : 0 < attn.nHeads)
    {tensor full : Tensor R} (htensor : tensor.dims = [bSz, seqLen, attn.nKvHeads, attn.headDim])
    (hfull : expandKv attn.nHeads tensor = some full) :
    full.dims = [bSz, seqLen, attn.nHeads, attn.headDim] ∧
      ∀ i j, ∀ other < attn.nHeads, ∀ e,
        full.entry [i, j, other, e] = tensor.entry [i, j, attn.group other, e] := by
  have hkv : 0 < attn.nKvHeads := Nat.pos_of_dvd_of_pos hshaped.groups hheads
  have hdim : tensor.dim 2 = some attn.nKvHeads := by
    rw [Tensor.dim, htensor]
    rfl
  obtain ⟨expanded, hexpand, hspec⟩ := expandKv_expanded hdim hkv hshaped.groups hheads
  obtain rfl := Option.some.inj (hexpand.symm.trans hfull)
  constructor
  · rw [hspec.dims, htensor]
    rfl
  · intro i j other hother e
    exact hspec.heads [i, j, other, e] other rfl hother

/-- The weights of the heads of a token, from its queries and keys. -/
theorem weights_row (hseq : seqLen = attn.nHeads) {q fullK kT att recentAtt : Tensor R}
    (hq : q.dims = [bSz, seqLen, attn.nHeads, attn.headDim])
    (hfullK : fullK.dims = [bSz, seqLen, attn.nHeads, attn.headDim])
    (hkT : fullK.transpose 2 3 = some kT) (hatt : q.matmul kT = some att)
    (hrecentAtt : (att.smul (num.scale attn.headDim)).narrow 3 0 seqLen = some recentAtt) :
    (recentAtt.mapRows num.softmax).dims = [bSz, seqLen, attn.nHeads, seqLen] ∧
      ∀ i j h other, (recentAtt.mapRows num.softmax).entry [i, j, h, other] =
        (num.softmax ((List.range attn.nHeads).map fun other =>
          (∑ e ∈ Finset.range attn.headDim, q.entry [i, j, h, e] *
            fullK.entry [i, j, other, e]) * num.scale attn.headDim)).getD other 0 := by
  have hattDims : att.dims = [bSz, seqLen, attn.nHeads, attn.nHeads] := by
    have hkTDims : kT.dims = [bSz, seqLen] ++ [attn.headDim, attn.nHeads] := by
      have hshape := Tensor.shape?_transpose (t := fullK) (i := 2) (j := 3)
        (by simp [hfullK]) (by simp [hfullK])
      rw [hkT, hfullK] at hshape
      exact Option.some.inj hshape
    have hshape := Tensor.shape?_matmul [bSz, seqLen] [bSz, seqLen] hq hkTDims rfl
    rw [hatt, if_pos ⟨rfl, rfl⟩] at hshape
    exact Option.some.inj hshape
  have hscore (i j h other : ℕ) : att.entry [i, j, h, other] =
      ∑ e ∈ Finset.range attn.headDim, q.entry [i, j, h, e] * fullK.entry [i, j, other, e] := by
    refine (Tensor.entry_matmul [bSz, seqLen] hatt hq (rfl : [i, j].length = 2) h other).trans ?_
    refine Finset.sum_congr rfl fun e _ => ?_
    rw [Tensor.entry_transpose hkT]
    rfl
  have hdims : recentAtt.dims = [bSz, seqLen, attn.nHeads, seqLen] := by
    have hlast : (att.smul (num.scale attn.headDim)).dims[3]? = some attn.nHeads := by
      rw [Tensor.smul, hattDims]
      rfl
    have hshape : Tensor.shape? ((att.smul (num.scale attn.headDim)).narrow 3 0 seqLen) = _ :=
      Tensor.shape?_narrow hlast
    rw [hrecentAtt, if_pos (by omega), Tensor.smul, hattDims] at hshape
    exact Option.some.inj hshape
  refine ⟨hdims, fun i j h other => ?_⟩
  dsimp only [Tensor.mapRows]
  rw [hdims]
  show (num.softmax ((List.range seqLen).map fun y => recentAtt.entry [i, j, h, y])).getD other 0
    = _
  rw [hseq]
  congr 2
  refine List.map_congr_left fun y _ => ?_
  rw [Tensor.entry_narrow hrecentAtt]
  show att.entry [i, j, h, 0 + y] * _ = _
  rw [Nat.zero_add, hscore]

/-- The values of the heads of a token, by their weights. -/
theorem mixed_row (hseq : seqLen = attn.nHeads) {weights fullV recent mixed : Tensor R}
    (hweights : weights.dims = [bSz, seqLen, attn.nHeads, seqLen])
    (hfullV : fullV.dims = [bSz, seqLen, attn.nHeads, attn.headDim])
    (hrecent : fullV.narrow 1 0 seqLen = some recent) (hmixed : weights.matmul recent = some mixed) :
    mixed.dims = [bSz, seqLen, attn.nHeads, attn.headDim] ∧
      ∀ i j h e, mixed.entry [i, j, h, e] = ∑ other ∈ Finset.range attn.nHeads,
        weights.entry [i, j, h, other] * fullV.entry [i, j, other, e] := by
  have hrecentDims : recent.dims = [bSz, seqLen] ++ [attn.nHeads, attn.headDim] := by
    have hshape : Tensor.shape? (fullV.narrow 1 0 seqLen) = _ :=
      Tensor.shape?_narrow (by rw [hfullV]; rfl)
    rw [hrecent, if_pos (by omega), hfullV] at hshape
    exact Option.some.inj hshape
  constructor
  · have hshape := Tensor.shape?_matmul [bSz, seqLen] [bSz, seqLen] hweights hrecentDims rfl
    rw [hmixed, if_pos ⟨rfl, hseq⟩] at hshape
    exact Option.some.inj hshape
  · intro i j h e
    refine (Tensor.entry_matmul [bSz, seqLen] hmixed hweights (rfl : [i, j].length = 2) h e).trans ?_
    rw [hseq]
    refine Finset.sum_congr rfl fun other _ => ?_
    rw [Tensor.entry_narrow hrecent]
    show _ * fullV.entry [i, 0 + j, other, e] = _
    rw [Nat.zero_add]
    rfl

/-- What attention does with queries, keys and values of one shape. -/
theorem attend_row (hshaped : Shaped rope attn hidden) {q k v out : Tensor R}
    (hseq : seqLen = attn.nHeads) (hpos : 0 < seqLen)
    (hq : q.dims = [bSz, seqLen, attn.nHeads, attn.headDim])
    (hk : k.dims = [bSz, seqLen, attn.nKvHeads, attn.headDim])
    (hv : v.dims = [bSz, seqLen, attn.nKvHeads, attn.headDim])
    (hattend : attn.attend num q k v bSz seqLen = some out) {i j c : ℕ} (hi : i < bSz)
    (hj : j < seqLen) :
    out.entry [i, j, c] = attn.oProj.row (fun n => ∑ other ∈ Finset.range attn.nHeads,
      (num.softmax ((List.range attn.nHeads).map fun other =>
        (∑ e ∈ Finset.range attn.headDim, q.entry [i, j, n / attn.headDim, e] *
          k.entry [i, j, attn.group other, e]) * num.scale attn.headDim)).getD other 0 *
        v.entry [i, j, attn.group other, n % attn.headDim]) c := by
  obtain ⟨fullK, hfullK, hattend⟩ := Option.bind_eq_some_iff.mp hattend
  obtain ⟨fullV, hfullV, hattend⟩ := Option.bind_eq_some_iff.mp hattend
  obtain ⟨kT, hkT, hattend⟩ := Option.bind_eq_some_iff.mp hattend
  obtain ⟨att, hatt, hattend⟩ := Option.bind_eq_some_iff.mp hattend
  obtain ⟨keys, hkeys, hattend⟩ := Option.bind_eq_some_iff.mp hattend
  obtain ⟨start, hstart, hattend⟩ := Option.bind_eq_some_iff.mp hattend
  obtain ⟨recentAtt, hrecentAtt, hattend⟩ := Option.bind_eq_some_iff.mp hattend
  obtain ⟨values, hvalues, hattend⟩ := Option.bind_eq_some_iff.mp hattend
  obtain ⟨start', hstart', hattend⟩ := Option.bind_eq_some_iff.mp hattend
  obtain ⟨recent, hrecent, hattend⟩ := Option.bind_eq_some_iff.mp hattend
  obtain ⟨mixed, hmixed, hattend⟩ := Option.bind_eq_some_iff.mp hattend
  obtain ⟨flat, hflat, hforward⟩ := Option.bind_eq_some_iff.mp hattend
  have hheads : 0 < attn.nHeads := hseq ▸ hpos
  obtain ⟨hfullKDims, hfullKEntry⟩ := expandKv_group hshaped hheads hk hfullK
  obtain ⟨hfullVDims, hfullVEntry⟩ := expandKv_group hshaped hheads hv hfullV
  -- as many tokens as heads: both slices are from the start on
  have hkeysEq : keys = attn.nHeads := by
    rw [Tensor.dim, hfullKDims] at hkeys
    exact (Option.some.inj hkeys).symm
  have hvaluesEq : values = seqLen := by
    rw [Tensor.dim, hfullVDims] at hvalues
    exact (Option.some.inj hvalues).symm
  rw [hkeysEq, ← hseq, lastStart_of_le le_rfl, Nat.sub_self] at hstart
  rw [hvaluesEq, lastStart_of_le le_rfl, Nat.sub_self] at hstart'
  obtain rfl := Option.some.inj hstart
  obtain rfl := Option.some.inj hstart'
  obtain ⟨hrecentDims, hweight⟩ := weights_row hseq hq hfullKDims hkT hatt hrecentAtt
  obtain ⟨hmixedDims, hmix⟩ := mixed_row hseq hrecentDims hfullVDims hrecent hmixed
  refine (Tensor.entry_linear hforward hshaped.oWeight [i, j] c).trans ?_
  rw [Linear.row, hshaped.oWeight]
  congr 1
  refine Finset.sum_congr rfl fun n hn => ?_
  have hn : n < attn.nHeads * attn.headDim := Finset.mem_range.mp hn
  have hdim : 0 < attn.headDim := Nat.pos_of_ne_zero fun hzero => by
    rw [hzero, Nat.mul_zero] at hn
    omega
  have hin : List.Forall₂ (· < ·) [i, j, n / attn.headDim, n % attn.headDim] mixed.dims := by
    rw [hmixedDims]
    exact .cons hi (.cons hj (.cons ((Nat.div_lt_iff_lt_mul hdim).mpr hn)
      (.cons (Nat.mod_lt n hdim) .nil)))
  congr 1
  show flat.entry [i, j, n] = _
  rw [wrappingMul_of_lt hshaped.fits] at hflat
  rw [Tensor.entry_reshape hflat hin, hmix]
  · refine Finset.sum_congr rfl fun other hother => ?_
    rw [hweight, hfullVEntry i j other (Finset.mem_range.mp hother)]
    congr 3
    refine List.map_congr_left fun other' hother' => ?_
    simp only [hfullKEntry i j other' (List.mem_range.mp hother')]
  · rw [hmixedDims]
    simp [Tensor.offset, Nat.div_add_mod']

/-- The rows of the queries, keys and values; the first two are rotated. -/
theorem qkv_rows (hshaped : Shaped rope attn hidden) {x q k v : Tensor R} {row : ℕ → ℕ → ℕ → R}
    {index : ℕ} (hx : HasRows x bSz seqLen hidden row)
    (hqkv : attn.qkv num rope x bSz seqLen index = some (q, k, v)) :
    ∃ q₀ k₀, rope.apply num q₀ index = some q ∧ rope.apply num k₀ index = some k ∧
      q₀.dims = [bSz, seqLen, attn.nHeads, attn.headDim] ∧
      k₀.dims = [bSz, seqLen, attn.nKvHeads, attn.headDim] ∧
      v.dims = [bSz, seqLen, attn.nKvHeads, attn.headDim] ∧
      ∀ i < bSz, ∀ j < seqLen, ∀ e < attn.headDim,
        (∀ h < attn.nHeads, q₀.entry [i, j, h, e] = attn.head attn.qProj (row i j) h e) ∧
        ∀ h < attn.nKvHeads, k₀.entry [i, j, h, e] = attn.head attn.kProj (row i j) h e ∧
          v.entry [i, j, h, e] = attn.head attn.vProj (row i j) h e := by
  obtain ⟨q₀, hq₀, hqkv⟩ := Option.bind_eq_some_iff.mp hqkv
  obtain ⟨k₀, hk₀, hqkv⟩ := Option.bind_eq_some_iff.mp hqkv
  obtain ⟨v₀, hv₀, hqkv⟩ := Option.bind_eq_some_iff.mp hqkv
  obtain ⟨q₁, hq₁, hqkv⟩ := Option.bind_eq_some_iff.mp hqkv
  obtain ⟨k₁, hk₁, hqkv⟩ := Option.bind_eq_some_iff.mp hqkv
  cases hqkv
  obtain ⟨hqDims, hqEntry⟩ := project_row hx hshaped.qWeight hshaped.qBias hq₀
  obtain ⟨hkDims, hkEntry⟩ := project_row hx hshaped.kWeight hshaped.kBias hk₀
  obtain ⟨hvDims, hvEntry⟩ := project_row hx hshaped.vWeight hshaped.vBias hv₀
  exact ⟨q₀, k₀, hq₁, hk₁, hqDims, hkDims, hvDims, fun i hi j hj e he =>
    ⟨fun h hh => hqEntry i hi j hj h hh e he,
      fun h hh => ⟨hkEntry i hi j hj h hh e he, hvEntry i hi j hj h hh e he⟩⟩⟩

/-- **Attention by rows.** What comes back has in each row what the row of the input gives alone:
the other rows, the position and the cache have no part in it. -/
theorem forward_rows (hcircle : ∀ x, num.cos x * num.cos x + num.sin x * num.sin x = 1)
    (hshaped : Shaped rope attn hidden) {x out : Tensor R} {row : ℕ → ℕ → ℕ → R} {n index : ℕ}
    (hpos : 0 < seqLen) (hx : HasRows x bSz seqLen hidden row)
    {cache cache' : Option (CacheContext R)} (hcache : Cached attn bSz cache n)
    (hforward : attn.forward num rope x index cache = .ok (cache', some out)) :
    HasRows out bSz seqLen hidden fun i j => attn.row num (row i j) := by
  obtain ⟨_, _, result, hresult, -, hshape⟩ :=
    forward_cached num hshaped hpos hx.dims index hcache
  cases hforward.symm.trans hresult
  by_cases haccepted : Accepted attn n seqLen
  · obtain ⟨heven, hseq, hprefill⟩ := haccepted
    rw [if_pos ⟨heven, hseq, hprefill⟩, Tensor.shape?_some, hx.dims] at hshape
    refine ⟨Option.some.inj hshape, fun i hi j hj c _ => ?_⟩
    have hqkv := qkv_shaped num hshaped hpos hx.dims index
    rw [if_pos heven] at hqkv
    obtain ⟨q, k, v, hqkv, hqDims, hkDims, hvDims⟩ := hqkv
    obtain ⟨cache'', fullK, fullV, hfull, ⟨-, -, hsame⟩, -, -⟩ := fullKv_cached hcache hkDims hvDims
    obtain ⟨rfl, rfl⟩ := hsame hprefill
    rw [forward, hx.dims] at hforward
    dsimp only at hforward
    rw [hqkv] at hforward
    dsimp only at hforward
    rw [hfull, Machine.ok_bind] at hforward
    have hattend : attn.attend num q fullK fullV bSz seqLen = some out :=
      congrArg Prod.snd (Except.ok.inj hforward)
    rw [attend_row hshaped hseq hpos hqDims hkDims hvDims hattend hi hj]
    obtain ⟨q₀, k₀, hq₀, hk₀, hq₀Dims, hk₀Dims, -, hentry⟩ := qkv_rows hshaped hx hqkv
    obtain ⟨half, hhalf⟩ := heven
    have hrope := hshaped.invFreq
    have hhalves : (half + half) / 2 = half := by omega
    rw [hhalf, hhalves] at hrope
    have hgroup : ∀ other < attn.nHeads, attn.group other < attn.nKvHeads := by
      intro other hother
      have hpos : 0 < attn.nHeads := Nat.zero_lt_of_lt hother
      have hsize : 0 < attn.nHeads / attn.nKvHeads :=
        Nat.div_pos (Nat.le_of_dvd hpos hshaped.groups) (Nat.pos_of_dvd_of_pos hshaped.groups hpos)
      rw [group, Nat.div_lt_iff_lt_mul hsize, Nat.mul_div_cancel' hshaped.groups]
      exact hother
    rw [Attention.row, Linear.row, Linear.row, hshaped.oWeight]
    congr 1
    refine Finset.sum_congr rfl fun m hm => ?_
    have hm : m < attn.nHeads * attn.headDim := Finset.mem_range.mp hm
    have hdim : 0 < attn.headDim := Nat.pos_of_ne_zero fun hzero => by
      rw [hzero, Nat.mul_zero] at hm
      omega
    have hhead : m / attn.headDim < attn.nHeads := (Nat.div_lt_iff_lt_mul hdim).mpr hm
    congr 1
    refine Finset.sum_congr rfl fun other hother => ?_
    have hother := hgroup other (Finset.mem_range.mp hother)
    rw [((hentry i hi j hj _ (Nat.mod_lt m hdim)).2 _ hother).2]
    congr 2
    rw [scores]
    congr 1
    refine List.map_congr_left fun head' hhead' => ?_
    have hkv := hgroup head' (List.mem_range.mp hhead')
    congr 1
    rw [hhalf] at hq₀Dims hk₀Dims ⊢
    rw [RotaryEmbedding.dot_apply hcircle hrope hq₀Dims hk₀Dims hq₀ hk₀ hi hj (hhalf ▸ hhead) hkv]
    refine Finset.sum_congr rfl fun e he => ?_
    have he : e < attn.headDim := hhalf ▸ Finset.mem_range.mp he
    rw [(hentry i hi j hj e he).1 _ (hhalf ▸ hhead), ((hentry i hi j hj e he).2 _ hkv).1]
  · rw [if_neg haccepted] at hshape
    cases hshape

end Attention

/-! ### Layers -/

section Layers

variable {kernels : Kernels R} {rope : RotaryEmbedding R} {bSz seqLen hidden : ℕ}

theorem layer_rows (hcircle : ∀ x, kernels.cos x * kernels.cos x + kernels.sin x * kernels.sin x = 1)
    {layer : DecoderLayer (Tensor R)} (hshaped : layer.Shaped rope hidden) {x out : Tensor R}
    {row : ℕ → ℕ → ℕ → R} {n index : ℕ} (hpos : 0 < seqLen) (hx : HasRows x bSz seqLen hidden row)
    {cache cache' : Option (CacheContext R)}
    (hcache : Attention.Cached layer.selfAttn bSz cache n)
    (hforward : Qwen2DecoderLayer.forward kernels rope layer x index cache =
      .ok (cache', some out)) :
    HasRows out bSz seqLen hidden fun i j => layer.row kernels (row i j) := by
  obtain ⟨columns, hmlp⟩ := hshaped.mlp
  rw [Qwen2DecoderLayer.forward, DecoderLayer.forward] at hforward
  split at hforward
  · cases hforward
  · rename_i normed hnormed
    obtain ⟨⟨left, attended⟩, hattention, hforward⟩ := Machine.bind_eq_ok.mp hforward
    have hfinish := congrArg Prod.snd (Except.ok.inj hforward)
    obtain ⟨attended, rfl, hfinish⟩ := Option.bind_eq_some_iff.mp hfinish
    obtain ⟨y, hy, hfinish⟩ := Option.bind_eq_some_iff.mp hfinish
    obtain ⟨normed', hnormed', hfinish⟩ := Option.bind_eq_some_iff.mp hfinish
    obtain ⟨fed, hfed, hadd⟩ := Option.bind_eq_some_iff.mp hfinish
    have hinput := hx.rmsNorm hshaped.inputNorm hnormed
    have hattended := Attention.forward_rows hcircle hshaped.selfAttn hpos hinput hcache hattention
    have hresidual := hattended.add hx hy
    exact ((hresidual.rmsNorm hshaped.postNorm hnormed').mlp hmlp hfed).add hresidual hadd

theorem forwardLayers_rows
    (hcircle : ∀ x, kernels.cos x * kernels.cos x + kernels.sin x * kernels.sin x = 1)
    {layers : List (DecoderLayer (Tensor R))} {nHeads nKvHeads headDim : ℕ}
    (hshaped : ∀ layer ∈ layers, layer.Shaped rope hidden ∧ layer.selfAttn.nHeads = nHeads ∧
      layer.selfAttn.nKvHeads = nKvHeads ∧ layer.selfAttn.headDim = headDim)
    {x out : Tensor R} {row : ℕ → ℕ → ℕ → R} {n index : ℕ} (hpos : 0 < seqLen)
    (hx : HasRows x bSz seqLen hidden row) {cache cache' : Option (CacheContext R)}
    (hcache : ∀ layer ∈ layers, Attention.Cached layer.selfAttn bSz cache n)
    (hforward : forwardLayers (Qwen2DecoderLayer.forward kernels rope) index layers x cache =
      .ok (cache', some out)) :
    HasRows out bSz seqLen hidden fun i j =>
      layers.foldl (fun x layer => layer.row kernels x) (row i j) := by
  induction layers generalizing x row n cache with
  | nil =>
      cases hforward
      exact hx
  | cons layer layers ih =>
      obtain ⟨hlayer, -, hkv, hdim⟩ := hshaped layer List.mem_cons_self
      have hfirst := hcache layer List.mem_cons_self
      obtain ⟨next, m, result, hcall, ⟨hcached, -, -⟩, -⟩ :=
        layer_forward_cached kernels hlayer hpos hx.dims index hfirst
      rw [forwardLayers, hcall, Machine.ok_bind] at hforward
      cases result with
      | none => cases hforward
      | some y =>
          have hrows := layer_rows hcircle hlayer hpos hx hfirst hcall
          refine ih (fun other hother => hshaped other (.tail layer hother)) hrows
            (fun other hother => (?_ : Attention.Cached other.selfAttn bSz next m)) hforward
          obtain ⟨-, -, hkv', hdim'⟩ := hshaped other (.tail layer hother)
          exact hcached.congr (hkv'.trans hkv.symm) (hdim'.trans hdim.symm)

/-- **A model reads one token at a time.** Whatever a call of either architecture gives back has for
each token of the input the logits of this token alone: they do not depend on the other tokens, on
the position or on what has been cached. -/
theorem logits_by_token
    (hcircle : ∀ x, kernels.cos x * kernels.cos x + kernels.sin x * kernels.sin x = 1)
    {loaded : ModelInstance (Tensor R)} {vocab nHeads nKvHeads headDim : ℕ}
    (hshaped : loaded.model.Shaped rope hidden vocab nHeads nKvHeads headDim)
    (dist : DistributedContext) {ids : Tensor Token} {n : ℕ} (hseq : 1 ≤ seqLen)
    (hids : ids.dims = [bSz, seqLen]) (index : ℕ) {cache cache' : Option (CacheContext R)}
    (hcache : ∀ layer ∈ loaded.model.layers, Attention.Cached layer.selfAttn bSz cache n)
    {out : Tensor R}
    (hforward : loaded.forward kernels rope dist ids index cache = .ok (cache', some out)) :
    out.dims = [bSz, seqLen, vocab] ∧ ∀ i < bSz, ∀ j < seqLen, ∀ t < vocab,
      out.entry [i, j, t] = loaded.model.logits kernels (ids.entry [i, j]) t := by
  obtain ⟨table, htable, htableDims⟩ := hshaped.embed
  obtain ⟨weight, hnorm, hweight⟩ := hshaped.norm
  obtain ⟨head, hhead, hheadWeight, hheadBias⟩ := hshaped.lmHead
  rw [instance_forward_eq, Qwen2Model.forward, Model.forward, htable, Option.bind_some] at hforward
  split at hforward
  · cases hforward
  · rename_i x hx
    obtain ⟨⟨left, layered⟩, hlayers, hforward⟩ := Machine.bind_eq_ok.mp hforward
    have hfinish := congrArg Prod.snd (Except.ok.inj hforward)
    obtain ⟨y, rfl, hfinish⟩ := Option.bind_eq_some_iff.mp hfinish
    obtain ⟨normed, hnormed, hlogits⟩ := Option.bind_eq_some_iff.mp hfinish
    rw [hnorm] at hnormed
    rw [hhead] at hlogits
    have hembedded : HasRows x bSz seqLen hidden fun i j c =>
        table.entry [(ids.entry [i, j]).toNat, c] := by
      rw [Embedding.forward, htableDims] at hx
      dsimp only at hx
      split at hx
      · cases hx
        exact ⟨by rw [hids]; rfl, fun _ _ _ _ _ _ => rfl⟩
      · cases hx
    have hrows := forwardLayers_rows hcircle hshaped.layers hseq hembedded hcache hlayers
    have hlast := (hrows.rmsNorm hweight hnormed).linear hheadWeight hheadBias hlogits
    refine ⟨hlast.dims, fun i hi j hj t ht => ?_⟩
    rw [hlast.entry i hi j hj t ht, Model.logits, hnorm, hhead, htable]
    rfl

end Layers

/-- One token in two prompts, at two positions. -/
theorem logits_by_token_of_two :
    ∃ cache out cache' out',
      ModelInstance.forward flatKernels flatRope ⟨0, 1⟩ (.llama twoHeadsModel)
        ⟨[1, 2], fun idx => UInt32.ofNat idx.sum⟩ 0 (some ⟨⟨AList.singleton 7 ⟨none, none, 0⟩⟩, 7⟩) =
          .ok (cache, some out) ∧
      ModelInstance.forward flatKernels flatRope ⟨0, 1⟩ (.llama twoHeadsModel)
        ⟨[1, 2], fun _ => 1⟩ 2 (some ⟨⟨AList.singleton 7 ⟨none, none, 0⟩⟩, 7⟩) =
          .ok (cache', some out') ∧
      ∀ t < 10, out.entry [0, 1, t] = out'.entry [0, 0, t] := by
  have hshaped : (ModelInstance.llama twoHeadsModel).model.Shaped flatRope 4 10 2 1 2 :=
    twoHeadsModel_shaped
  have hfresh : ∀ layer ∈ (ModelInstance.llama twoHeadsModel).model.layers,
      Attention.Cached layer.selfAttn 1 (some ⟨⟨AList.singleton 7 ⟨none, none, 0⟩⟩, 7⟩) 0 :=
    fun _ _ => .slot rfl .fresh
  have hreturns (ids : List ℕ → Token) (index : ℕ)
      (hids : ∀ token ∈ (⟨[1, 2], ids⟩ : Tensor Token).flatten, token.toNat < 10) :=
    (answered_iff flatKernels hshaped ⟨0, 1⟩ (by decide) rfl index hfresh).1.mpr
      ⟨hids, Or.inr ⟨by decide, rfl, by decide⟩⟩
  have hids : (⟨[1, 2], fun idx => UInt32.ofNat idx.sum⟩ : Tensor Token).flatten = [0, 1] := rfl
  have hids' : (⟨[1, 2], fun _ => 1⟩ : Tensor Token).flatten = [1, 1] := rfl
  obtain ⟨cache, out, hfirst, -⟩ := hreturns (fun idx => UInt32.ofNat idx.sum) 0
    (by rw [hids]; simp)
  obtain ⟨cache', out', hsecond, -⟩ := hreturns (fun _ => 1) 2 (by rw [hids']; simp)
  refine ⟨cache, out, cache', out', hfirst, hsecond, fun t ht => ?_⟩
  have hcircle : ∀ x, flatKernels.cos x * flatKernels.cos x +
      flatKernels.sin x * flatKernels.sin x = 1 := by
    intro x
    show (1 : ℚ) * 1 + 0 * 0 = 1
    rw [one_mul, zero_mul, add_zero]
  have hrows := (logits_by_token hcircle hshaped ⟨0, 1⟩ (by decide) rfl 0 hfresh
    hfirst).2 0 (by decide) 1 (by decide) t ht
  have hrows' := (logits_by_token hcircle hshaped ⟨0, 1⟩ (by decide) rfl 2 hfresh
    hsecond).2 0 (by decide) 0 (by decide) t ht
  rw [hrows, hrows']
  rfl

end Loader
end Kyro
