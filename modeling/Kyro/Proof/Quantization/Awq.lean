import Kyro.Proof.Quantization.Layout

/-!
# Packed words against packed bytes

The nibbles of a word are those of its little-endian bytes, so an `AwqLinear` and an `Int4Linear`
that hold the same bits, scales and zero points have the same weights.
-/

namespace Kyro.Quantization

open Fill

/-! ### Words -/

/-- `word.to_le_bytes()` -/
def wordBytes (word : Int32) : List UInt8 :=
  let w := word.toUInt32
  [w.toUInt8, (w >>> 8).toUInt8, (w >>> 16).toUInt8, (w >>> 24).toUInt8]

/-- A nibble of a word. -/
theorem wordNibble_toNat (w s : UInt32) (hs : s.toNat < 32) :
    ((w >>> s) &&& 0x0F).toUInt8.toNat = w.toNat / 2 ^ s.toNat % 16 := by
  have hmask : ((w >>> s) &&& 0x0F).toNat = (w >>> s).toNat % 16 := by
    rw [UInt32.toNat_and]
    exact Nat.and_two_pow_sub_one_eq_mod _ 4
  have hshift : (w >>> s).toNat = w.toNat / 2 ^ s.toNat := by
    rw [UInt32.toNat_shiftRight, Nat.mod_eq_of_lt hs, Nat.shiftRight_eq_div_pow]
  rw [UInt32.toNat_toUInt8, hmask, hshift]
  omega

theorem wordByte_toNat (w s : UInt32) (hs : s.toNat < 32) :
    (w >>> s).toUInt8.toNat = w.toNat / 2 ^ s.toNat % 256 := by
  rw [UInt32.toNat_toUInt8, UInt32.toNat_shiftRight, Nat.mod_eq_of_lt hs,
    Nat.shiftRight_eq_div_pow]

theorem low_wordByte (w s : UInt32) (hs : s.toNat < 32) :
    low (w >>> s).toUInt8 = ((w >>> s) &&& 0x0F).toUInt8 := by
  apply UInt8.toNat_inj.mp
  rw [low_toNat, wordByte_toNat w s hs, wordNibble_toNat w s hs]
  omega

theorem high_wordByte (w s t : UInt32) (ht : t.toNat = s.toNat + 4) (hs : s.toNat < 28) :
    high (w >>> s).toUInt8 = ((w >>> t) &&& 0x0F).toUInt8 := by
  apply UInt8.toNat_inj.mp
  rw [high_toNat, wordByte_toNat w s (by omega), wordNibble_toNat w t (by omega), ht, Nat.pow_add,
    ← Nat.div_div_eq_div_mul]
  omega

/-- **The values of a word are the nibbles of its bytes.** -/
theorem nibbles_wordBytes (word : Int32) : nibbles (wordBytes word) = unpackI32Word word := by
  have hfirst : word.toUInt32 >>> 0 = word.toUInt32 := UInt32.shiftRight_zero
  have hlow := low_wordByte word.toUInt32
  have hhigh := high_wordByte word.toUInt32
  have hlow0 := hlow 0 (by decide)
  have hhigh0 := hhigh 0 4 (by decide) (by decide)
  rw [hfirst] at hlow0 hhigh0
  show [_, _, _, _, _, _, _, _] = _
  rw [hlow0, hhigh0, hlow 8 (by decide), hhigh 8 12 (by decide) (by decide), hlow 16 (by decide),
    hhigh 16 20 (by decide) (by decide), hlow 24 (by decide),
    hhigh 24 28 (by decide) (by decide)]
  rfl

theorem nibbles_words (words : List Int32) :
    nibbles (words.flatMap wordBytes) = words.flatMap unpackI32Word := by
  induction words with
  | nil => rfl
  | cons word words ih =>
      rw [List.flatMap_cons, List.flatMap_cons, nibbles, List.flatMap_append, ← nibbles, ← nibbles,
        nibbles_wordBytes, ih]

/-- The value at a position of the unpacked words. -/
theorem words_getElem? (words : List Int32) (p : ℕ) : (words.flatMap unpackI32Word)[p]? =
    words[p / 8]?.bind fun word => (unpackI32Word word)[p % 8]? := by
  induction words generalizing p with
  | nil => rfl
  | cons word words ih =>
      have hlength : (unpackI32Word word).length = 8 := rfl
      rw [List.flatMap_cons]
      by_cases hp : p < 8
      · have hdiv : p / 8 = 0 := Nat.div_eq_of_lt hp
        rw [List.getElem?_append_left (by rwa [hlength]), hdiv, Nat.mod_eq_of_lt hp]
        rfl
      · have hdiv : p / 8 = (p - 8) / 8 + 1 := by omega
        have hmod : p % 8 = (p - 8) % 8 := by omega
        rw [List.getElem?_append_right (by rw [hlength]; omega), hlength, ih, hdiv, hmod]
        rfl

namespace AwqLinear

open Int4Linear (groups weightAt group_lt)

/-! ### What `unpack_weights` computes -/

section Unpack

variable {qweight qzeros : List Int32} {scales zeros : List ℚ}
  {words groupSize stride m r c : ℕ}

theorem value_of_cell (hlength : qweight.length = m * words) (hr : r < m) (hc : c < words * 8) :
    (unpackI32Word (qweight.getD (r * words + c / 8) 0)).getD (c % 8) 0 =
      (qweight.flatMap unpackI32Word).getD (r * (words * 8) + c) 0 := by
  have hdiv : (r * (words * 8) + c) / 8 = r * words + c / 8 := by
    rw [← Nat.mul_assoc]
    omega
  have hmod : (r * (words * 8) + c) % 8 = c % 8 := by
    rw [← Nat.mul_assoc]
    omega
  have hword : r * words + c / 8 < qweight.length := by
    rw [hlength]
    exact cell_lt hr (by omega)
  simp only [List.getD_eq_getElem?_getD]
  rw [words_getElem?, hdiv, hmod, List.getElem?_eq_getElem hword]
  rfl

theorem unpackCell_written (hsize : 0 < groupSize) (hqweight : qweight.length = m * words)
    (hscales : scales.length = m * groups groupSize (words * 8))
    (hzeros : ∀ r < m, ∀ g < groups groupSize (words * 8), zeroOf qzeros stride r g =
      .ok (asU8 (zeros.getD (r * groups groupSize (words * 8) + g) 0)))
    (hr : r < m) (hc : c < words * 8) {weight : List ℚ}
    (hweight : weight.length = m * (words * 8)) :
    ∃ weight', unpackCell qweight qzeros scales none words groupSize
        (groups groupSize (words * 8)) stride r weight c = .ok weight' ∧
      Written (atCell (words * 8) (weightAt (qweight.flatMap unpackI32Word) scales zeros (words * 8)
        groupSize)) {r * (words * 8) + c} weight weight' := by
  have hg := group_lt hsize hc
  have hgroup : groupOf none groupSize c = .ok (c / groupSize) :=
    if_neg (Nat.ne_of_gt hsize)
  have hword : r * words + c / 8 < qweight.length := by
    rw [hqweight]
    exact cell_lt hr (by omega)
  have hnibble : c % 8 < (unpackI32Word (qweight.getD (r * words + c / 8) 0)).length :=
    Nat.mod_lt c (by decide)
  rw [unpackCell, read_of_lt _ hword 0, Machine.ok_bind, read_of_lt _ hnibble 0, Machine.ok_bind,
    hgroup, Machine.ok_bind, hzeros r hr _ hg, Machine.ok_bind,
    read_of_lt _ (by rw [hscales]; exact cell_lt hr hg) 0, Machine.ok_bind]
  apply write_written
  · rw [hweight]
    exact cell_lt hr hc
  · rw [atCell_cell _ hc, weightAt, value_of_cell hqweight hr hc]

theorem unpackData_eq (hsize : 0 < groupSize) (hqweight : qweight.length = m * words)
    (hscales : scales.length = m * groups groupSize (words * 8))
    (hzeros : ∀ r < m, ∀ g < groups groupSize (words * 8), zeroOf qzeros stride r g =
      .ok (asU8 (zeros.getD (r * groups groupSize (words * 8) + g) 0))) :
    unpackData qweight qzeros scales none words groupSize (groups groupSize (words * 8)) stride m =
      .ok (matrix m (words * 8) (weightAt (qweight.flatMap unpackI32Word) scales zeros (words * 8)
        groupSize)) := by
  have hstart : (List.replicate (m * (words * 8)) (0 : ℚ)).length = m * (words * 8) :=
    List.length_replicate
  obtain ⟨weight, hweight, hwritten⟩ := foldlM_written (List.range m)
    (s := fun r => across (List.range (words * 8)) fun c => {r * (words * 8) + c})
    (fun xs hxs r hr => foldlM_written _ (s := fun c => {r * (words * 8) + c})
      (fun ys hys c hc => unpackCell_written hsize hqweight hscales hzeros (List.mem_range.mp hr)
        (List.mem_range.mp hc) hys) hxs) hstart
  rw [unpackData, hweight, hwritten.eq_matrix hstart]
  exact fun r hr c hc => ⟨r, List.mem_range.mpr hr, c, List.mem_range.mpr hc, rfl⟩

end Unpack

/-! ### Layers that hold the same bits -/

/-- The zero points of the groups, as packed nibbles and as floats. -/
structure SameZeros (qzeros : List Int32) (zeros : List ℚ) (outFeatures numGroups : ℕ) : Prop where
  length_eq : zeros.length = outFeatures * numGroups
  room : (numGroups + 7) / 8 ≤ qzeros.length / outFeatures
  value : ∀ r < outFeatures, ∀ g < numGroups, zeros.getD (r * numGroups + g) 0 =
    ofU8 ((unpackI32Word (qzeros.getD (r * (qzeros.length / outFeatures) + g / 8) 0)).getD
      (g % 8) 0)

/-- The bytes of one layer are those of the words of the other. -/
structure SameBits (awq : AwqLinear) (int4 : Int4Linear) (outFeatures words : ℕ) : Prop where
  words_dims : awq.qweight.dims = [outFeatures, words]
  bytes_dims : int4.qweight.dims = [outFeatures, words * 4]
  bytes : int4.qweight.flatten = awq.qweight.flatten.flatMap wordBytes
  groupSize : int4.groupSize = awq.groupSize
  scales : int4.scales.flatten = awq.scales.flatten
  scales_length : awq.scales.flatten.length = outFeatures * groups awq.groupSize (words * 8)
  gIdx : awq.gIdx = none
  zeros : (awq.qzeros.flatten = [] ∧ int4.zeros = none) ∨
    ∃ zeros, int4.zeros = some zeros ∧ SameZeros awq.qzeros.flatten zeros.flatten outFeatures
      (groups awq.groupSize (words * 8))

theorem SameZeros.zeroOf_eq {qzeros : List Int32} {zeros : List ℚ} {m numGroups : ℕ}
    (h : SameZeros qzeros zeros m numGroups) {r g : ℕ} (hr : r < m) (hg : g < numGroups) :
    zeroOf qzeros (qzeros.length / m) r g = .ok (asU8 (zeros.getD (r * numGroups + g) 0)) := by
  have hroom := h.room
  have hword : r * (qzeros.length / m) + g / 8 < qzeros.length :=
    (cell_lt hr (by omega)).trans_le (Nat.mul_div_le qzeros.length m)
  have hne : qzeros.isEmpty = false := by
    cases qzeros with
    | nil => cases hword
    | cons => rfl
  have hnibble : g % 8 <
      (unpackI32Word (qzeros.getD (r * (qzeros.length / m) + g / 8) 0)).length :=
    Nat.mod_lt g (by decide)
  rw [zeroOf, hne, h.value r hr g hg, asU8_ofU8, read_of_lt _ hword 0]
  exact read_of_lt _ hnibble 0

theorem SameBits.zerosData {awq : AwqLinear} {int4 : Int4Linear} {m words : ℕ}
    (h : SameBits awq int4 m words) {count : ℕ}
    (hcount : count = m * groups awq.groupSize (words * 8)) :
    (int4.zerosData count).length = count ∧
      ∀ r < m, ∀ g < groups awq.groupSize (words * 8),
        zeroOf awq.qzeros.flatten (awq.qzeros.flatten.length / m) r g =
          .ok (asU8
            ((int4.zerosData count).getD (r * groups awq.groupSize (words * 8) + g) 0)) := by
  rcases h.zeros with ⟨hnone, hzeros⟩ | ⟨zeros, hzeros, hsame⟩
  · rw [Int4Linear.zerosData, hzeros, hnone]
    refine ⟨List.length_replicate, fun r hr g hg => ?_⟩
    have hcell := cell_lt hr hg
    rw [← hcount] at hcell
    rw [List.getD_eq_getElem?_getD, List.getElem?_replicate_of_lt hcell]
    exact congrArg Except.ok (asU8_ofU8 8).symm
  · rw [Int4Linear.zerosData, hzeros]
    exact ⟨hsame.length_eq.trans hcount.symm, fun r hr g hg => hsame.zeroOf_eq hr hg⟩

/-- `unpack_weights` up to its loops. -/
theorem unpackWeights_eq {awq : AwqLinear} {m words : ℕ} (hm : 0 < m)
    (hdims : awq.qweight.dims = [m, words]) (hsize : 0 < awq.groupSize)
    (hscales : awq.scales.flatten.length = m * groups awq.groupSize (words * 8))
    (hgIdx : awq.gIdx = none) {zeros : List ℚ}
    (hzeros : ∀ r < m, ∀ g < groups awq.groupSize (words * 8),
      zeroOf awq.qzeros.flatten (awq.qzeros.flatten.length / m) r g =
        .ok (asU8 (zeros.getD (r * groups awq.groupSize (words * 8) + g) 0))) :
    awq.unpackWeights = .ok (some (slice m (words * 8) (matrix m (words * 8)
      (weightAt (awq.qweight.flatten.flatMap unpackI32Word) awq.scales.flatten zeros (words * 8)
        awq.groupSize)))) := by
  have hwords : awq.qweight.flatten.length = m * words := by
    rw [Tensor.length_flatten, hdims]
    simp
  have hgroups : checkedDiv awq.scales.flatten.length m =
      .ok (groups awq.groupSize (words * 8)) := by
    rw [checkedDiv, if_neg (Nat.ne_of_gt hm), hscales, Nat.mul_div_cancel_left _ hm]
  have hqzeros : (if 0 < awq.qzeros.dims.prod then awq.qzeros.flatten else []) =
      awq.qzeros.flatten := by
    split
    · rfl
    · rename_i hempty
      have hlength := awq.qzeros.length_flatten
      exact (List.eq_nil_of_length_eq_zero (by omega)).symm
  have hstride : rowStride awq.qzeros.flatten m = .ok (awq.qzeros.flatten.length / m) := by
    rw [rowStride]
    split
    · rename_i hempty
      rw [List.isEmpty_iff.mp hempty, List.length_nil, Nat.zero_div]
    · rw [checkedDiv, if_neg (Nat.ne_of_gt hm)]
  rw [unpackWeights, hdims]
  show (checkedDiv awq.scales.flatten.length m >>= _) = _
  rw [hgroups, Machine.ok_bind]
  dsimp only
  rw [hqzeros, hstride, Machine.ok_bind, hgIdx, Option.map_none,
    unpackData_eq hsize hwords hscales hzeros, Machine.ok_bind, fromSlice_pair (length_matrix ..)]
  rfl

/-- **The two dequantizers agree**, without an index out of range. -/
theorem unpackWeights_agree {awq : AwqLinear} {int4 : Int4Linear} {outFeatures words : ℕ}
    (hout : 1 ≤ outFeatures) (hsize : 1 ≤ awq.groupSize)
    (h : SameBits awq int4 outFeatures words) :
    ∃ t, awq.unpackWeights = .ok (some t) ∧ int4.unpackWeights = .ok (some t) := by
  have hcols : words * 4 * 2 = words * 8 := by omega
  obtain ⟨hlength, hzeros⟩ := h.zerosData rfl
  have hint4 := Int4Linear.unpackWeights_eq hout h.bytes_dims (by rwa [h.groupSize])
    (by rw [h.scales, h.groupSize, hcols, h.scales_length]) (by rwa [h.groupSize, hcols])
  rw [h.groupSize, hcols, h.scales, h.bytes, nibbles_words] at hint4
  exact ⟨_, unpackWeights_eq hout h.words_dims hsize h.scales_length h.gIdx hzeros, hint4⟩

/-- A word of eight fifteens, which is negative, without zero points. -/
theorem unpackWeights_agree_word :
    ∃ t, unpackWeights ⟨⟨[1, 1], fun _ => -1⟩, ⟨[0], fun _ => 0⟩, ⟨[1, 1], fun _ => 1⟩, none, 8⟩ =
        .ok (some t) ∧
      Int4Linear.unpackWeights ⟨⟨[1, 4], fun _ => 255⟩, ⟨[1, 1], fun _ => 1⟩, none, 8⟩ =
        .ok (some t) :=
  unpackWeights_agree (by decide) (by decide) (show SameBits _ _ 1 1 from
    { words_dims := rfl
      bytes_dims := rfl
      bytes := rfl
      groupSize := rfl
      scales := rfl
      scales_length := rfl
      gIdx := rfl
      zeros := .inl ⟨rfl, rfl⟩ })

end AwqLinear
end Kyro.Quantization
