import Kyro.Proof.Model.Layers

/-!
# Attention to a sequence in chunks

Every call appends its keys and values to the slot, but only a call with one token attends to the
slot; any other attends to its own keys and values. So of a sequence in two or more chunks the last
call sees all of it exactly when the last chunk is one token.
-/

namespace Kyro

namespace LlamaAttention

variable {χ κ : Type} (attn : LlamaAttention χ κ)

theorem keys_append (x y : List χ) (index : ℕ) :
    attn.keys (x ++ y) index = attn.keys x index ++ attn.keys y (index + x.length) := by
  simp only [keys, RotaryEmbedding.apply, List.map_append, List.mapIdx_append, List.length_map]
  congr 2
  funext i row
  rw [Nat.add_assoc, Nat.add_comm i]

theorem values_append (x y : List χ) :
    attn.values (x ++ y) = attn.values x ++ attn.values y := List.map_append

/-- What the slot holds after calls on chunks. -/
structure Stored (start : ℕ) (slot : RequestKVCache (List κ)) (x : List χ) : Prop where
  keys : slot.keyTensor.getD [] = attn.keys x start
  values : slot.valueTensor.getD [] = attn.values x
  tokens : slot.numCachedTokens = x.length

theorem Stored.nil (start : ℕ) : attn.Stored start ⟨none, none, 0⟩ [] := ⟨rfl, rfl, rfl⟩

theorem Stored.extend {start : ℕ} {slot : RequestKVCache (List κ)} {x : List χ}
    (h : attn.Stored start slot x) (y : List χ) :
    attn.Stored start (slot.extend (attn.keys y (start + x.length)) (attn.values y)) (x ++ y) := by
  refine ⟨?_, ?_, ?_⟩
  · rw [keys_append, ← h.keys]
    rfl
  · rw [values_append, ← h.values]
    rfl
  · change slot.numCachedTokens + (attn.keys y (start + x.length)).length = _
    rw [length_keys, h.tokens, List.length_append]

end LlamaAttention
end Kyro
