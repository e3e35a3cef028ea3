import Kyro.Model.KvCache
import Mathlib.Algebra.BigOperators.Group.List.Basic

/-!
# What a slot holds after failed appends

`append_kv` takes the old tensor out of the slot before it concatenates, once for the keys and once
for the values. A conversion that fails leaves the slot as it was; a concatenation that fails loses
what was taken out.
-/

namespace Kyro

namespace KVCacheManager

variable {τ : Type} (ops : TensorOps τ)

/-- Tensors as F16, one after another. -/
def concat (tensors : List τ) : Option (Option τ) :=
  tensors.foldlM (fun existing new =>
    (ops.toF16 new).bind fun new => (catOnto ops existing new).map some) none

theorem concat_snoc (tensors : List τ) (new : τ) :
    concat ops (tensors ++ [new]) = (concat ops tensors).bind fun existing =>
      (ops.toF16 new).bind fun new => (catOnto ops existing new).map some := by
  rw [concat, List.foldlM_append]
  refine congrArg _ (funext fun existing => ?_)
  simp only [List.foldlM_cons, List.foldlM_nil, bind_pure]

/-- A slot that holds the concatenations of the keys and values, and their number of tokens. -/
structure Holds (slot : RequestKVCache τ) (appends : List (τ × τ)) : Prop where
  keys : concat ops (appends.map Prod.fst) = some slot.keyTensor
  values : concat ops (appends.map Prod.snd) = some slot.valueTensor
  tokens : slot.numCachedTokens = (appends.map fun append => (ops.seqLen append.1).getD 0).sum

theorem Holds.nil : Holds ops ⟨none, none, 0⟩ [] := ⟨rfl, rfl, rfl⟩

theorem Holds.snoc {slot : RequestKVCache τ} {appends : List (τ × τ)} (h : Holds ops slot appends)
    {key value k v keyTensor valueTensor : τ} {n : ℕ} (hkey : ops.toF16 key = some k)
    (hvalue : ops.toF16 value = some v) (hlen : ops.seqLen key = some n)
    (hkeys : catOnto ops slot.keyTensor k = some keyTensor)
    (hvalues : catOnto ops slot.valueTensor v = some valueTensor) :
    Holds ops ⟨some keyTensor, some valueTensor, slot.numCachedTokens + n⟩
      (appends ++ [(key, value)]) := by
  refine ⟨?_, ?_, ?_⟩
  · rw [List.map_append, List.map_singleton, concat_snoc, h.keys, Option.bind_some, hkey,
      Option.bind_some, hkeys, Option.map_some]
  · rw [List.map_append, List.map_singleton, concat_snoc, h.values, Option.bind_some, hvalue,
      Option.bind_some, hvalues, Option.map_some]
  · rw [List.map_append, List.sum_append, h.tokens]
    simp [hlen]

/-! ### Runs of appends -/

structure Append (τ : Type) where
  requestId : RequestId
  key : τ
  value : τ

/-- One call, with the calls before it that returned `Ok`. -/
def appendStep (s : KVCacheManager τ × List (Append τ)) (call : Append τ) :
    Except Fault (KVCacheManager τ × List (Append τ)) := do
  let (manager, ok) ← s.1.appendKv ops call.requestId call.key call.value
  return (manager, if ok then s.2 ++ [call] else s.2)

/-- The keys and values that were appended to the slot of a request. -/
def appendsOf (id : RequestId) (calls : List (Append τ)) : List (τ × τ) :=
  (calls.filter (·.requestId = id)).map fun call => (call.key, call.value)

/-- Every slot holds the tensors of the calls that returned `Ok`. -/
def HoldAll (s : KVCacheManager τ × List (Append τ)) : Prop :=
  ∀ id slot, s.1.requestCaches.lookup id = some slot → Holds ops slot (appendsOf id s.2)

/-- A call that returned `Ok` appended its tensors, and one that did not changed nothing. -/
structure AllOrNothing (s s' : KVCacheManager τ × List (Append τ)) : Prop where
  holds : HoldAll ops s'
  unchanged : s'.2 = s.2 → ∀ id, s'.1.requestCaches.lookup id = s.1.requestCaches.lookup id

/-- Neither concatenation of the call is rejected, or a conversion fails before them. -/
def Accepted (s : KVCacheManager τ × List (Append τ)) (call : Append τ) : Prop :=
  ∀ slot k v, s.1.requestCaches.lookup call.requestId = some slot →
    ops.toF16 call.key = some k → ops.toF16 call.value = some v →
      (catOnto ops slot.keyTensor k).isSome ∧ (catOnto ops slot.valueTensor v).isSome

section Step

variable {ops} {s s' : KVCacheManager τ × List (Append τ)} {call : Append τ}
  {slot : RequestKVCache τ} {n : ℕ}

theorem catOnto_none {existing : Option τ} {new : τ} (h : catOnto ops existing new = none) :
    existing ≠ none := by
  rintro rfl
  cases h

/-- **What a call can do.** -/
theorem appendStep_cases (hlookup : s.1.requestCaches.lookup call.requestId = some slot)
    (hlen : ops.seqLen call.key = some n) (hstep : appendStep ops s call = .ok s') :
    (s' = s ∧ (ops.toF16 call.key = none ∨ ops.toF16 call.value = none)) ∨
      ∃ k v, ops.toF16 call.key = some k ∧ ops.toF16 call.value = some v ∧
        ((∃ keyTensor valueTensor, catOnto ops slot.keyTensor k = some keyTensor ∧
            catOnto ops slot.valueTensor v = some valueTensor ∧
            s' = (⟨s.1.requestCaches.insert call.requestId
              ⟨some keyTensor, some valueTensor, slot.numCachedTokens + n⟩⟩, s.2 ++ [call])) ∨
          ∃ broken, broken ≠ slot ∧
            ¬ ((catOnto ops slot.keyTensor k).isSome ∧
              (catOnto ops slot.valueTensor v).isSome) ∧
            s' = (⟨s.1.requestCaches.insert call.requestId broken⟩, s.2)) := by
  obtain ⟨⟨manager, ok⟩, happend, hresult⟩ := Machine.bind_eq_ok.mp hstep
  cases hresult
  rw [appendKv, hlookup, orPanic_some, Machine.ok_bind] at happend
  dsimp only at happend
  split at happend
  · rename_i k v hkey hvalue
    refine Or.inr ⟨k, v, hkey, hvalue, ?_⟩
    split at happend
    · -- the keys have been taken out of the slot
      rename_i hkeys
      cases happend
      refine Or.inr ⟨{ slot with keyTensor := none }, fun heq => ?_, by simp [hkeys], rfl⟩
      exact catOnto_none hkeys (congrArg RequestKVCache.keyTensor heq).symm
    · rename_i keyTensor hkeys
      split at happend
      · -- the keys are stored, the values have been taken out
        rename_i hvalues
        cases happend
        refine Or.inr ⟨{ slot with keyTensor := some keyTensor, valueTensor := none },
          fun heq => ?_, by simp [hvalues], rfl⟩
        exact catOnto_none hvalues (congrArg RequestKVCache.valueTensor heq).symm
      · rename_i valueTensor hvalues
        rw [hlen] at happend
        cases happend
        exact Or.inl ⟨keyTensor, valueTensor, hkeys, hvalues, rfl⟩
  · rename_i hnone
    cases happend
    refine Or.inl ⟨rfl, ?_⟩
    cases hkey : ops.toF16 call.key with
    | none => exact Or.inl rfl
    | some k =>
        cases hvalue : ops.toF16 call.value with
        | none => exact Or.inr rfl
        | some v => exact absurd hvalue (hnone k v hkey)

/-- A step from slots that hold their tensors is all or nothing exactly when it is accepted, and
the slots hold their tensors after it. -/
theorem appendStep_spec (h : HoldAll ops s)
    (hlookup : s.1.requestCaches.lookup call.requestId = some slot)
    (hlen : ops.seqLen call.key = some n) (hstep : appendStep ops s call = .ok s') :
    (AllOrNothing ops s s' ↔ Accepted ops s call) ∧ (Accepted ops s call → HoldAll ops s') := by
  rcases appendStep_cases hlookup hlen hstep with
    ⟨rfl, hnone⟩ | ⟨k, v, hkey, hvalue, ⟨keyTensor, valueTensor, hkeys, hvalues, rfl⟩ |
      ⟨broken, hbroken, hrejected, rfl⟩⟩
  · refine ⟨⟨fun _ slot k v _ hkey hvalue => ?_, fun _ => ⟨h, fun _ _ => rfl⟩⟩, fun _ => h⟩
    rcases hnone with hnone | hnone
    · rw [hkey] at hnone
      cases hnone
    · rw [hvalue] at hnone
      cases hnone
  · have hholds : HoldAll ops (⟨s.1.requestCaches.insert call.requestId
        ⟨some keyTensor, some valueTensor, slot.numCachedTokens + n⟩⟩, s.2 ++ [call]) := by
      intro id found hfound
      rw [appendsOf, List.filter_append, List.map_append]
      by_cases hid : id = call.requestId
      · subst hid
        rw [AList.lookup_insert] at hfound
        cases hfound
        simpa [appendsOf] using (h _ slot hlookup).snoc ops hkey hvalue hlen hkeys hvalues
      · rw [AList.lookup_insert_ne hid] at hfound
        simpa [appendsOf, Ne.symm hid] using h id found hfound
    refine ⟨⟨fun _ found k' v' hfound hkey' hvalue' => ?_, fun _ => ⟨hholds, fun heq => ?_⟩⟩,
      fun _ => hholds⟩
    · rw [hlookup] at hfound
      rw [hkey] at hkey'
      rw [hvalue] at hvalue'
      cases hfound
      cases hkey'
      cases hvalue'
      rw [hkeys, hvalues]
      exact ⟨rfl, rfl⟩
    · simp at heq
  · have hnot : ¬ Accepted ops s call := fun haccepted =>
      hrejected (haccepted slot k v hlookup hkey hvalue)
    refine ⟨⟨fun hall => ?_, fun haccepted => absurd haccepted hnot⟩,
      fun haccepted => absurd haccepted hnot⟩
    have hsame := hall.unchanged rfl call.requestId
    rw [AList.lookup_insert, hlookup] at hsame
    exact absurd (Option.some.inj hsame) hbroken

end Step

/-- **Appends are all or nothing exactly as long as no concatenation is rejected.** For slots that
have just been registered and any appends to them of keys and values of one length, in whatever
order of requests: every call that returns `Ok` leaves the concatenations of what was appended, and
every other call leaves all slots as they were, if and only if every call finds its concatenations
accepted or fails before them. -/
theorem appends_all_or_nothing_iff {manager : KVCacheManager τ}
    (hfresh : ∀ id slot, manager.requestCaches.lookup id = some slot → slot = ⟨none, none, 0⟩)
    {calls : List (Append τ)} (hregistered : ∀ call ∈ calls, manager.Registered call.requestId)
    (hlengths : ∀ call ∈ calls,
      ∃ n, ops.seqLen call.key = some n ∧ ops.seqLen call.value = some n) :
    (∃ t, Machine.run (appendStep ops) (manager, []) calls = .ok t) ∧
      (Machine.Along (appendStep ops)
          (fun s call => ∀ s', appendStep ops s call = .ok s' → AllOrNothing ops s s')
          (manager, []) calls ↔
        Machine.Along (appendStep ops) (Accepted ops) (manager, []) calls) := by
  have hkeep : ∀ s call s', (∀ id, s.1.Registered id ↔ manager.Registered id) →
      appendStep ops s call = .ok s' → ∀ id, s'.1.Registered id ↔ manager.Registered id := by
    intro s call s' h hstep id
    obtain ⟨⟨next, ok⟩, happend, heq⟩ := Machine.bind_eq_ok.mp hstep
    cases heq
    exact ((registered_appendKv happend).2 id).trans (h id)
  have halong : Machine.Along (appendStep ops)
      (fun _ call => manager.Registered call.requestId ∧ ∃ n, ops.seqLen call.key = some n)
      (manager, []) calls := by
    refine Machine.along_of_forall (fun call hcall => ⟨hregistered call hcall, ?_⟩) _
    obtain ⟨n, hlen, _⟩ := hlengths call hcall
    exact ⟨n, hlen⟩
  have hprogress : ∀ s call, (∀ id, s.1.Registered id ↔ manager.Registered id) →
      (manager.Registered call.requestId ∧ ∃ n, ops.seqLen call.key = some n) →
      ∃ s', appendStep ops s call = .ok s' ∧
        ∀ id, s'.1.Registered id ↔ manager.Registered id := by
    intro s call h hcall
    obtain ⟨result, happend⟩ :=
      appendKv_ok ops ((h call.requestId).mpr hcall.1) call.key call.value
    have hstep : appendStep ops s call =
        .ok (result.1, if result.2 then s.2 ++ [call] else s.2) := by
      rw [appendStep, happend]
      rfl
    exact ⟨_, hstep, hkeep s call _ h hstep⟩
  obtain ⟨t, hrun, _⟩ := Machine.run_progress hprogress (fun _ => Iff.rfl) halong
  refine ⟨⟨t, hrun⟩, Machine.along_step_iff
    (I := fun s => ∀ id, s.1.Registered id ↔ manager.Registered id) (G := HoldAll ops)
    (fun s call s' h _ hstep => hkeep s call s' h hstep) ?_ ?_ (fun _ => Iff.rfl) ?_ halong hrun⟩
  · intro s call s' h hholds hcall haccepted hstep
    obtain ⟨slot, hlookup⟩ := Option.isSome_iff_exists.mp
      (AList.lookup_isSome.mpr ((h call.requestId).mpr hcall.1))
    exact (appendStep_spec hholds hlookup hcall.2.choose_spec hstep).2 haccepted
  · intro s call s' h hholds hcall hstep
    obtain ⟨slot, hlookup⟩ := Option.isSome_iff_exists.mp
      (AList.lookup_isSome.mpr ((h call.requestId).mpr hcall.1))
    exact (appendStep_spec hholds hlookup hcall.2.choose_spec hstep).1
  · intro id slot hlookup
    rw [hfresh id slot hlookup]
    exact Holds.nil ops

/-- Appends to one slot, the second of which has another number of heads. -/
def reshaped : List (Append (Tensor ℕ)) :=
  [⟨42, .zeros [1, 2, 4, 64], .zeros [1, 2, 4, 64]⟩,
    ⟨42, .zeros [1, 2, 3, 64], .zeros [1, 2, 3, 64]⟩]

/-- The first of them. -/
theorem appends_all_or_nothing_first :
    Machine.Along (appendStep (.shaped ℕ))
      (fun s call => ∀ s', appendStep (.shaped ℕ) s call = .ok s' → AllOrNothing (.shaped ℕ) s s')
      (new.registerRequest 42, []) (reshaped.take 1) := by
  have hfresh : ∀ id slot, (new.registerRequest 42 : KVCacheManager (Tensor ℕ)).requestCaches.lookup
      id = some slot → slot = ⟨none, none, 0⟩ := by
    intro id slot hlookup
    by_cases hid : id = 42
    · subst hid
      rw [registerRequest, AList.lookup_insert] at hlookup
      exact (Option.some.inj hlookup).symm
    · rw [registerRequest, AList.lookup_insert_ne hid] at hlookup
      cases hlookup
  refine (appends_all_or_nothing_iff (.shaped ℕ) hfresh ?_ ?_).2.mpr ⟨?_, fun _ _ => trivial⟩
  · simp [reshaped]
  · intro call hcall
    rw [List.mem_singleton.mp hcall]
    exact ⟨2, rfl, rfl⟩
  · intro slot k v hlookup _ _
    rw [hfresh 42 slot hlookup]
    exact ⟨rfl, rfl⟩

/-- The second one returns an error and leaves the slot without its keys. -/
theorem append_loses_keys :
    ∃ s s', Machine.run (appendStep (.shaped ℕ)) (new.registerRequest 42, [])
        (reshaped.take 1) = .ok s ∧
      appendStep (.shaped ℕ) s ⟨42, .zeros [1, 2, 3, 64], .zeros [1, 2, 3, 64]⟩ = .ok s' ∧
      s'.2 = s.2 ∧ (s.1.getCachedKey 42).isSome ∧ (s'.1.getCachedKey 42).isNone ∧
      ¬ AllOrNothing (.shaped ℕ) s s' := by
  refine ⟨_, _, rfl, rfl, rfl, rfl, rfl, fun h => ?_⟩
  have hsame := congrArg (Option.map fun slot => slot.keyTensor.isSome) (h.unchanged rfl 42)
  cases hsame

end KVCacheManager
end Kyro
