import Mathlib.Data.List.Forall2
import Mathlib.Tactic.TypeStar

/-!
# Runs of a fallible machine

A machine is a step function that takes a state and an input and either fails or gives the next
state. A run feeds it a list of inputs and ends at the first failure. The rules below are the
inductions over runs: an invariant that every step keeps holds in the last state, also one that
speaks of the inputs so far, a machine whose steps never fail under its invariant runs to the end,
one that fails at some steps fails exactly where there is one of them, a machine whose steps are
steps of another one has only runs of the other one, two machines whose steps agree have runs that
agree, a run stays in good states as long as its steps meet the condition that keeps them good, a
record of what the steps emit is good as far as the steps are, and it is no longer than what the
steps have to pay for it with.
-/

namespace Machine

universe u v

theorem bind_eq_ok {φ : Type v} {α β : Type u} {x : Except φ α} {f : α → Except φ β} {b : β} :
    x >>= f = .ok b ↔ ∃ a, x = .ok a ∧ f a = .ok b := by
  cases x with
  | error e => simp [bind, Except.bind]
  | ok a => simp [bind, Except.bind]

@[simp] theorem ok_bind {φ : Type v} {α β : Type u} (a : α) (f : α → Except φ β) :
    (Except.ok a >>= f) = f a := rfl

theorem map_eq_ok {φ : Type v} {α β : Type u} {x : Except φ α} {f : α → β} {b : β} :
    x.map f = .ok b ↔ ∃ a, x = .ok a ∧ f a = b := by
  cases x with
  | error e => simp [Except.map]
  | ok a => simp [Except.map]

theorem bind_ne_error {φ : Type v} {α β : Type u} {x : Except φ α} {f : α → Except φ β} {e : φ}
    (hx : x ≠ .error e) (hf : ∀ a, x = .ok a → f a ≠ .error e) : x >>= f ≠ .error e := by
  cases x with
  | error e' =>
      intro h
      cases h
      exact hx rfl
  | ok a => exact hf a rfl

/-- Whether a computation ends in a state that meets `P` can be run. -/
instance decidableOk {φ : Type v} {α : Type u} {P : α → Prop} [DecidablePred P] :
    ∀ x : Except φ α, Decidable (∃ a, x = .ok a ∧ P a)
  | .ok a => decidable_of_iff (P a) (by simp)
  | .error _ => isFalse (by simp)

instance decidableError {φ : Type v} {α : Type u} {P : φ → Prop} [DecidablePred P] :
    ∀ x : Except φ α, Decidable (∃ e, x = .error e ∧ P e)
  | .ok _ => isFalse (by simp)
  | .error e => decidable_of_iff (P e) (by simp)

variable {σ : Type u} {φ : Type v} {ε : Type*} (next : σ → ε → Except φ σ)

/-- Feed the inputs to the machine one after another. -/
def run : σ → List ε → Except φ σ
  | s, [] => .ok s
  | s, e :: es => next s e >>= fun s' => run s' es

theorem run_eq_foldlM (s : σ) (es : List ε) : run next s es = es.foldlM next s := by
  induction es generalizing s with
  | nil => rfl
  | cons e es ih =>
      rw [List.foldlM_cons, run]
      exact congrArg _ (funext ih)

/-- A loop whose passes never fail. -/
theorem foldlM_eq_foldl {f : σ → ε → Except φ σ} {g : σ → ε → σ} {es : List ε}
    (h : ∀ s, ∀ e ∈ es, f s e = .ok (g s e)) (s : σ) : es.foldlM f s = .ok (es.foldl g s) := by
  induction es generalizing s with
  | nil => rfl
  | cons e es ih =>
      rw [List.foldlM_cons, h s e List.mem_cons_self]
      exact ih (fun s' e' he' => h s' e' (.tail e he')) _

/-- Every step of the run starts from a state and an input that meet `P`. -/
def Along (P : σ → ε → Prop) : σ → List ε → Prop
  | _, [] => True
  | s, e :: es => P s e ∧ ∀ s', next s e = .ok s' → Along P s' es

variable {next}

theorem run_cons {s : σ} {e : ε} {es : List ε} {t : σ} :
    run next s (e :: es) = .ok t ↔ ∃ s', next s e = .ok s' ∧ run next s' es = .ok t :=
  bind_eq_ok

theorem run_snoc {s t u : σ} {es : List ε} {e : ε} (hrun : run next s es = .ok t)
    (hstep : next t e = .ok u) : run next s (es ++ [e]) = .ok u := by
  induction es generalizing s with
  | nil =>
      cases hrun
      exact run_cons.mpr ⟨u, hstep, rfl⟩
  | cons e' es ih =>
      obtain ⟨s', hfirst, hrest⟩ := run_cons.mp hrun
      exact run_cons.mpr ⟨s', hfirst, ih hrest⟩

theorem Along.and {P Q : σ → ε → Prop} {s : σ} {es : List ε} (hP : Along next P s es)
    (hQ : Along next Q s es) : Along next (fun s e => P s e ∧ Q s e) s es := by
  induction es generalizing s with
  | nil => trivial
  | cons e es ih => exact ⟨⟨hP.1, hQ.1⟩, fun s' hstep => ih (hP.2 s' hstep) (hQ.2 s' hstep)⟩

/-- A run whose inputs need no condition. -/
theorem along_true (s : σ) (es : List ε) : Along next (fun _ _ => True) s es := by
  induction es generalizing s with
  | nil => trivial
  | cons e es ih => exact ⟨trivial, fun s' _ => ih s'⟩

/-- A condition on the inputs alone. -/
theorem along_of_forall {P : ε → Prop} {es : List ε} (h : ∀ e ∈ es, P e) (s : σ) :
    Along next (fun _ e => P e) s es := by
  induction es generalizing s with
  | nil => trivial
  | cons e es ih =>
      exact ⟨h e List.mem_cons_self, fun s' _ => ih (fun e' he' => h e' (.tail e he')) s'⟩

instance Along.decidable {P : σ → ε → Prop} [∀ s e, Decidable (P s e)] :
    ∀ (s : σ) (es : List ε), Decidable (Along next P s es)
  | _, [] => isTrue trivial
  | s, e :: es =>
    match hstep : next s e with
    | .error _ => decidable_of_iff (P s e) (by simp [Along, hstep])
    | .ok s' =>
      have := Along.decidable (P := P) s' es
      decidable_of_iff (P s e ∧ Along next P s' es) (by simp [Along, hstep])

/-- **The invariant rule.** What holds at the start and is kept by every step that meets `P` holds
where the run ends. -/
theorem run_invariant {P : σ → ε → Prop} {I : σ → Prop}
    (hkeep : ∀ s e s', I s → P s e → next s e = .ok s' → I s')
    {s t : σ} {es : List ε} (hstart : I s) (halong : Along next P s es)
    (hrun : run next s es = .ok t) : I t := by
  induction es generalizing s with
  | nil =>
      cases hrun
      exact hstart
  | cons e es ih =>
      obtain ⟨s', hstep, hrest⟩ := run_cons.mp hrun
      exact ih (hkeep s e s' hstart halong.1 hstep) (halong.2 s' hstep) hrest

/-- **The progress rule.** A machine that never fails under its invariant runs to the end. -/
theorem run_progress {P : σ → ε → Prop} {I : σ → Prop}
    (hstep : ∀ s e, I s → P s e → ∃ s', next s e = .ok s' ∧ I s')
    {s : σ} {es : List ε} (hstart : I s) (halong : Along next P s es) :
    ∃ t, run next s es = .ok t ∧ I t := by
  induction es generalizing s with
  | nil => exact ⟨s, rfl, hstart⟩
  | cons e es ih =>
      obtain ⟨s', hnext, hs'⟩ := hstep s e hstart halong.1
      obtain ⟨t, hrun, ht⟩ := ih hs' (halong.2 s' hnext)
      exact ⟨t, run_cons.mpr ⟨s', hnext, hrun⟩, ht⟩

/-- **The failure rule.** Where a step from a state that meets the invariant fails exactly when it does
not meet `P`, and then with an error in `E`, a run fails exactly when one of its steps does not meet
`P`, and then with such an error. -/
theorem run_failure {P : σ → ε → Prop} {I : σ → Prop} {E : φ → Prop}
    (hkeep : ∀ s e s', I s → next s e = .ok s' → I s')
    (hok : ∀ s e, I s → P s e → ∃ s', next s e = .ok s')
    (herror : ∀ s e, I s → ¬ P s e → ∃ f, next s e = .error f ∧ E f)
    {s : σ} {es : List ε} (hstart : I s) :
    ((∃ t, run next s es = .ok t) ↔ Along next P s es) ∧ ∀ f, run next s es = .error f → E f := by
  induction es generalizing s with
  | nil => exact ⟨⟨fun _ => trivial, fun _ => ⟨s, rfl⟩⟩, fun f h => by cases h⟩
  | cons e es ih =>
      by_cases hP : P s e
      · obtain ⟨s', hnext⟩ := hok s e hstart hP
        obtain ⟨hiff, hfault⟩ := ih (hkeep s e s' hstart hnext)
        rw [run, hnext, ok_bind]
        refine ⟨hiff.trans ⟨fun h => ⟨hP, fun t ht => ?_⟩, fun h => h.2 s' hnext⟩, hfault⟩
        rw [hnext] at ht
        cases ht
        exact h
      · obtain ⟨f, hnext, hE⟩ := herror s e hstart hP
        rw [run, hnext]
        refine ⟨⟨?_, fun h => absurd h.1 hP⟩, fun f' h => ?_⟩
        · rintro ⟨t, ht⟩
          cases ht
        · cases h
          exact hE

/-- **The history rule.** The invariant may speak of the inputs so far. -/
theorem run_history {I : List ε → σ → Prop}
    (hkeep : ∀ es s e s', I es s → next s e = .ok s' → I (es ++ [e]) s')
    {s t : σ} {es : List ε} (hstart : I [] s) (hrun : run next s es = .ok t) : I es t := by
  have hrest : ∀ before, I before s → I (before ++ es) t := by
    clear hstart
    induction es generalizing s with
    | nil =>
        intro before h
        cases hrun
        rwa [List.append_nil]
    | cons e es ih =>
        intro before h
        obtain ⟨s', hstep, hrest⟩ := run_cons.mp hrun
        rw [List.append_cons]
        exact ih hrest _ (hkeep before s e s' h hstep)
  exact hrest [] hstart

/-- **The refinement rule.** Where every step of a machine is a step of another one with an input that
matches, every run is a run of the other one with inputs that match. -/
theorem run_refines {φ' : Type*} {ε' : Type*} {next' : σ → ε' → Except φ' σ} {M : ε → ε' → Prop}
    {P : σ → ε → Prop} {P' : σ → ε' → Prop}
    (hstep : ∀ s e s', next s e = .ok s' → ∃ e', M e e' ∧ next' s e' = .ok s')
    (hmatch : ∀ s e e', M e e' → P s e → P' s e')
    {s t : σ} {es : List ε} (halong : Along next P s es) (hrun : run next s es = .ok t) :
    ∃ es', List.Forall₂ M es es' ∧ Along next' P' s es' ∧ run next' s es' = .ok t := by
  induction es generalizing s with
  | nil =>
      cases hrun
      exact ⟨[], .nil, trivial, rfl⟩
  | cons e es ih =>
      obtain ⟨s', hnext, hrest⟩ := run_cons.mp hrun
      obtain ⟨e', he, hnext'⟩ := hstep s e s' hnext
      obtain ⟨es', hes, halong', hrun'⟩ := ih (halong.2 s' hnext) hrest
      refine ⟨e' :: es', .cons he hes, ⟨hmatch s e e' he halong.1, fun t ht => ?_⟩, ?_⟩
      · rw [hnext'] at ht
        cases ht
        exact halong'
      · exact run_cons.mpr ⟨s', hnext', hrun'⟩

/-! ### Two machines side by side -/

/-- Two computations that fail alike, or give results in relation. -/
inductive Paired {τ : Type*} (R : σ → τ → Prop) : Except φ σ → Except φ τ → Prop
  | ok {s : σ} {t : τ} (h : R s t) : Paired R (.ok s) (.ok t)
  | error (e : φ) : Paired R (.error e) (.error e)

section Paired

variable {τ α β : Type u} {R : σ → τ → Prop} {S : α → β → Prop}

theorem Paired.bind {x : Except φ σ} {y : Except φ τ} (h : Paired R x y) {f : σ → Except φ α}
    {g : τ → Except φ β} (hnext : ∀ s t, x = .ok s → R s t → Paired S (f s) (g t)) :
    Paired S (x >>= f) (y >>= g) := by
  cases h with
  | ok hrel => exact hnext _ _ rfl hrel
  | error e => exact .error e

theorem Paired.map {x : Except φ σ} {y : Except φ τ} (h : Paired R x y) {f : σ → α} {g : τ → β}
    (hnext : ∀ s t, R s t → S (f s) (g t)) : Paired S (x.map f) (y.map g) := by
  cases h with
  | ok hrel => exact .ok (hnext _ _ hrel)
  | error e => exact .error e

theorem Paired.map_eq {x : Except φ σ} {y : Except φ τ} (h : Paired R x y) {f : σ → α} {g : τ → α}
    (heq : ∀ s t, R s t → f s = g t) : x.map f = y.map g := by
  cases h with
  | ok hrel => exact congrArg Except.ok (heq _ _ hrel)
  | error e => rfl

theorem Paired.imp {R' : σ → τ → Prop} {x : Except φ σ} {y : Except φ τ} (h : Paired R x y)
    (himp : ∀ s t, R s t → R' s t) : Paired R' x y := by
  cases h with
  | ok hrel => exact .ok (himp _ _ hrel)
  | error e => exact .error e

theorem paired_refl {x : Except φ σ} : Paired Eq x x := by
  cases x with
  | ok s => exact .ok rfl
  | error e => exact .error e

/-- **The pairing rule.** Where related states have related steps, related states have related
runs. -/
theorem run_paired {τ : Type u} {R : σ → τ → Prop} {next' : τ → ε → Except φ τ}
    {P : σ → ε → Prop} (hstep : ∀ s t e, R s t → P s e → Paired R (next s e) (next' t e)) {s : σ}
    {t : τ} {es : List ε} (hstart : R s t) (halong : Along next P s es) :
    Paired R (run next s es) (run next' t es) := by
  induction es generalizing s t with
  | nil => exact .ok hstart
  | cons e es ih =>
      refine (hstep s t e hstart halong.1).bind fun s' t' hnext hrel => ?_
      exact ih hrel (halong.2 s' hnext)

end Paired

/-- **The condition rule.** Where a step keeps a good state good exactly when it meets `P`, and
never makes a bad one good, a run ends in a good state exactly when all its steps meet `P`. -/
theorem run_good_iff {P Q : σ → ε → Prop} {I G : σ → Prop}
    (hkeep : ∀ s e s', I s → Q s e → next s e = .ok s' → I s')
    (hgood : ∀ s e s', I s → Q s e → next s e = .ok s' → (G s' ↔ G s ∧ P s e))
    {s t : σ} {es : List ε} (hstart : I s) (halong : Along next Q s es)
    (hrun : run next s es = .ok t) : G t ↔ G s ∧ Along next P s es := by
  induction es generalizing s with
  | nil =>
      cases hrun
      simp [Along]
  | cons e es ih =>
      obtain ⟨s', hstep, hrest⟩ := run_cons.mp hrun
      rw [ih (hkeep _ _ _ hstart halong.1 hstep) (halong.2 s' hstep) hrest,
        hgood _ _ _ hstart halong.1 hstep, Along]
      simp only [hstep, Except.ok.injEq, forall_eq', and_assoc]

/-- **The step rule.** Where a step from a good state meets `R` exactly when it meets `P`, and `P`
keeps good states good, all steps of a run meet `R` exactly when they all meet `P`. -/
theorem along_step_iff {P Q : σ → ε → Prop} {R : σ → ε → σ → Prop} {I G : σ → Prop}
    (hkeep : ∀ s e s', I s → Q s e → next s e = .ok s' → I s')
    (hgood : ∀ s e s', I s → G s → Q s e → P s e → next s e = .ok s' → G s')
    (hstep : ∀ s e s', I s → G s → Q s e → next s e = .ok s' → (R s e s' ↔ P s e))
    {s t : σ} {es : List ε} (hstart : I s) (hs : G s) (halong : Along next Q s es)
    (hrun : run next s es = .ok t) :
    Along next (fun s e => ∀ s', next s e = .ok s' → R s e s') s es ↔ Along next P s es := by
  induction es generalizing s with
  | nil => exact Iff.rfl
  | cons e es ih =>
      obtain ⟨s', hnext, hrest⟩ := run_cons.mp hrun
      have hiff := hstep s e s' hstart hs halong.1 hnext
      have htail := fun hP : P s e =>
        ih (hkeep s e s' hstart halong.1 hnext) (hgood s e s' hstart hs halong.1 hP hnext)
          (halong.2 s' hnext) hrest
      simp only [Along, hnext, Except.ok.injEq, forall_eq']
      constructor
      · rintro ⟨hR, hall⟩
        exact ⟨hiff.mp hR, (htail (hiff.mp hR)).mp hall⟩
      · rintro ⟨hP, hall⟩
        exact ⟨hiff.mpr hP, (htail hP).mpr hall⟩

/-- **The reachability rule.** Where a step from a good state ends in a good one exactly when it
meets `P`, a run goes through good states only exactly when all its steps meet `P`. -/
theorem along_good_iff {P Q : σ → ε → Prop} {I G : σ → Prop}
    (hkeep : ∀ s e s', I s → Q s e → next s e = .ok s' → I s')
    (hgood : ∀ s e s', I s → G s → Q s e → next s e = .ok s' → (G s' ↔ P s e))
    {s t : σ} {es : List ε} (hstart : I s) (hs : G s) (halong : Along next Q s es)
    (hrun : run next s es = .ok t) :
    Along next (fun s e => ∀ s', next s e = .ok s' → G s') s es ↔ Along next P s es :=
  along_step_iff (R := fun _ _ s' => G s') hkeep
    (fun s e s' hI hG hQ hP hnext => (hgood s e s' hI hG hQ hnext).mpr hP) hgood hstart hs halong
    hrun

/-! ### Records

A machine that also keeps, in order, what its steps emit. -/

variable {ω : Type u} {emit : σ → ε → List ω}

/-- A step of the recording machine: what it emits depends on the state and the input alone. -/
def recorded (next : σ → ε → Except φ σ) (emit : σ → ε → List ω) (s : σ × List ω) (e : ε) :
    Except φ (σ × List ω) := do
  let s' ← next s.1 e
  return (s', s.2 ++ emit s.1 e)

theorem recorded_eq_ok {s t : σ × List ω} {e : ε} :
    recorded next emit s e = .ok t ↔ next s.1 e = .ok t.1 ∧ t.2 = s.2 ++ emit s.1 e := by
  rw [recorded, bind_eq_ok]
  constructor
  · rintro ⟨s', hstep, heq⟩
    cases heq
    exact ⟨hstep, rfl⟩
  · rintro ⟨hstep, hrecord⟩
    exact ⟨t.1, hstep, by rw [← hrecord]; rfl⟩

/-- Recording does not change the run. -/
theorem run_of_recorded {s t : σ × List ω} {es : List ε}
    (hrun : run (recorded next emit) s es = .ok t) : run next s.1 es = .ok t.1 := by
  induction es generalizing s with
  | nil =>
      cases hrun
      rfl
  | cons e es ih =>
      obtain ⟨s', hstep, hrest⟩ := run_cons.mp hrun
      exact run_cons.mpr ⟨s'.1, (recorded_eq_ok.mp hstep).1, ih hrest⟩

/-- Every run can be recorded. -/
theorem exists_recorded (emit : σ → ε → List ω) {s t : σ} {es : List ε}
    (hrun : run next s es = .ok t) (record : List ω) :
    ∃ record', run (recorded next emit) (s, record) es = .ok (t, record') := by
  induction es generalizing s record with
  | nil =>
      cases hrun
      exact ⟨record, rfl⟩
  | cons e es ih =>
      obtain ⟨s', hstep, hrest⟩ := run_cons.mp hrun
      obtain ⟨record', hrecord⟩ := ih hrest (record ++ emit s e)
      exact ⟨record', run_cons.mpr ⟨_, recorded_eq_ok.mpr ⟨hstep, rfl⟩, hrecord⟩⟩

theorem along_recorded {P : σ → ε → Prop} {s : σ × List ω} {es : List ε} :
    Along (recorded next emit) (fun s e => P s.1 e) s es ↔ Along next P s.1 es := by
  induction es generalizing s with
  | nil => exact Iff.rfl
  | cons e es ih =>
      simp only [Along, recorded_eq_ok, ih]
      refine and_congr_right fun _ => ⟨fun h s' hstep => ?_, fun h s' hstep => h s'.1 hstep.1⟩
      exact h (s', s.2 ++ emit s.1 e) ⟨hstep, rfl⟩

/-- **The record rule.** Where a step emits nothing bad exactly when it meets `P`, a run has a good
record exactly when all its steps meet `P`. -/
theorem forall_mem_record_iff {P Q : σ → ε → Prop} {I : σ → Prop} {Good : ω → Prop}
    (hkeep : ∀ s e s', I s → Q s e → next s e = .ok s' → I s')
    (hemit : ∀ s e s', I s → Q s e → next s e = .ok s' → ((∀ o ∈ emit s e, Good o) ↔ P s e))
    {s t : σ × List ω} {es : List ε} (hstart : I s.1) (halong : Along next Q s.1 es)
    (hrun : run (recorded next emit) s es = .ok t) :
    (∀ o ∈ t.2, Good o) ↔ (∀ o ∈ s.2, Good o) ∧ Along next P s.1 es := by
  induction es generalizing s with
  | nil =>
      cases hrun
      simp [Along]
  | cons e es ih =>
      obtain ⟨s', hstep, hrest⟩ := run_cons.mp hrun
      obtain ⟨hnext, hrecord⟩ := recorded_eq_ok.mp hstep
      rw [ih (hkeep _ _ _ hstart halong.1 hnext) (halong.2 _ hnext) hrest, hrecord, Along,
        ← hemit _ _ _ hstart halong.1 hnext]
      simp only [List.forall_mem_append, hnext, Except.ok.injEq, forall_eq', and_assoc]

/-- **The payment rule.** As long as the state stays in `K`, the steps pay for what they emit from
what there is to pay with, so a run that ends in `K` has emitted no more than there was. -/
theorem record_length_le {P : σ → ε → Prop} {I K : σ → Prop} {D : σ → ℕ → Prop}
    (hkeep : ∀ s e s', I s → P s e → next s e = .ok s' → I s')
    (hpay : ∀ s e s' n, I s → P s e → next s e = .ok s' → K s' → D s n →
      ∃ m, D s' m ∧ (emit s e).length + m ≤ n)
    (hback : ∀ s e s', I s → P s e → next s e = .ok s' → K s' → K s)
    {s t : σ} {es : List ε} {record : List ω} {n : ℕ} (hstart : I s) (halong : Along next P s es)
    (hpurse : D s n) (hrun : run (recorded next emit) (s, []) es = .ok (t, record))
    (hlast : K t) : record.length ≤ n := by
  have hpaid : I t ∧ (K t → ∃ m, D t m ∧ record.length + m ≤ n) := by
    apply run_invariant (I := fun w : σ × List ω => I w.1 ∧ (K w.1 → ∃ m, D w.1 m ∧
      w.2.length + m ≤ n)) (P := fun w e => P w.1 e) _ _ (along_recorded.mpr halong) hrun
    · intro w e w' hw hP hstep
      obtain ⟨hnext, hrecord⟩ := recorded_eq_ok.mp hstep
      refine ⟨hkeep _ _ _ hw.1 hP hnext, fun hK => ?_⟩
      obtain ⟨m, hm, hle⟩ := hw.2 (hback _ _ _ hw.1 hP hnext hK)
      obtain ⟨m', hm', hpays⟩ := hpay _ _ _ m hw.1 hP hnext hK hm
      refine ⟨m', hm', ?_⟩
      rw [hrecord, List.length_append]
      omega
    · exact ⟨hstart, fun _ => ⟨n, hpurse, Nat.le_of_eq (Nat.zero_add n)⟩⟩
  obtain ⟨m, _, hle⟩ := hpaid.2 hlast
  omega

end Machine
