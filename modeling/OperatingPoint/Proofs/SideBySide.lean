import OperatingPoint.Proofs.Endings

/-!
# Steps side by side

Two runs of a program, or of two programs that differ a little, are compared step by step.  Two
results are *alike* if both are answers or both stop for the same reason, and the states they leave
are related.  Two steps *match* if they have results that are alike wherever they start from related
states.

There is one rule for each way to build a step, so that a program is followed along its text.  The
states that a program looks at go through `Matches.get_bind`: what comes after them may differ in
them, as long as they are related.
-/

set_option autoImplicit false

namespace OperatingPoint

namespace Step

variable {σ σ' τ τ' β β' γ γ' : Type}

/-- Both results are answers that `V` relates, or both stop for the same reason, and the states are
related. -/
inductive Alike (R : σ → σ' → Prop) (V : β → β' → Prop) :
    EStateM.Result Stop σ β → EStateM.Result Stop σ' β' → Prop
  | ok {b : β} {b' : β'} {s : σ} {s' : σ'} (answers : V b b') (states : R s s') :
    Alike R V (.ok b s) (.ok b' s')
  | error {e : Stop} {s : σ} {s' : σ'} (states : R s s') : Alike R V (.error e s) (.error e s')

/-- From related states both steps have results that are alike. -/
def Matches (R : σ → σ' → Prop) (V : β → β' → Prop) (act : Step σ β) (act' : Step σ' β') : Prop :=
  ∀ s s', R s s' → Alike R V (act s) (act' s')

namespace Alike

variable {R : σ → σ' → Prop} {act : Step σ β} {act' : Step σ' β'} {s : σ} {s' : σ'}

/-- What is left is related, however the steps end. -/
theorem after {V : β → β' → Prop} (h : Alike R V (act s) (act' s')) :
    R (Step.after act s) (Step.after act' s') := by
  unfold Step.after
  generalize act s = result, act' s' = result' at h
  cases h with
  | ok _ states => exact states
  | error states => exact states

/-- What is handed back is the same, if the answers are the same up to `f`. -/
theorem value {f : β → β'} (h : Alike R (fun b b' ↦ f b = b') (act s) (act' s')) :
    Step.value act' s' = (Step.value act s).map f := by
  unfold Step.value
  generalize act s = result, act' s' = result' at h
  cases h with
  | ok answers _ => exact congrArg Except.ok answers.symm
  | error _ => rfl

/-- A step on a part of the state, if what it leaves is put back into related states. -/
theorem zoom {S : τ → τ' → Prop} {V : β → β' → Prop} {part : σ → τ} {part' : σ' → τ'}
    {put : σ → τ → σ} {put' : σ' → τ' → σ'} {act : Step τ β} {act' : Step τ' β'}
    (h : Alike S V (act (part s)) (act' (part' s')))
    (leave : ∀ t t', S t t' → R (put s t) (put' s' t')) :
    Alike R V (Step.zoom part put act s) (Step.zoom part' put' act' s') := by
  unfold Step.zoom
  generalize act (part s) = result, act' (part' s') = result' at h
  cases h with
  | ok answers parts => exact .ok answers (leave _ _ parts)
  | error parts => exact .error (leave _ _ parts)

end Alike

namespace Matches

variable {R : σ → σ' → Prop} {V : β → β' → Prop} {W : γ → γ' → Prop}

theorem pure {b : β} {b' : β'} (answers : V b b') :
    Matches R V (pure b : Step σ β) (pure b' : Step σ' β') :=
  fun _ _ h ↦ .ok answers h

/-- A step matches itself where the states are the same. -/
theorem refl (act : Step σ β) : Matches Eq Eq act act := by
  rintro s _ rfl
  cases act s with
  | ok b t => exact .ok rfl rfl
  | error e t => exact .error rfl

theorem throw (e : Stop) : Matches R V (throw e : Step σ β) (throw e : Step σ' β') :=
  fun _ _ h ↦ .error h

/-- After a fault nothing else is done. -/
theorem fault_bind {cause : Fault} {next : β → Step σ γ} {next' : β' → Step σ' γ'} :
    Matches R W (fault cause >>= next) (fault cause >>= next') :=
  fun _ _ h ↦ .error h

theorem bind {act : Step σ β} {act' : Step σ' β'} {next : β → Step σ γ} {next' : β' → Step σ' γ'}
    (h : Matches R V act act') (h' : ∀ b b', V b b' → Matches R W (next b) (next' b')) :
    Matches R W (act >>= next) (act' >>= next') := by
  intro s s' states
  show Alike R W (EStateM.bind act next s) (EStateM.bind act' next' s')
  unfold EStateM.bind
  have h := h s s' states
  generalize act s = result, act' s' = result' at h
  cases h with
  | ok answers states => exact h' _ _ answers _ _ states
  | error states => exact .error states

/-- Steps with the same answers, one after the other. -/
theorem andThen {act : Step σ β} {act' : Step σ' β} {next : β → Step σ γ} {next' : β → Step σ' γ'}
    (h : Matches R Eq act act') (h' : ∀ b, Matches R W (next b) (next' b)) :
    Matches R W (act >>= next) (act' >>= next') :=
  h.bind fun b _ same ↦ same ▸ h' b

theorem get_bind {next : σ → Step σ β} {next' : σ' → Step σ' β'}
    (h : ∀ s s', R s s' → Matches R V (next s) (next' s')) :
    Matches R V (get >>= next) (get >>= next') :=
  fun s s' states ↦ h s s' states s s' states

theorem set {s : σ} {s' : σ'} (h : R s s') :
    Matches R Eq (set s : Step σ PUnit) (set s' : Step σ' PUnit) :=
  fun _ _ _ ↦ .ok rfl h

theorem modify {f : σ → σ} {f' : σ' → σ'} (h : ∀ s s', R s s' → R (f s) (f' s')) :
    Matches R Eq (modify f : Step σ PUnit) (modify f' : Step σ' PUnit) :=
  fun s s' states ↦ .ok rfl (h s s' states)

theorem ite {c c' : Prop} [Decidable c] [Decidable c'] {act other : Step σ β}
    {act' other' : Step σ' β'} (same : c' ↔ c) (h : Matches R V act act')
    (h' : Matches R V other other') :
    Matches R V (if c then act else other) (if c' then act' else other') := by
  by_cases holds : c
  · rw [if_pos holds, if_pos (same.2 holds)]
    exact h
  · rw [if_neg holds, if_neg fun holds' ↦ holds (same.1 holds')]
    exact h'

theorem forIn {ι : Type} {list : List ι} {body : ι → PUnit → Step σ (ForInStep PUnit)}
    {body' : ι → PUnit → Step σ' (ForInStep PUnit)}
    (h : ∀ i u, Matches R Eq (body i u) (body' i u)) (u : PUnit) :
    Matches R Eq (forIn list u body) (forIn list u body') := by
  induction list generalizing u with
  | nil => exact .pure rfl
  | cons i rest ih =>
    rw [List.forIn_cons, List.forIn_cons]
    refine .andThen (h i u) fun step ↦ ?_
    cases step with
    | done u => exact .pure rfl
    | yield u => exact ih u

theorem lift (x : Except Stop β) :
    Matches R Eq (lift x : Step σ β) (lift x : Step σ' β) := by
  cases x with
  | ok b => exact .pure rfl
  | error e => exact .throw e

/-- A result that may be a fault, and what `f` makes of it. -/
theorem orFault_map (x : Except Fault β) (f : β → β') :
    Matches R (fun b b' ↦ x = .ok b ∧ b' = f b) (orFault x : Step σ β)
      (orFault (x.map f) : Step σ' β') := by
  cases x with
  | ok b => exact .pure ⟨rfl, rfl⟩
  | error cause => exact .throw _

theorem orFault (x : Except Fault β) :
    Matches R Eq (orFault x : Step σ β) (orFault x : Step σ' β) := by
  cases x with
  | ok b => exact .pure rfl
  | error cause => exact .throw _

theorem attempt {act : Step σ β} {act' : Step σ' β} (h : Matches R Eq act act') :
    Matches R Eq (attempt act) (attempt act') := by
  intro s s' states
  unfold Step.attempt
  have h := h s s' states
  generalize act s = result, act' s' = result' at h
  cases h with
  | ok answers states => exact .ok (congrArg Except.ok answers) states
  | error states => exact .ok rfl states

/-- A step on a part of the state, if the parts are related, and related parts are put back into
related states. -/
theorem zoom {S : τ → τ' → Prop} {part : σ → τ} {part' : σ' → τ'} {put : σ → τ → σ}
    {put' : σ' → τ' → σ'} {act : Step τ β} {act' : Step τ' β'} (h : Matches S V act act')
    (enter : ∀ s s', R s s' → S (part s) (part' s'))
    (leave : ∀ s s' t t', R s s' → S t t' → R (put s t) (put' s' t')) :
    Matches R V (zoom part put act) (zoom part' put' act') :=
  fun s s' states ↦ .zoom (h _ _ (enter s s' states)) fun t t' ↦ leave s s' t t' states

end Matches

end Step

end OperatingPoint
