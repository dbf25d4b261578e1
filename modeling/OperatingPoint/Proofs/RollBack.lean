import OperatingPoint.Proofs.CutSteps
import OperatingPoint.Proofs.HandedBack

/-!
# Rolling back

A stepper that has accepted a point leaves its engine there.  Attempts that are made later and find
no solution leave no trace: the solution, the lead and the coupled parameters each go back.

This holds in any arithmetic.  Where a parameter has a value that is equal to the one it is set to,
it keeps what it has, and so `Parameters.Holds` does not tell equal numbers apart.
-/

set_option autoImplicit false

namespace OperatingPoint

open Step

/-! ## Values that are held -/

section

variable {α : Type} [Scalar α] {n : Nat}

/-- The value under a name is a given one, or equal to it as a number. -/
def Parameters.Holds (p : Parameters α) (name : String) (value : α) : Prop :=
  ∃ held, p.get? name = some held ∧ (held = value ∨ (held == value) = true)

namespace Track

variable {t : Track α n} {name other : String} {value u : α}

theorem setParameter_holds (t : Track α n) (name : String) (value : α) :
    (t.setParameter name value).overlay.parameters.Holds name value := by
  rcases t.setParameter_overlay name value with set | ⟨unchanged, old, known, same⟩
  · rw [set]
    exact ⟨value, by rw [Parameters.get?_set, if_pos rfl], .inl rfl⟩
  · rw [unchanged]
    exact ⟨old, known, .inr same⟩

variable {β : Type} {names : β → String} {values : β → α} {list : List β}

theorem setParameters_holds (t : Track α n) (distinct : (list.map names).Nodup) {b : β}
    (mem : b ∈ list) :
    (list.foldl (fun t b ↦ t.setParameter (names b) (values b)) t).overlay.parameters.Holds
      (names b) (values b) := by
  obtain ⟨before, left⟩ := t.exists_get?_setParameters values distinct mem
  obtain ⟨held, known, same⟩ := before.setParameter_holds (names b) (values b)
  exact ⟨held, left.trans known, same⟩

end Track

namespace Stepper

variable {s : Stepper α}

/-- The lead is held at a value, and each coupled parameter at the one that goes with it. -/
structure InPlace (s : Stepper α) (value : α) (p : Parameters α) : Prop where
  lead : p.Holds s.lead.name value
  coupled : ∀ path ∈ s.coupled, p.Holds path.name (path.at (s.fraction value))

theorem setAll_inPlace (distinct : s.names.Nodup) (value : α) (t : Track α n) :
    s.InPlace value (s.setAll value t).overlay.parameters := by
  rw [names, List.nodup_cons] at distinct
  refine ⟨?_, fun path mem ↦ Track.setParameters_holds _ distinct.2 mem⟩
  obtain ⟨held, known, same⟩ := t.setParameter_holds s.lead.name value
  exact ⟨held, by rw [setAll, Track.get?_setParameters_of_notMem _ distinct.1, known], same⟩

end Stepper

end

variable {δ α : Type} [Scalar α] [DirectSolver α] [Device δ α] {n : Nat}

/-- A Newton solve leaves the set-up of its rig alone. -/
theorem Engine.solve_frames (e : Engine δ α n) :
    Ends Engine.solve e (fun _ e' ↦ e.rig.Frames e'.rig) (fun _ e' ↦ e.rig.Frames e'.rig) := by
  let frames (r : Rig δ α n) : Prop := e.rig.Frames r
  have carries : Rig.Carries frames frames frames frames (fun _ ↦ True) fun _ ↦ True :=
    { opens := id
      settles := id
      stops := id
      point := fun _ ↦ trivial
      enter := fun h ↦ (Rig.computeResidual_frames _).mono (fun _ _ ↦ h.trans) fun _ _ ↦ h.trans
      first := fun h ↦ (Rig.computeJacobian_frames _).mono
        (fun _ _ kept ↦ ⟨h.trans kept, fun _ ↦ h.trans kept⟩) fun _ _ ↦ h.trans
      residual := fun h ↦ (Rig.computeResidual_frames _).mono (fun _ _ ↦ h.trans)
        fun _ _ ↦ h.trans
      jacobian := fun h ↦ (Rig.computeJacobian_frames _).mono (fun _ _ ↦ h.trans)
        fun _ _ ↦ h.trans
      newton := fun h mayReuse ↦ (Rig.computeNewton_frames _ mayReuse).mono
        (fun _ _ kept ↦ ⟨h.trans kept, fun _ ↦ trivial⟩) fun _ _ ↦ h.trans
      move := fun h _ _ _ ↦ h.trans ⟨.refl _, rfl, rfl, rfl, rfl⟩ }
  exact Engine.solve_carries carries (.refl _)

namespace Stepper

variable {s : Stepper α} {e e' : Engine δ α n}

/-- While an attempt solves, its parameters are in place. -/
theorem Attempt.inPlace (distinct : s.names.Nodup) {a : s.Attempt δ n} {outcome : Outcome α}
    (solved : a.solve = .ok outcome e') :
    s.InPlace a.value e'.rig.track.overlay.parameters := by
  rw [((Engine.solve_frames _).ok solved).overlay.parameters]
  exact setAll_inPlace distinct ..

/-- The last of some attempts that have found a solution. -/
def lastFound (trace : List (s.Attempt δ n)) : Option (s.Attempt δ n) :=
  (trace.filter Attempt.converged).getLast?

theorem lastFound_singleton {a : s.Attempt δ n} (converged : a.converged = true) :
    lastFound [a] = some a := by
  rw [lastFound, List.filter_cons_of_pos converged]
  rfl

theorem lastFound_cons_of_pos {a b : s.Attempt δ n} (first : a.converged = true)
    (second : b.converged = true) (trace : List (s.Attempt δ n)) :
    lastFound (a :: b :: trace) = lastFound (b :: trace) := by
  rw [lastFound, lastFound, List.filter_cons_of_pos first, List.filter_cons_of_pos second,
    List.getLast?_cons_cons]

theorem lastFound_cons_of_neg {a b : s.Attempt δ n} (first : a.converged = true)
    (second : ¬ b.converged = true) (trace : List (s.Attempt δ n)) :
    lastFound (a :: b :: trace) = lastFound (a :: trace) := by
  rw [lastFound, lastFound, List.filter_cons_of_pos first, List.filter_cons_of_pos first,
    List.filter_cons_of_neg second]

/-- An engine that is where an attempt has found its solution: at the same point, and with the
parameters that were in place then. -/
structure BackAt (a : s.Attempt δ n) (e : Engine δ α n) : Prop where
  x : e.iterate.x = a.left.iterate.x
  solvedWith : s.InPlace a.value a.left.rig.track.overlay.parameters
  inPlace : s.InPlace a.value e.rig.track.overlay.parameters

theorem BackAt.succeeded (distinct : s.names.Nodup) {a : s.Attempt δ n} {outcome : Outcome α}
    (solved : a.solve = .ok outcome e') : BackAt a e'.succeeded := by
  have here := a.left_of_ok solved
  have inPlace := a.inPlace distinct solved
  refine ⟨?_, by rwa [here], ?_⟩
  · rw [here]
    exact Rig.handedOver_keeps (P := fun r ↦ r.track.x = e'.rig.track.x) rfl rfl
  · exact Rig.handedOver_keeps (P := fun r ↦ s.InPlace a.value r.track.overlay.parameters)
      inPlace inPlace

theorem BackAt.wentBack (distinct : s.names.Nodup) {a : s.Attempt δ n} {e₀ : Engine δ α n}
    (there : BackAt a e₀) (e : Engine δ α n) :
    BackAt a (s.wentBack a.value e₀.iterate.x e) :=
  ⟨(wentBack_x ..).trans there.x, there.solvedWith, setAll_inPlace distinct ..⟩

/-- Attempts that start from a solution leave the engine at the last one.  The induction keeps the
attempt that has found the solution at hand. -/
theorem Course.rollsBack (distinct : s.names.Nodup) {attempts : Nat} {step : α} {x : Vector α n}
    {report report' : ContinuationReport α} {trace : List (s.Attempt δ n)}
    (h : s.Course attempts step x report e trace (.ok report' e')) {found : s.Attempt δ n}
    (converged : found.converged = true) (value : report.value = found.value)
    (there : BackAt found e) (from_x : e.iterate.x = x) :
    ∃ a, lastFound (found :: trace) = some a ∧ report'.value = a.value ∧ BackAt a e' := by
  generalize same : EStateM.Result.ok report' e' = result at h
  induction h generalizing found with
  | usedUp =>
    cases same
    exact ⟨found, lastFound_singleton converged, value, there⟩
  | stopped => cases same
  | @arrived attempts step x report e outcome e₁ a here solved converged' =>
    cases same
    have second := (a.converged_of_ok solved).trans converged'
    refine ⟨a, ?_, rfl, .succeeded distinct solved⟩
    rw [lastFound_cons_of_pos converged second, lastFound_singleton second]
  | @onward attempts step x report e outcome e₁ rest result a here solved converged' short course
      ih =>
    have second := (a.converged_of_ok solved).trans converged'
    rw [lastFound_cons_of_pos converged second]
    exact ih second rfl (.succeeded distinct solved) rfl same
  | @givenUp attempts step x report e outcome e₁ a here solved unconverged small =>
    cases same
    have second : ¬ a.converged = true := by simp [a.converged_of_ok solved, unconverged]
    rw [lastFound_cons_of_neg converged second]
    refine ⟨found, lastFound_singleton converged, value, ?_⟩
    rw [value, ← from_x]
    exact there.wentBack distinct _
  | @back attempts step x report e outcome e₁ rest result a here solved unconverged large course
      ih =>
    have second : ¬ a.converged = true := by simp [a.converged_of_ok solved, unconverged]
    rw [lastFound_cons_of_neg converged second]
    refine ih converged value ?_ (wentBack_x ..) same
    rw [value, ← from_x]
    exact there.wentBack distinct _

/-- A run that has accepted a point is where the last of its attempts with a solution has been:  its
report has the lead value of that attempt, the point is the solution, and the parameters have the
values that they had in that solve. -/
theorem rolled_back_of_run (distinct : s.names.Nodup) {report : ContinuationReport α}
    (run : s.run e = .ok report e') (some_accepted : 1 ≤ report.accepted) :
    ∃ a outcome e₁, lastFound (s.attempts e) = some a ∧ a.solve = .ok outcome e₁ ∧
      outcome.converged = true ∧ report.value = a.value ∧ e'.iterate.x = e₁.iterate.x ∧
      e'.rig.track.overlay.parameters.Holds s.lead.name report.value ∧
      ∀ path ∈ s.coupled, let value := path.at (s.fraction a.value)
        e₁.rig.track.overlay.parameters.Holds path.name value ∧
          e'.rig.track.overlay.parameters.Holds path.name value := by
  have opening := s.opening e
  rw [run] at opening
  have last : ∃ a, lastFound (s.attempts e) = some a ∧ report.value = a.value ∧ BackAt a e' := by
    generalize s.attempts e = trace at opening ⊢
    cases opening with
    | unsolved => exact absurd some_accepted (Nat.not_succ_le_zero _)
    | @arrived a outcome e₁ here solved converged =>
      exact ⟨a, lastFound_singleton ((a.converged_of_ok solved).trans converged), by rw [here],
        .succeeded distinct solved⟩
    | @onward a outcome e₁ rest _ here solved converged short course =>
      exact course.rollsBack distinct ((a.converged_of_ok solved).trans converged) (by rw [here])
        (.succeeded distinct solved) rfl
  obtain ⟨a, last, value, there⟩ := last
  have converged : a.converged = true :=
    (List.mem_filter.1 (List.mem_of_getLast? last)).2
  cases solved : a.solve with
  | error stop e₁ =>
    rw [a.converged_of_error solved] at converged
    cases converged
  | ok outcome e₁ =>
    have here := a.left_of_ok solved
    refine ⟨a, outcome, e₁, last, solved, (a.converged_of_ok solved).symm.trans converged, value,
      ?_, ?_, fun path mem ↦ ⟨?_, there.inPlace.coupled path mem⟩⟩
    · rw [there.x, here]
    · rw [value]
      exact there.inPlace.lead
    · rw [← here]
      exact there.solvedWith.coupled path mem

/-- A current that would fade along with the conductance, but flows on. -/
def fadingTogether : Stepper ExtendedRat :=
  { fadingConductance with coupled := [⟨"current", .number 2, 1⟩] }

/-- Three attempts at a conductance of zero leave no trace. -/
theorem rolled_back_of_run_fadingTogether : ∃ report e' a,
    fadingTogether.run carryingCurrent = .ok report e' ∧
      report.accepted = 2 ∧ report.rejected = 3 ∧ report.value = 0.5 ∧
      lastFound (fadingTogether.attempts carryingCurrent) = some a ∧
      e'.iterate.x = a.left.iterate.x ∧
      e'.rig.track.overlay.parameters.Holds "conductance" 0.5 ∧
      e'.rig.track.overlay.parameters.Holds "current" 1.5 := by
  have known : Ends fadingTogether.run carryingCurrent
      (fun report _ ↦ report.accepted = 2 ∧ report.rejected = 3 ∧ report.value = 0.5)
      fun _ _ ↦ False := by
    decide +kernel
  cases run : fadingTogether.run carryingCurrent with
  | error stop e' => exact (known.error run).elim
  | ok report e' =>
    obtain ⟨accepted, rejected, value⟩ := known.ok run
    obtain ⟨a, outcome, e₁, last, solved, -, value', x, lead, coupled⟩ :=
      rolled_back_of_run (by decide) run (accepted ▸ Nat.le_succ 1)
    have current := (coupled ⟨"current", .number 2, 1⟩ (.head _)).2
    have gone : (⟨"current", .number 2, 1⟩ : ParameterPath ExtendedRat).at
        (fadingTogether.fraction 0.5) = 1.5 := by
      decide +kernel
    rw [← value', value] at current
    dsimp only at current
    rw [gone] at current
    rw [value] at lead
    exact ⟨report, e', a, rfl, accepted, rejected, value, last,
      by rw [x, a.left_of_ok solved], lead, current⟩

end Stepper

end OperatingPoint
