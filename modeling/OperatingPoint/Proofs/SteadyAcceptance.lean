import OperatingPoint.Proofs.CheckHistories

/-!
# What a steady state is accepted for

In a steady state the tests on rates accept nothing.  An iterate is accepted for a residual that is
nothing but rounding, or for an update and a residual that are both below their tolerances, as soon
as it is *eligible*: it shows numbers only, no inner solve has failed, and the devices are not given
more time.  The norm that stands for the update is that of the Newton direction where the update is
exactly zero, `JudgedBy`.

`Accepts` says this of a snapshot, and it mentions nothing that a battery remembers.
-/

set_option autoImplicit false

namespace OperatingPoint

/-- The verdicts that a steady state may be given. -/
def Verdict.isForSteadyStates : Verdict → Bool
  | .nearConvergence | .smallUpdate | .stalled => false
  | _ => true

/-- What a steady state is told when it is not accepted. -/
def Status.isRefusal : Status → Bool
  | .unconverged => true
  | .converged _ => false
  | .failed v => v.isForSteadyStates

namespace Battery

variable {α : Type} [Scalar α]

/-! ## Acceptance -/

section
variable (c : Communicator α) (o : NewtonOptions α) (snap : Snapshot α)

/-- Nothing that the battery looks at first is in the way of accepting an iterate. -/
structure Eligible : Prop where
  residual : c.allFinite snap.residual = true
  iterate : c.allFinite snap.x = true
  inner : ¬(o.twoLevel = true ∧ snap.innerSolveFailed = true)
  devices : ¬(o.checkDeviceConvergence = true ∧ snap.devicesConverged = false ∧
    snap.iteration < o.maxSteps)

/-- The residual is nothing but rounding. -/
def RoundedOff : Prop :=
  c.normInf snap.residual < o.rhsTol ∧ c.normInf snap.residual < o.machPrecTol

instance : Decidable (RoundedOff c o snap) := inferInstanceAs (Decidable (_ ∧ _))

/-- The norm of a move under the weights at an iterate. -/
def weight (move : Array α) : Except Stop α :=
  c.weighted move snap.x snap.previousPoint o.absTol o.relTol

/-- The norms by which an update may be judged: its own, or that of the Newton direction if its own
is exactly zero and the direction is not. -/
inductive JudgedBy (direction : Except Stop (Option (Array α))) : α → Prop
  | update {w : α} (weighed : weight c o snap (update snap) = .ok w)
    (moved : (w == 0) = false) : JudgedBy direction w
  | direction {w w' : α} {d : Array α} (weighed : weight c o snap (update snap) = .ok w)
    (unmoved : (w == 0) = true) (found : direction = .ok (some d)) (long : 0 < c.normInf d)
    (weighed' : weight c o snap d = .ok w') : JudgedBy direction w'

/-- The update and the residual are both small enough. -/
def Settled (direction : Except Stop (Option (Array α))) : Prop :=
  0 < snap.iteration ∧ c.normInf snap.residual < o.rhsTol ∧
    ∃ w, JudgedBy c o snap direction w ∧ w < o.deltaXTol

/-- The verdicts by which a steady state is accepted. -/
inductive Accepts (direction : Except Stop (Option (Array α))) : Verdict → Prop
  | normTooSmall (eligible : Eligible c o snap) (rounded : RoundedOff c o snap) :
    Accepts direction .normTooSmall
  | normalConvergence (eligible : Eligible c o snap) (unrounded : ¬RoundedOff c o snap)
    (settled : Settled c o snap direction) : Accepts direction .normalConvergence

variable {c o snap} {direction : Except Stop (Option (Array α))}

theorem accepts_normTooSmall_iff :
    Accepts c o snap direction .normTooSmall ↔ Eligible c o snap ∧ RoundedOff c o snap := by
  constructor
  · rintro ⟨eligible, rounded⟩
    exact ⟨eligible, rounded⟩
  · rintro ⟨eligible, rounded⟩
    exact .normTooSmall eligible rounded

theorem accepts_normalConvergence_iff :
    Accepts c o snap direction .normalConvergence ↔
      Eligible c o snap ∧ ¬RoundedOff c o snap ∧ Settled c o snap direction := by
  constructor
  · rintro (_ | ⟨eligible, unrounded, settled⟩)
    exact ⟨eligible, unrounded, settled⟩
  · rintro ⟨eligible, unrounded, settled⟩
    exact .normalConvergence eligible unrounded settled

theorem accepts_iff :
    (∃ v, Accepts c o snap direction v) ↔
      Eligible c o snap ∧ (RoundedOff c o snap ∨ Settled c o snap direction) := by
  constructor
  · rintro ⟨_, ⟨eligible, rounded⟩ | ⟨eligible, -, settled⟩⟩
    · exact ⟨eligible, .inl rounded⟩
    · exact ⟨eligible, .inr settled⟩
  · rintro ⟨eligible, either⟩
    by_cases rounded : RoundedOff c o snap
    · exact ⟨_, .normTooSmall eligible rounded⟩
    · exact ⟨_, .normalConvergence eligible rounded (either.resolve_left rounded)⟩

end

variable {b : Battery α} {snap : Snapshot α} {direction : Except Stop (Option (Array α))}
  {iteration : Nat} {w : α} {v : Verdict}

/-! ## The tests before the first norm -/

/-- An eligible snapshot is put on record, and decided on if it is nothing but rounding. -/
theorem screen_of_eligible (h : Eligible b.communicator b.options snap) :
    b.screen snap = (b.record snap.residual,
      if RoundedOff b.communicator b.options snap then some (.converged .normTooSmall)
      else none) := by
  have seen : ¬((!b.communicator.allFinite snap.residual ||
      !b.communicator.allFinite snap.x) = true) := by
    rw [h.residual, h.iterate]
    exact Bool.false_ne_true
  have inner : ¬((b.options.twoLevel && snap.innerSolveFailed) = true) := by
    rw [Bool.and_eq_true]
    exact h.inner
  have due : ¬((b.options.checkDeviceConvergence && !snap.devicesConverged &&
      decide (snap.iteration < b.options.maxSteps)) = true) := by
    simpa [and_assoc] using h.devices
  unfold screen
  dsimp only
  rw [if_neg seen, if_neg inner]
  refine (if_neg due).trans ?_
  by_cases rounded : RoundedOff b.communicator b.options snap
  · rw [if_pos rounded]
    exact if_pos rounded
  · rw [if_neg rounded]
    exact if_neg rounded

/-- What is not eligible is decided on at once, and not accepted. -/
theorem screen_of_not_eligible (h : ¬Eligible b.communicator b.options snap) :
    ∃ b' status, b.screen snap = (b', some status) ∧ status.isRefusal = true := by
  unfold screen
  dsimp only
  split
  · exact ⟨_, _, rfl, rfl⟩
  · rename_i seen
    split
    · exact ⟨_, _, rfl, rfl⟩
    · rename_i inner
      split
      · exact ⟨_, _, rfl, rfl⟩
      · -- Nothing is left that could be in the way.
        rename_i due
        refine absurd ⟨?_, ?_, ?_, ?_⟩ h
        · simp_all
        · simp_all
        · simpa using inner
        · intro early
          refine due ?_
          simpa [and_assoc] using early

/-! ## The tests on an update -/

/-- In a steady state the last tests accept nothing. -/
theorem conclude_steady (steady : b.transient = false) :
    (b.conclude iteration).2.isRefusal = true := by
  have run := conclude_run b iteration
  generalize b.conclude iteration = p at run
  cases run with
  | near transient | late transient | stagnated transient | counted transient =>
    cases steady.symm.trans transient
  | small =>
    dsimp only
    rw [steady]
    rfl
  | spent | grown | uncounted => rfl

theorem judge_steady (steady : b.transient = false) :
    (w < b.options.deltaXTol ∧ b.maxResidual < b.options.rhsTol →
      (b.judge iteration w).2 = .converged .normalConvergence) ∧
    (¬(w < b.options.deltaXTol ∧ b.maxResidual < b.options.rhsTol) →
      (b.judge iteration w).2.isRefusal = true) := by
  unfold judge
  dsimp only
  refine ⟨fun small ↦ by rw [if_pos small], fun large ↦ ?_⟩
  rw [if_neg large]
  exact conclude_steady steady

/-- A check comes to judging what it is to judge the update by. -/
theorem check_of_judgedBy {b' : Battery α} (screen : b.screen snap = (b', none))
    (alike : b.Alike b') (later : 0 < snap.iteration)
    (judged : JudgedBy b.communicator b.options snap direction w) :
    (b.check snap direction).2 = .ok (b'.judge snap.iteration w).2 := by
  have weigh (move : Array α) : b'.weigh snap move = weight b.communicator b.options snap move := by
    rw [Battery.weigh, weight, alike.communicator, alike.options]
  unfold check
  rw [screen]
  dsimp only
  rw [if_neg (Nat.ne_of_gt later)]
  cases judged with
  | update weighed moved =>
    rw [weigh, weighed]
    dsimp only
    rw [if_neg (Bool.eq_false_iff.1 moved)]
  | direction weighed unmoved found long weighed' =>
    rw [weigh, weighed, found]
    dsimp only
    rw [if_pos unmoved, alike.communicator, if_pos long, weigh, weighed']

/-- What is eligible and more than rounding is judged by the norm of its update, or not accepted. -/
theorem check_of_unrounded (steady : b.transient = false)
    (eligible : Eligible b.communicator b.options snap)
    (unrounded : ¬RoundedOff b.communicator b.options snap) {status : Status}
    (checked : (b.check snap direction).2 = .ok status) :
    (0 < snap.iteration ∧ ∃ w, JudgedBy b.communicator b.options snap direction w ∧
      status = ((b.record snap.residual).judge snap.iteration w).2) ∨
    status.isRefusal = true := by
  have recorded : ∀ {b' o}, b.screen snap = (b', o) → b' = b.record snap.residual ∧ o = none := by
    intro b' o screen
    rw [screen_of_eligible eligible, if_neg unrounded] at screen
    cases screen
    exact ⟨rfl, rfl⟩
  have run := check_run b snap direction
  generalize b.check snap direction = p at run checked
  cases run with
  | screened screen => cases (recorded screen).2
  | initial screen =>
    obtain ⟨rfl, -⟩ := recorded screen
    cases checked
    exact .inr (conclude_steady steady)
  | unweighed => cases checked
  | judged screen later weighed moved =>
    obtain ⟨rfl, -⟩ := recorded screen
    cases checked
    exact .inl ⟨Nat.pos_of_ne_zero later, _, .update weighed moved, rfl⟩
  | stopped => cases checked
  | still =>
    cases checked
    exact .inr rfl
  | unweighedDirection => cases checked
  | judgedDirection screen later weighed unmoved asked long weighed' =>
    obtain ⟨rfl, -⟩ := recorded screen
    cases checked
    exact .inl ⟨Nat.pos_of_ne_zero later, _, .direction weighed unmoved asked long weighed', rfl⟩

/-- In a steady state a check accepts by what it sees of the iterate alone, or refuses. -/
theorem check_steady (steady : b.transient = false) {status : Status}
    (checked : (b.check snap direction).2 = .ok status) :
    (∃ v, status = .converged v ∧ Accepts b.communicator b.options snap direction v) ∨
      status.isRefusal = true := by
  have screened {b' : Battery α} {found : Status} (screen : b.screen snap = (b', some found)) :
      status = found := by
    unfold check at checked
    rw [screen] at checked
    cases checked
    rfl
  by_cases eligible : Eligible b.communicator b.options snap
  · by_cases rounded : RoundedOff b.communicator b.options snap
    · have screen := screen_of_eligible eligible
      rw [if_pos rounded] at screen
      exact .inl ⟨_, screened screen, .normTooSmall eligible rounded⟩
    · obtain ⟨later, w, judged, rfl⟩ | refused :=
        check_of_unrounded steady eligible rounded checked
      · by_cases small : w < b.options.deltaXTol ∧
            b.communicator.normInf snap.residual < b.options.rhsTol
        · exact .inl ⟨_, (judge_steady (b := b.record snap.residual) steady).1 small,
            .normalConvergence eligible rounded ⟨later, small.2, w, judged, small.1⟩⟩
        · exact .inr ((judge_steady (b := b.record snap.residual) steady).2 small)
      · exact .inr refused
  · obtain ⟨b', found, screen, refused⟩ := screen_of_not_eligible eligible
    rw [screened screen]
    exact .inr refused

/-- What is there to be accepted is accepted. -/
theorem check_of_accepts (steady : b.transient = false)
    (accepts : Accepts b.communicator b.options snap direction v) :
    (b.check snap direction).2 = .ok (.converged v) := by
  cases accepts with
  | normTooSmall eligible rounded =>
    unfold check
    rw [screen_of_eligible eligible, if_pos rounded]
  | normalConvergence eligible unrounded settled =>
    obtain ⟨later, small, w, judged, short⟩ := settled
    have screen := screen_of_eligible eligible
    rw [if_neg unrounded] at screen
    rw [check_of_judgedBy screen (b.record_alike _) later judged,
      (judge_steady (b := b.record snap.residual) steady).1 ⟨short, small⟩]

theorem check_converged_iff (steady : b.transient = false) :
    (b.check snap direction).2 = .ok (.converged v) ↔
      Accepts b.communicator b.options snap direction v := by
  refine ⟨fun checked ↦ ?_, check_of_accepts steady⟩
  obtain ⟨_, ⟨⟩, accepts⟩ | refused := check_steady steady checked
  · exact accepts
  · cases refused

theorem verdict_of_check_steady (steady : b.transient = false)
    (checked : (b.check snap direction).2.map Status.verdict? = .ok (some v)) :
    v.isForSteadyStates = true := by
  generalize found : (b.check snap direction).2 = answer at checked
  cases answer with
  | error => cases checked
  | ok status =>
    injection checked with told
    obtain ⟨_, rfl, _ | _⟩ | refused := check_steady steady found
    · cases told
      rfl
    · cases told
      rfl
    · cases status with
      | unconverged => cases told
      | converged => cases refused
      | failed =>
        cases told
        exact refused

/-- **A steady state is accepted for what it is.**  Whatever a battery has been used for before, and
whatever its options are, it accepts an iterate of a steady state if and only if the residual and
the iterate show numbers only, no inner solve has failed that is to be honoured, the devices have
converged as far as that is asked for while there is budget, and either the residual is nothing but
rounding, or there is an update and a norm to judge it by, and residual and norm are below their
tolerances.  That norm is the update's own, or, if that is exactly zero, that of the Newton
direction, if there is one that is not zero.

Earlier checks have no say in this.  The verdicts that are for transients only are never given. -/
theorem steady_acceptance (c : Communicator α) (o : NewtonOptions α) (codes : CodeTable)
    (earlier : List (Use α)) (snap : Snapshot α) (direction : Except Stop (Option (Array α))) :
    let answer := (((new c o codes false).after earlier).check snap direction).2
    ((∃ v, answer = .ok (.converged v)) ↔
      Eligible c o snap ∧ (RoundedOff c o snap ∨ Settled c o snap direction)) ∧
    (answer = .ok (.converged .normTooSmall) ↔ Eligible c o snap ∧ RoundedOff c o snap) ∧
    (answer = .ok (.converged .normalConvergence) ↔
      Eligible c o snap ∧ ¬RoundedOff c o snap ∧ Settled c o snap direction) ∧
    (∀ other v, (((new c o codes false).after other).check snap direction).2 =
      .ok (.converged v) ↔ answer = .ok (.converged v)) ∧
    answer.map Status.verdict? ≠ .ok (some .nearConvergence) ∧
    answer.map Status.verdict? ≠ .ok (some .smallUpdate) ∧
    answer.map Status.verdict? ≠ .ok (some .stalled) := by
  intro answer
  have alike (uses : List (Use α)) := after_alike (new c o codes false) uses
  have accepts (uses : List (Use α)) (v : Verdict) :
      (((new c o codes false).after uses).check snap direction).2 = .ok (.converged v) ↔
        Accepts c o snap direction v := by
    rw [check_converged_iff (alike uses).transient, (alike uses).communicator,
      (alike uses).options]
    rfl
  exact ⟨(exists_congr (accepts earlier)).trans accepts_iff,
    (accepts earlier _).trans accepts_normTooSmall_iff,
    (accepts earlier _).trans accepts_normalConvergence_iff,
    fun other v ↦ (accepts other v).trans (accepts earlier v).symm,
    fun near ↦ absurd (verdict_of_check_steady (alike earlier).transient near) (by decide),
    fun small ↦ absurd (verdict_of_check_steady (alike earlier).transient small) (by decide),
    fun stalled ↦ absurd (verdict_of_check_steady (alike earlier).transient stalled) (by decide)⟩

end Battery

end OperatingPoint
