import OperatingPoint.Battery

/-!
# What the battery decides

A check either decides on what it sees of the iterate alone, or weighs an update and judges it.
`Screened`, `Concluded` and `CheckRun` list the ways in which this can go, and what is said of a
check elsewhere is proved by cases on them.

The two verdicts of a steady state that a caller may rely on, `normTooSmall` and
`normalConvergence`, are never given at a residual that is not finite or not below the tolerance:
`small_of_check`.  Everything else that a check hands back as a success is about rates.
-/

set_option autoImplicit false

namespace OperatingPoint

/-- The verdicts that are about the residual itself, and not about how it has changed. -/
def Verdict.isAboutResidual : Verdict → Bool
  | .normTooSmall | .normalConvergence => true
  | _ => false

/-- The vectors of a snapshot go together. -/
structure Snapshot.WellSized {α : Type} (snap : Snapshot α) : Prop where
  previousIterate : snap.previousIterate.size = snap.x.size
  previousPoint : snap.previousPoint.size = snap.x.size

namespace Battery

variable {α : Type} {b b' b'' : Battery α} {snap : Snapshot α}

/-- Two batteries are set up in the same way; what they remember may differ. -/
structure Alike (b b' : Battery α) : Prop where
  communicator : b'.communicator = b.communicator
  options : b'.options = b.options
  codes : b'.codes = b.codes
  transient : b'.transient = b.transient

theorem Alike.refl (b : Battery α) : b.Alike b := ⟨rfl, rfl, rfl, rfl⟩

theorem Alike.trans (h : b.Alike b') (h' : b'.Alike b'') : b.Alike b'' :=
  ⟨h'.communicator.trans h.communicator, h'.options.trans h.options, h'.codes.trans h.codes,
    h'.transient.trans h.transient⟩

variable [Scalar α]

theorem reset_alike (b : Battery α) : b.Alike b.reset := ⟨rfl, rfl, rfl, rfl⟩

theorem record_alike (b : Battery α) (residual : Array α) : b.Alike (b.record residual) :=
  ⟨rfl, rfl, rfl, rfl⟩

/-! ## The tests before the first norm -/

/-- Whether a snapshot shows numbers only. -/
def sees (b : Battery α) (snap : Snapshot α) : Bool :=
  b.communicator.allFinite snap.residual && b.communicator.allFinite snap.x

/-- What the tests can come to that need no norm of an update. -/
inductive Screened (b : Battery α) (snap : Snapshot α) : Battery α × Option Status → Prop
  | notFinite (h : b.sees snap = false) :
    Screened b snap ({ b with maxResidual := Scalar.undefined }, some (.failed .nanFail))
  | inner (finite : b.sees snap = true)
    (h : (b.options.twoLevel && snap.innerSolveFailed) = true) :
    Screened b snap (b, some (.failed .innerSolveFailed))
  /-- The devices are given more time. -/
  | devices (finite : b.sees snap = true)
    (h : (b.options.twoLevel && snap.innerSolveFailed) = false)
    (early : b.options.checkDeviceConvergence = true ∧ snap.devicesConverged = false ∧
      snap.iteration < b.options.maxSteps) :
    Screened b snap (b.record snap.residual, some .unconverged)
  | rounding (finite : b.sees snap = true)
    (h : (b.options.twoLevel && snap.innerSolveFailed) = false)
    (small : b.communicator.normInf snap.residual < b.options.rhsTol)
    (smaller : b.communicator.normInf snap.residual < b.options.machPrecTol) :
    Screened b snap (b.record snap.residual, some (.converged .normTooSmall))
  | through (finite : b.sees snap = true)
    (h : (b.options.twoLevel && snap.innerSolveFailed) = false)
    (large : ¬ (b.communicator.normInf snap.residual < b.options.rhsTol ∧
      b.communicator.normInf snap.residual < b.options.machPrecTol)) :
    Screened b snap (b.record snap.residual, none)

theorem screen_run (b : Battery α) (snap : Snapshot α) : Screened b snap (b.screen snap) := by
  unfold screen
  dsimp only
  split
  · rename_i h
    refine .notFinite ?_
    rw [sees, Bool.and_eq_false_iff]
    simpa using h
  · rename_i h
    have finite : b.sees snap = true := by
      rw [sees, Bool.and_eq_true]
      simpa using h
    split
    · rename_i inner
      exact .inner finite inner
    · rename_i outer
      rw [Bool.not_eq_true] at outer
      split
      · rename_i early
        refine .devices finite outer ?_
        simpa [and_assoc] using early
      · split
        · rename_i small
          exact .rounding finite outer small.1 small.2
        · rename_i large
          exact .through finite outer large

theorem Screened.alike {p : Battery α × Option Status} (h : Screened b snap p) : b.Alike p.1 := by
  cases h with
  | notFinite => exact ⟨rfl, rfl, rfl, rfl⟩
  | inner => exact .refl b
  | devices => exact b.record_alike _
  | rounding => exact b.record_alike _
  | through => exact b.record_alike _

/-! ## The tests on an update -/

/-- How many iterations in a row have stagnated, this one included. -/
def recount (b : Battery α) : Nat :=
  if Scalar.abs (b.rate - 1) < b.options.stagnationTolerance then b.stagnant + 1 else 0

/-- What the last tests can come to. -/
inductive Concluded (b : Battery α) (iteration : Nat) : Battery α × Status → Prop
  | near (transient : b.transient = true) (spent : b.options.maxSteps ≤ iteration)
    (rates : b.rate ≤ b.options.maxConvergenceRate ∧
      b.relativeRate ≤ b.options.maxRelativeConvergenceRate) :
    Concluded b iteration (b, .converged .nearConvergence)
  | late (transient : b.transient = true) (spent : b.options.maxSteps ≤ iteration)
    (rates : ¬(b.rate ≤ b.options.maxConvergenceRate ∧
      b.relativeRate ≤ b.options.maxRelativeConvergenceRate)) :
    Concluded b iteration (b, .failed .tooManySteps)
  | small (later : 0 < iteration) (early : iteration < b.options.maxSteps)
    (small : b.wrms < b.options.smallUpdateTol) :
    Concluded b iteration (b, if b.transient then .converged .smallUpdate else .unconverged)
  | spent (steady : b.transient = false) (spent : b.options.maxSteps ≤ iteration) :
    Concluded b iteration (b, .failed .tooManySteps)
  | grown (early : iteration < b.options.maxSteps)
    (large : ¬(0 < iteration ∧ b.wrms < b.options.smallUpdateTol))
    (grown : b.options.maxNormFRatio < b.relativeRate) :
    Concluded b iteration (b, .failed .updateTooBig)
  /-- A transient has stagnated for long enough. -/
  | stagnated (transient : b.transient = true) (later : 0 < iteration)
    (early : iteration < b.options.maxSteps) (long : b.options.stagnationSteps ≤ b.recount) :
    Concluded b iteration ({ b with stagnant := b.recount },
      if b.relativeRate ≤ b.options.maxRelativeConvergenceRate then .converged .nearConvergence
      else .failed .stalled)
  | counted (transient : b.transient = true) (later : 0 < iteration)
    (early : iteration < b.options.maxSteps) (short : b.recount < b.options.stagnationSteps) :
    Concluded b iteration ({ b with stagnant := b.recount }, .unconverged)
  /-- There is no stagnation in a steady state or at the initial iterate. -/
  | uncounted (either : b.transient = false ∨ iteration = 0)
    (early : iteration < b.options.maxSteps)
    (large : ¬(0 < iteration ∧ b.wrms < b.options.smallUpdateTol))
    (bounded : ¬b.options.maxNormFRatio < b.relativeRate) :
    Concluded b iteration (b, .unconverged)

theorem conclude_run (b : Battery α) (iteration : Nat) :
    Concluded b iteration (b.conclude iteration) := by
  unfold conclude
  dsimp only
  split
  · rename_i late
    rw [Bool.and_eq_true, decide_eq_true_eq] at late
    split
    · rename_i rates
      exact .near late.1 late.2 rates
    · rename_i rates
      exact .late late.1 late.2 rates
  · rename_i transient
    split
    · rename_i small
      exact .small small.1 small.2.1 small.2.2
    · rename_i large
      split
      · rename_i late
        rw [Bool.and_eq_true, Bool.not_eq_true', decide_eq_true_eq] at late
        exact .spent late.1 late.2
      · rename_i steady
        have early : iteration < b.options.maxSteps := by
          refine Nat.lt_of_not_le fun late ↦ ?_
          cases kind : b.transient <;> simp [kind, late] at transient steady
        have large : ¬(0 < iteration ∧ b.wrms < b.options.smallUpdateTol) :=
          fun small ↦ large ⟨small.1, early, small.2⟩
        split
        · rename_i grown
          exact .grown early large grown
        · rename_i bounded
          split
          · rename_i later
            rw [Bool.and_eq_true, decide_eq_true_eq] at later
            have same : (if decide (Scalar.abs (b.rate - 1) < b.options.stagnationTolerance) then
                b.stagnant + 1 else 0) = b.recount := by
              simp only [decide_eq_true_eq, recount]
            rw [same]
            split
            · rename_i long
              have found := Concluded.stagnated later.1 later.2 early long
              split
              · rename_i near
                rwa [if_pos near] at found
              · rename_i far
                rwa [if_neg far] at found
            · rename_i short
              exact .counted later.1 later.2 early (Nat.lt_of_not_le short)
          · rename_i first
            refine .uncounted ?_ early large bounded
            cases kind : b.transient with
            | false => exact .inl rfl
            | true => exact .inr (Nat.eq_zero_of_not_pos (by simpa [kind] using first))

theorem conclude_alike (b : Battery α) (iteration : Nat) : b.Alike (b.conclude iteration).1 := by
  have run := conclude_run b iteration
  generalize b.conclude iteration = p at run
  cases run <;> exact ⟨rfl, rfl, rfl, rfl⟩

/-- The last tests are about rates, and not about the residual. -/
theorem conclude_status {iteration : Nat} {v : Verdict}
    (h : (b.conclude iteration).2 = .converged v) : v.isAboutResidual = false := by
  have run := conclude_run b iteration
  generalize b.conclude iteration = p at run h
  cases run with
  | near => cases h; rfl
  | small =>
    dsimp only at h
    split at h <;> cases h
    rfl
  | stagnated =>
    dsimp only at h
    split at h <;> cases h
    rfl
  | late | spent | grown | counted | uncounted => cases h

theorem judge_alike (b : Battery α) (iteration : Nat) (wrms : α) :
    b.Alike (b.judge iteration wrms).1 := by
  unfold judge
  dsimp only
  split
  · exact ⟨rfl, rfl, rfl, rfl⟩
  · have weighed : b.Alike { b with wrms := wrms } := ⟨rfl, rfl, rfl, rfl⟩
    exact weighed.trans (conclude_alike _ _)

theorem small_of_judge {iteration : Nat} {wrms : α} {v : Verdict}
    (h : (b.judge iteration wrms).2 = .converged v) (about : v.isAboutResidual = true) :
    b.maxResidual < b.options.rhsTol := by
  unfold judge at h
  dsimp only at h
  split at h
  · rename_i small
    exact small.2
  · rw [conclude_status h] at about
    cases about

/-! ## A whole check -/

/-- What a check can come to. -/
inductive CheckRun (b : Battery α) (snap : Snapshot α)
    (answer : Except Stop (Option (Array α))) : Battery α × Except Stop Status → Prop
  | screened {b' : Battery α} {status : Status} (screen : b.screen snap = (b', some status)) :
    CheckRun b snap answer (b', .ok status)
  /-- There is no update yet. -/
  | initial {b' : Battery α} (screen : b.screen snap = (b', none)) (first : snap.iteration = 0) :
    CheckRun b snap answer ((b'.conclude 0).1, .ok (b'.conclude 0).2)
  | unweighed {b' : Battery α} (screen : b.screen snap = (b', none)) (later : snap.iteration ≠ 0)
    {e : Stop} (weighed : b'.weigh snap (update snap) = .error e) :
    CheckRun b snap answer (b', .error e)
  | judged {b' : Battery α} (screen : b.screen snap = (b', none)) (later : snap.iteration ≠ 0)
    {w : α} (weighed : b'.weigh snap (update snap) = .ok w) (moved : (w == 0) = false) :
    CheckRun b snap answer
      ((b'.judge snap.iteration w).1, .ok (b'.judge snap.iteration w).2)
  /-- The Newton direction is asked for, and getting it has stopped. -/
  | stopped {b' : Battery α} (screen : b.screen snap = (b', none)) (later : snap.iteration ≠ 0)
    {w : α} (weighed : b'.weigh snap (update snap) = .ok w) (unmoved : (w == 0) = true)
    {e : Stop} (asked : answer = .error e) : CheckRun b snap answer (b', .error e)
  /-- There is no Newton direction, or it is zero. -/
  | still {b' : Battery α} (screen : b.screen snap = (b', none)) (later : snap.iteration ≠ 0)
    {w : α} (weighed : b'.weigh snap (update snap) = .ok w) (unmoved : (w == 0) = true)
    (asked : answer = .ok none ∨
      ∃ d, answer = .ok (some d) ∧ ¬ 0 < b'.communicator.normInf d) :
    CheckRun b snap answer ({ b' with wrms := 0 }, .ok (.failed .wrmsExactZero))
  | unweighedDirection {b' : Battery α} (screen : b.screen snap = (b', none))
    (later : snap.iteration ≠ 0) {w : α} (weighed : b'.weigh snap (update snap) = .ok w)
    (unmoved : (w == 0) = true) {d : Array α} (asked : answer = .ok (some d)) {e : Stop}
    (weighed' : b'.weigh snap d = .error e) : CheckRun b snap answer (b', .error e)
  | judgedDirection {b' : Battery α} (screen : b.screen snap = (b', none))
    (later : snap.iteration ≠ 0) {w : α} (weighed : b'.weigh snap (update snap) = .ok w)
    (unmoved : (w == 0) = true) {d : Array α} (asked : answer = .ok (some d))
    (long : 0 < b'.communicator.normInf d) {w' : α} (weighed' : b'.weigh snap d = .ok w') :
    CheckRun b snap answer
      ((b'.judge snap.iteration w').1, .ok (b'.judge snap.iteration w').2)

theorem check_run (b : Battery α) (snap : Snapshot α)
    (answer : Except Stop (Option (Array α))) : CheckRun b snap answer (b.check snap answer) := by
  unfold check
  split
  · rename_i b' status screen
    exact .screened screen
  · rename_i b' screen
    split
    · rename_i first
      exact .initial screen first
    · rename_i later
      split
      · rename_i e weighed
        exact .unweighed screen later weighed
      · rename_i w weighed
        split
        · rename_i unmoved
          split
          · exact .stopped screen later weighed unmoved rfl
          · exact .still screen later weighed unmoved (.inl rfl)
          · rename_i d
            split
            · rename_i long
              split
              · rename_i e weighed'
                exact .unweighedDirection screen later weighed unmoved rfl weighed'
              · rename_i w' weighed'
                exact .judgedDirection screen later weighed unmoved rfl long weighed'
            · rename_i short
              exact .still screen later weighed unmoved (.inr ⟨d, rfl, short⟩)
        · rename_i moved
          rw [Bool.not_eq_true] at moved
          exact .judged screen later weighed moved

theorem CheckRun.alike {answer : Except Stop (Option (Array α))}
    {p : Battery α × Except Stop Status} (h : CheckRun b snap answer p) : b.Alike p.1 := by
  have screened : ∀ {b' o}, b.screen snap = (b', o) → b.Alike b' := by
    intro b' o screen
    have run := screen_run b snap
    rw [screen] at run
    exact run.alike
  cases h with
  | screened screen => exact screened screen
  | initial screen => exact (screened screen).trans (conclude_alike _ _)
  | unweighed screen => exact screened screen
  | judged screen => exact (screened screen).trans (judge_alike _ _ _)
  | stopped screen => exact screened screen
  | still screen => exact (screened screen).trans ⟨rfl, rfl, rfl, rfl⟩
  | unweighedDirection screen => exact screened screen
  | judgedDirection screen => exact (screened screen).trans (judge_alike _ _ _)

theorem weigh_ok {move : Array α} (sized : snap.WellSized) (h : move.size = snap.x.size) :
    ∃ w, b.weigh snap move = .ok w := by
  have sizes : move.size = snap.x.size ∧ move.size = snap.previousPoint.size :=
    ⟨h, h.trans sized.previousPoint.symm⟩
  unfold weigh Communicator.weighted
  rw [if_pos sizes]
  dsimp only
  split
  · exact ⟨_, rfl⟩
  · exact ⟨_, rfl⟩

theorem size_update (sized : snap.WellSized) : (update snap).size = snap.x.size := by
  rw [update, Array.size_zipWith, sized.previousIterate, Nat.min_self]

/-- The battery asks for the direction when it has nothing else to go by. -/
theorem needsDirection_of_run {b' : Battery α} {w : α} (screen : b.screen snap = (b', none))
    (later : snap.iteration ≠ 0) (weighed : b'.weigh snap (update snap) = .ok w)
    (unmoved : (w == 0) = true) : b.needsDirection snap = true := by
  unfold needsDirection
  rw [screen]
  dsimp only
  rw [weighed]
  dsimp only
  rw [unmoved, Bool.and_true, decide_eq_true_eq]
  exact Nat.pos_of_ne_zero later

/-- Of the initial guess there is no update to ask about. -/
theorem needsDirection_initial (first : snap.iteration = 0) : b.needsDirection snap = false := by
  unfold needsDirection
  split
  · split
    · rw [first]
      rfl
    · rfl
  · rfl

/-- A check stops only where getting the Newton direction has stopped. -/
theorem asked_of_check {answer : Except Stop (Option (Array α))} (sized : snap.WellSized)
    (answered : ∀ d, answer = .ok (some d) → d.size = snap.x.size) {e : Stop}
    (h : (b.check snap answer).2 = .error e) :
    answer = .error e ∧ b.needsDirection snap = true := by
  have run := check_run b snap answer
  generalize b.check snap answer = p at run h
  cases run with
  | screened => cases h
  | initial => cases h
  | judged => cases h
  | still => cases h
  | judgedDirection => cases h
  | unweighed screen later weighed =>
    obtain ⟨w, weighed'⟩ := weigh_ok (b := _) sized (size_update sized)
    rw [weighed'] at weighed
    cases weighed
  | stopped screen later weighed unmoved asked =>
    cases h
    exact ⟨asked, needsDirection_of_run screen later weighed unmoved⟩
  | unweighedDirection screen later weighed unmoved asked weighed' =>
    obtain ⟨w, weighed''⟩ := weigh_ok (b := _) sized (answered _ asked)
    rw [weighed''] at weighed'
    cases weighed'

/-- A success that is about the residual is given at a finite residual below the tolerance. -/
theorem small_of_check {answer : Except Stop (Option (Array α))} {v : Verdict}
    (h : (b.check snap answer).2 = .ok (.converged v)) (about : v.isAboutResidual = true) :
    b.communicator.allFinite snap.residual = true ∧
      b.communicator.normInf snap.residual < b.options.rhsTol := by
  have through : ∀ {b'}, b.screen snap = (b', none) → b' = b.record snap.residual ∧
      b.communicator.allFinite snap.residual = true := by
    intro b' screen
    have run := screen_run b snap
    rw [screen] at run
    cases run with
    | through finite =>
      rw [sees, Bool.and_eq_true] at finite
      exact ⟨rfl, finite.1⟩
  have judged : ∀ {b' : Battery α} {w}, b.screen snap = (b', none) →
      (b'.judge snap.iteration w).2 = .converged v →
      b.communicator.allFinite snap.residual = true ∧
        b.communicator.normInf snap.residual < b.options.rhsTol := by
    intro b' w screen status
    obtain ⟨rfl, finite⟩ := through screen
    exact ⟨finite, small_of_judge status about⟩
  have run := check_run b snap answer
  generalize b.check snap answer = p at run h
  cases run with
  | screened screen =>
    have run := screen_run b snap
    rw [screen] at run
    cases h
    cases run with
    | rounding finite _ small _ =>
      rw [sees, Bool.and_eq_true] at finite
      exact ⟨finite.1, small⟩
  | initial screen first =>
    injection h with status
    rw [conclude_status status] at about
    cases about
  | judged screen =>
    injection h with status
    exact judged screen status
  | judgedDirection screen =>
    injection h with status
    exact judged screen status
  | unweighed => cases h
  | stopped => cases h
  | still => cases h
  | unweighedDirection => cases h

end Battery

end OperatingPoint
