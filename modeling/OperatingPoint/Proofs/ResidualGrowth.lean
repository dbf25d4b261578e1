import OperatingPoint.Proofs.NearConvergence
import OperatingPoint.Proofs.SteadyAcceptance

/-!
# Growth of the residual in a steady state

A steady state whose residual has grown too far since the first on record is given up by the last of
its tests.  The test for a small update comes before, and where it finds one the check ends
undecided: a small update masks the growth, however far the residual has grown.

`Told` is what is said of a grown residual while there is budget.  `grown_residual` says this in
exact arithmetic, where growth is a bound on the norm of the residual.
-/

set_option autoImplicit false

namespace OperatingPoint

namespace Battery

variable {α : Type} [Scalar α]

section
variable (c : Communicator α) (o : NewtonOptions α) (snap : Snapshot α)
  (direction : Except Stop (Option (Array α)))

/-- There is an update, and by the norm that it is judged by it is too small to go on with. -/
def Slight : Prop :=
  0 < snap.iteration ∧ ∃ w, JudgedBy c o snap direction w ∧ w < o.smallUpdateTol

/-- What a steady state may be told whose residual has grown too far. -/
inductive Told : Status → Prop
  | rounded (rounded : RoundedOff c o snap) : Told (.converged .normTooSmall)
  | settled (unrounded : ¬RoundedOff c o snap) (settled : Settled c o snap direction) :
    Told (.converged .normalConvergence)
  /-- The growth is masked. -/
  | slight (unrounded : ¬RoundedOff c o snap) (unsettled : ¬Settled c o snap direction)
    (slight : Slight c o snap direction) : Told .unconverged
  | grown (unrounded : ¬RoundedOff c o snap) (unsettled : ¬Settled c o snap direction)
    (large : ¬Slight c o snap direction)
    (judged : snap.iteration = 0 ∨ ∃ w, JudgedBy c o snap direction w) :
    Told (.failed .updateTooBig)
  /-- There is neither an update nor a direction. -/
  | still (unrounded : ¬RoundedOff c o snap)
    (unjudged : ¬(snap.iteration = 0 ∨ ∃ w, JudgedBy c o snap direction w)) :
    Told (.failed .wrmsExactZero)

variable {c o snap direction}

theorem JudgedBy.unique {w w' : α} (h : JudgedBy c o snap direction w)
    (h' : JudgedBy c o snap direction w') : w = w' := by
  cases h with
  | update weighed moved =>
    cases h' with
    | update weighed' =>
      rw [weighed] at weighed'
      exact Except.ok.inj weighed'
    | direction weighed' unmoved =>
      rw [weighed] at weighed'
      cases weighed'
      rw [moved] at unmoved
      cases unmoved
  | direction weighed unmoved found long turned =>
    cases h' with
    | update weighed' moved =>
      rw [weighed] at weighed'
      cases weighed'
      rw [moved] at unmoved
      cases unmoved
    | direction weighed' unmoved' found' long' turned' =>
      rw [found] at found'
      cases found'
      rw [turned] at turned'
      exact Except.ok.inj turned'

theorem settled_iff {w : α} (later : 0 < snap.iteration) (judged : JudgedBy c o snap direction w) :
    Settled c o snap direction ↔ w < o.deltaXTol ∧ c.normInf snap.residual < o.rhsTol := by
  constructor
  · rintro ⟨-, small, w', judged', short⟩
    rw [judged.unique judged']
    exact ⟨short, small⟩
  · rintro ⟨short, small⟩
    exact ⟨later, small, w, judged, short⟩

theorem Told.eq_unconverged {status : Status} (h : Told c o snap direction status)
    (unrounded : ¬RoundedOff c o snap) (unsettled : ¬Settled c o snap direction)
    (slight : Slight c o snap direction) : status = .unconverged := by
  cases h with
  | rounded rounded => exact absurd rounded unrounded
  | settled _ settled => exact absurd settled unsettled
  | slight => rfl
  | grown _ _ large => exact absurd slight large
  | still _ unjudged =>
    obtain ⟨-, w, judged, -⟩ := slight
    exact absurd (.inr ⟨w, judged⟩) unjudged

theorem Told.eq_updateTooBig {status : Status} (h : Told c o snap direction status)
    (unrounded : ¬RoundedOff c o snap) (unsettled : ¬Settled c o snap direction)
    (large : ¬Slight c o snap direction)
    (judged : snap.iteration = 0 ∨ ∃ w, JudgedBy c o snap direction w) :
    status = .failed .updateTooBig := by
  cases h with
  | rounded rounded => exact absurd rounded unrounded
  | settled _ settled => exact absurd settled unsettled
  | slight _ _ slight => exact absurd slight large
  | grown => rfl
  | still _ unjudged => exact absurd judged unjudged

theorem slight_iff {w : α} (later : 0 < snap.iteration) (judged : JudgedBy c o snap direction w) :
    Slight c o snap direction ↔ w < o.smallUpdateTol := by
  constructor
  · rintro ⟨-, w', judged', short⟩
    rw [judged.unique judged']
    exact short
  · intro short
    exact ⟨later, w, judged, short⟩

end

/-! ## The tests -/

variable {b : Battery α} {snap : Snapshot α} {direction : Except Stop (Option (Array α))}
  {iteration : Nat} {w : α}

theorem conclude_grown (steady : b.transient = false) (early : iteration < b.options.maxSteps)
    (grown : b.options.maxNormFRatio < b.relativeRate) :
    (b.conclude iteration).2 =
      if 0 < iteration ∧ b.wrms < b.options.smallUpdateTol then .unconverged
      else .failed .updateTooBig := by
  have run := conclude_run b iteration
  generalize b.conclude iteration = p at run
  cases run with
  | near transient => cases steady.symm.trans transient
  | late transient => cases steady.symm.trans transient
  | small later _ small =>
    dsimp only
    rw [steady, if_neg Bool.false_ne_true, if_pos ⟨later, small⟩]
  | spent _ spent => exact absurd early (Nat.not_lt.2 spent)
  | grown _ large => rw [if_neg large]
  | stagnated transient => cases steady.symm.trans transient
  | counted transient => cases steady.symm.trans transient
  | uncounted _ _ _ bounded => exact absurd grown bounded

theorem judge_grown (steady : b.transient = false) (later : 0 < iteration)
    (early : iteration < b.options.maxSteps) (grown : b.options.maxNormFRatio < b.relativeRate) :
    (b.judge iteration w).2 =
      if w < b.options.deltaXTol ∧ b.maxResidual < b.options.rhsTol then
        .converged .normalConvergence
      else if w < b.options.smallUpdateTol then .unconverged
      else .failed .updateTooBig := by
  unfold judge
  dsimp only
  split
  · rfl
  · have last := conclude_grown (b := b.weighed w) steady early grown
    simp only [later, true_and] at last
    exact last

/-- What the tests on an update of known norm come to where the residual has grown. -/
theorem told_of_judge (unrounded : ¬RoundedOff b.communicator b.options snap)
    (steady : b.transient = false) (later : 0 < snap.iteration)
    (early : snap.iteration < b.options.maxSteps)
    (grown : b.options.maxNormFRatio < (b.record snap.residual).relativeRate)
    (judged : JudgedBy b.communicator b.options snap direction w) :
    Told b.communicator b.options snap direction
      ((b.record snap.residual).judge snap.iteration w).2 := by
  rw [judge_grown (b := b.record snap.residual) steady later early grown]
  split
  · rename_i small
    exact .settled unrounded ((settled_iff later judged).2 small)
  · rename_i unsettled
    have unsettled := (settled_iff later judged).not.2 unsettled
    split
    · rename_i short
      exact .slight unrounded unsettled ((slight_iff later judged).2 short)
    · rename_i long
      exact .grown unrounded unsettled ((slight_iff later judged).not.2 long) (.inr ⟨w, judged⟩)

theorem told_of_check (steady : b.transient = false)
    (eligible : Eligible b.communicator b.options snap)
    (early : snap.iteration < b.options.maxSteps)
    (grown : b.options.maxNormFRatio < (b.record snap.residual).relativeRate) {status : Status}
    (checked : (b.check snap direction).2 = .ok status) :
    Told b.communicator b.options snap direction status := by
  have screen := screen_of_eligible eligible
  by_cases rounded : RoundedOff b.communicator b.options snap
  · rw [if_pos rounded] at screen
    unfold check at checked
    rw [screen] at checked
    cases checked
    exact .rounded rounded
  · rw [if_neg rounded] at screen
    have recorded {b' : Battery α} {found : Option Status} (screen' : b.screen snap = (b', found)) :
        b' = b.record snap.residual ∧ found = none := by
      rw [screen] at screen'
      cases screen'
      exact ⟨rfl, rfl⟩
    have run := check_run b snap direction
    generalize b.check snap direction = p at run checked
    cases run with
    | screened screen' => cases (recorded screen').2
    | initial screen' first =>
      obtain ⟨rfl, -⟩ := recorded screen'
      cases checked
      rw [conclude_grown (b := b.record snap.residual) steady (first ▸ early) grown,
        if_neg fun later ↦ lt_irrefl 0 later.1]
      exact .grown rounded (fun settled ↦ absurd first settled.1.ne')
        (fun slight ↦ absurd first slight.1.ne') (.inl first)
    | unweighed => cases checked
    | judged screen' later weighed moved =>
      obtain ⟨rfl, -⟩ := recorded screen'
      cases checked
      exact told_of_judge rounded steady (Nat.pos_of_ne_zero later) early grown
        (.update weighed moved)
    | stopped => cases checked
    | still screen' later weighed unmoved asked =>
      obtain ⟨rfl, -⟩ := recorded screen'
      cases checked
      refine .still rounded ?_
      rintro (first | ⟨w', judged⟩)
      · exact later first
      cases judged with
      | update weighed' moved =>
        cases weighed.symm.trans weighed'
        rw [moved] at unmoved
        cases unmoved
      | direction _ _ found long =>
        obtain none | ⟨d, found', short⟩ := asked
        · cases none.symm.trans found
        · cases found'.symm.trans found
          exact short long
    | unweighedDirection => cases checked
    | judgedDirection screen' later weighed unmoved asked long weighed' =>
      obtain ⟨rfl, -⟩ := recorded screen'
      cases checked
      exact told_of_judge rounded steady (Nat.pos_of_ne_zero later) early grown
        (.direction weighed unmoved asked long weighed')

/-- What there is to judge is judged. -/
theorem check_answered (eligible : Eligible b.communicator b.options snap)
    (unrounded : ¬RoundedOff b.communicator b.options snap)
    (judged : snap.iteration = 0 ∨ ∃ w, JudgedBy b.communicator b.options snap direction w) :
    ∃ status, (b.check snap direction).2 = .ok status := by
  have screen := screen_of_eligible eligible
  rw [if_neg unrounded] at screen
  obtain first | later := Nat.eq_zero_or_pos snap.iteration
  · unfold check
    rw [screen]
    dsimp only
    rw [if_pos first]
    exact ⟨_, rfl⟩
  · obtain ⟨w, judged⟩ := judged.resolve_left (Nat.ne_of_gt later)
    exact ⟨_, check_of_judgedBy screen (b.record_alike _) later judged⟩

/-- The check of a grown residual: what it says, when, and that it stops for the direction only. -/
theorem check_grown (b : Battery α) (snap : Snapshot α)
    (direction : Except Stop (Option (Array α))) (steady : b.transient = false)
    (eligible : Eligible b.communicator b.options snap)
    (early : snap.iteration < b.options.maxSteps)
    (grown : b.options.maxNormFRatio < (b.record snap.residual).relativeRate) :
    let answer := (b.check snap direction).2
    let unaccepted := ¬RoundedOff b.communicator b.options snap ∧
      ¬Settled b.communicator b.options snap direction
    (answer = .ok .unconverged ↔
      unaccepted ∧ Slight b.communicator b.options snap direction) ∧
    (answer = .ok (.failed .updateTooBig) ↔
      unaccepted ∧ ¬Slight b.communicator b.options snap direction ∧
        (snap.iteration = 0 ∨ ∃ w, JudgedBy b.communicator b.options snap direction w)) ∧
    (∀ status, answer = .ok status → status = .unconverged ∨ status = .failed .updateTooBig ∨
      status = .failed .wrmsExactZero ∨ status = .converged .normTooSmall ∨
      status = .converged .normalConvergence) ∧
    (snap.WellSized → (∀ d, direction = .ok (some d) → d.size = snap.x.size) →
      ∀ e, answer = .error e → direction = .error e) := by
  intro answer unaccepted
  have told {status : Status} : answer = .ok status →
      Told b.communicator b.options snap direction status :=
    told_of_check steady eligible early grown
  refine ⟨⟨fun undecided ↦ ?_, ?_⟩, ⟨fun failed ↦ ?_, ?_⟩, fun status checked ↦ ?_, ?_⟩
  · cases told undecided with
    | slight unrounded unsettled slight => exact ⟨⟨unrounded, unsettled⟩, slight⟩
  · rintro ⟨⟨unrounded, unsettled⟩, slight⟩
    obtain ⟨-, w, judged, -⟩ := id slight
    obtain ⟨status, checked⟩ := check_answered eligible unrounded (.inr ⟨w, judged⟩)
    exact checked.trans (congrArg _ ((told checked).eq_unconverged unrounded unsettled slight))
  · cases told failed with
    | grown unrounded unsettled large judged => exact ⟨⟨unrounded, unsettled⟩, large, judged⟩
  · rintro ⟨⟨unrounded, unsettled⟩, large, judged⟩
    obtain ⟨status, checked⟩ := check_answered eligible unrounded judged
    exact checked.trans
      (congrArg _ ((told checked).eq_updateTooBig unrounded unsettled large judged))
  · cases told checked with
    | rounded => exact .inr (.inr (.inr (.inl rfl)))
    | settled => exact .inr (.inr (.inr (.inr rfl)))
    | slight => exact .inl rfl
    | grown => exact .inr (.inl rfl)
    | still => exact .inr (.inr (.inl rfl))
  · intro sized answered e stopped
    exact (asked_of_check sized answered stopped).1

/-! ## Growth in exact arithmetic -/

section
variable {K : Type} [Field K] [LinearOrder K] [IsStrictOrderedRing K] (line : Scalar.Line K α)

/-- The residual has grown too far if its norm is over a multiple of that of the first on record. -/
theorem grown_iff {residuals : List (Array α)} (remembers : b.Remembers residuals)
    {norm : Array α → K} {first f : Array α} {ratio : K}
    (head : (residuals ++ [f]).head? = some first) (pos : 0 < norm first)
    (norms : ∀ g ∈ [first, f], b.communicator.norm2 g = line.of (norm g)) :
    line.of ratio < (b.record f).relativeRate ↔ ratio * norm first < norm f := by
  rw [List.forall_mem_cons, List.forall_mem_singleton] at norms
  have sign : 0 < line.of (norm first) := by rwa [← line.zero, line.lt_iff]
  rw [record_relativeRate remembers head, norms.1, norms.2, if_pos sign, ← line.div _ pos.ne',
    line.lt_iff, lt_div_iff₀ pos]

/-- **A grown residual of a steady state.**  Let a steady state be checked, after any use of its
battery, while there is budget and with nothing in the way of accepting the iterate.  In exact
arithmetic, let the norm of the residual be over the greatest ratio times that of the first residual
on record since the last reset, which is positive.

The check is undecided just where the residual is more than rounding and the iterate is not settled,
but the update is slight: this masks the growth.  The growth is a failure just where the update is
not slight either, if there is anything to judge it by or no update yet.  Otherwise the status is
about the residual itself or about an update and a direction that are both zero, and the check stops
only where the direction has. -/
theorem grown_residual (c : Communicator α) (o : NewtonOptions α) (codes : CodeTable) {ratio : K}
    (ratios : o.maxNormFRatio = line.of ratio) (norm : Array α → K)
    (norms : ∀ f, c.allFinite f = true → c.norm2 f = line.of (norm f)) (uses : List (Use α))
    (snap : Snapshot α) (direction : Except Stop (Option (Array α)))
    (eligible : Eligible c o snap) (early : snap.iteration < o.maxSteps) (first : Array α)
    (head : ((new c o codes false).recorded uses ++ [snap.residual]).head? = some first)
    (pos : 0 < norm first) (grown : ratio * norm first < norm snap.residual) :
    let answer := (((new c o codes false).after uses).check snap direction).2
    let unaccepted := ¬RoundedOff c o snap ∧ ¬Settled c o snap direction
    (answer = .ok .unconverged ↔ unaccepted ∧ Slight c o snap direction) ∧
    (answer = .ok (.failed .updateTooBig) ↔ unaccepted ∧ ¬Slight c o snap direction ∧
      (snap.iteration = 0 ∨ ∃ w, JudgedBy c o snap direction w)) ∧
    (∀ status, answer = .ok status → status = .unconverged ∨ status = .failed .updateTooBig ∨
      status = .failed .wrmsExactZero ∨ status = .converged .normTooSmall ∨
      status = .converged .normalConvergence) ∧
    (snap.WellSized → (∀ d, direction = .ok (some d) → d.size = snap.x.size) →
      ∀ e, answer = .error e → direction = .error e) := by
  have alike := (new c o codes false).after_alike uses
  have remembers := after_remembers (remembers_new c o codes false) uses
  have firstFinite : c.allFinite first = true := by
    obtain old | this := List.mem_append.1 (List.mem_of_mem_head? head)
    · exact (new c o codes false).finite_of_recorded uses first old
    · rw [List.mem_singleton.1 this]
      exact eligible.residual
  have checked := check_grown ((new c o codes false).after uses) snap direction alike.transient
  rw [alike.communicator, alike.options] at checked
  refine checked eligible early ?_
  rw [show (new c o codes false).options.maxNormFRatio = line.of ratio from ratios,
    grown_iff line remembers head pos]
  · exact grown
  · rw [List.forall_mem_cons, List.forall_mem_singleton, alike.communicator]
    exact ⟨norms _ firstFinite, norms _ eligible.residual⟩

end

/-- A residual of 1 grows to a million millions.  After an update by 1 it is given up, and after an
update by a millionth of a millionth nothing is decided. -/
theorem grown_residual_masked :
    let b : Battery ExtendedRat := (new .serial .standard {} false).after
      [.check (scalarSnapshot 0 1 1 1) (.ok none)]
    let update (x : ExtendedRat) := scalarSnapshot 1 x 1 1000000000000
    (b.check (update 2) (.ok none)).2 = .ok (.failed .updateTooBig) ∧
      (b.check (update 1.000000000001) (.ok none)).2 = .ok .unconverged ∧
      Slight .serial NewtonOptions.standard (update 1.000000000001) (.ok none) := by
  intro b update
  have masked : (b.check (update 1.000000000001) (.ok none)).2 = .ok .unconverged := by
    decide +kernel
  have ratio : (NewtonOptions.standard : NewtonOptions ExtendedRat).maxNormFRatio =
      ExtendedRat.line.of 10000000000 := by
    decide +kernel
  have eligible : Eligible .serial NewtonOptions.standard (update 1.000000000001) :=
    ⟨by decide +kernel, by decide +kernel, by decide +kernel, by decide +kernel⟩
  have told := grown_residual ExtendedRat.line .serial NewtonOptions.standard {} ratio
    (fun f ↦ (Communicator.serial.norm2 f).toRat) serial_norm2
    [.check (scalarSnapshot 0 1 1 1) (.ok none)] (update 1.000000000001) (.ok none)
    eligible (by decide +kernel) #[1] (by decide +kernel) (by decide +kernel) (by decide +kernel)
  exact ⟨by decide +kernel, masked, (told.1.1 masked).2⟩

end Battery

end OperatingPoint
