import OperatingPoint.Proofs.BenchStops
import OperatingPoint.Proofs.MarchEnds

/-!
# The residual norm of an outcome

The outcome of a Newton solve carries the greatest entry of a residual and its place, which the
battery has noted.  The battery notes them whenever an iterate is put to it that shows numbers only,
and notes that they are undefined if a residual or an iterate shows anything else.  Where an
iteration ends without a move, the iterate is the one that the battery has seen last.

So at the end of a solve the battery has seen the final iterate, if there is a residual with a norm.
What it has noted is about that residual, unless an inner solve has failed there: then the battery
decides before it notes anything.
-/

set_option autoImplicit false

namespace OperatingPoint

open Step

/-! ## What the battery notes -/

namespace Battery

variable {α : Type} [Scalar α] {b b' : Battery α} {snap : Snapshot α} {residual x : Array α}
  {status : Status}

/-- What the battery has noted is about a residual at an iterate, on which it stands at `status`. -/
structure Shows (b : Battery α) (residual x : Array α) (status : Status) : Prop where
  finite : status ≠ .failed .innerSolveFailed → b.communicator.allFinite residual = true →
    b.communicator.allFinite x = true →
      (b.maxResidual, b.maxIndex) = b.communicator.maxAbs residual
  other : b.communicator.allFinite residual = false ∨ b.communicator.allFinite x = false →
    b.maxResidual = Scalar.undefined

/-- A battery with the same notes shows the same, whatever has been decided since. -/
theorem Shows.of_same (h : b.Shows residual x .unconverged) (alike : b.Alike b')
    (maxResidual : b'.maxResidual = b.maxResidual) (maxIndex : b'.maxIndex = b.maxIndex)
    (status : Status) : b'.Shows residual x status where
  finite _ := by
    rw [alike.communicator, maxResidual, maxIndex]
    exact h.finite (by decide)
  other := by
    rw [alike.communicator, maxResidual]
    exact h.other

theorem sees_eq_false : b.sees snap = false ↔
    b.communicator.allFinite snap.residual = false ∨ b.communicator.allFinite snap.x = false :=
  Bool.and_eq_false_iff

theorem record_shows (seen : b.sees snap = true) :
    (b.record snap.residual).Shows snap.residual snap.x status where
  finite _ _ _ := rfl
  other broken := by
    rw [(sees_eq_false (b := b)).2 broken] at seen
    cases seen

theorem Screened.shows {p : Battery α × Option Status} (h : Screened b snap p) :
    p.1.Shows snap.residual snap.x (p.2.getD .unconverged) := by
  cases h with
  | notFinite broken =>
    refine ⟨fun _ finite there ↦ ?_, fun _ ↦ rfl⟩
    rcases sees_eq_false.1 broken with broken | broken
    · exact absurd (broken.symm.trans finite) Bool.false_ne_true
    · exact absurd (broken.symm.trans there) Bool.false_ne_true
  | inner seen =>
    refine ⟨fun never ↦ absurd rfl never, fun broken ↦ ?_⟩
    rw [sees_eq_false.2 broken] at seen
    cases seen
  | devices seen => exact record_shows seen
  | rounding seen => exact record_shows seen
  | through seen => exact record_shows seen

theorem conclude_notes (b : Battery α) (iteration : Nat) :
    (b.conclude iteration).1.maxResidual = b.maxResidual ∧
      (b.conclude iteration).1.maxIndex = b.maxIndex := by
  rw [conclude]
  dsimp only
  repeat' split
  all_goals exact ⟨rfl, rfl⟩

theorem judge_notes (b : Battery α) (iteration : Nat) (wrms : α) :
    (b.judge iteration wrms).1.maxResidual = b.maxResidual ∧
      (b.judge iteration wrms).1.maxIndex = b.maxIndex := by
  rw [judge]
  dsimp only
  split
  · exact ⟨rfl, rfl⟩
  · exact conclude_notes _ _

/-- After a check the battery shows what was put to it. -/
theorem CheckRun.shows {answer : Except Stop (Option (Array α))}
    (h : CheckRun b snap answer (b', .ok status)) : b'.Shows snap.residual snap.x status := by
  have screened : ∀ {b₁ : Battery α} {found : Option Status}, b.screen snap = (b₁, found) →
      b₁.Shows snap.residual snap.x (found.getD .unconverged) := by
    intro b₁ found screen
    have run := screen_run b snap
    rw [screen] at run
    exact run.shows
  cases h with
  | screened screen => exact screened screen
  | @initial b₁ screen =>
    exact (screened screen).of_same (conclude_alike ..) (conclude_notes b₁ 0).1
      (conclude_notes b₁ 0).2 _
  | @judged b₁ screen _ w =>
    exact (screened screen).of_same (judge_alike ..) (judge_notes b₁ _ w).1 (judge_notes b₁ _ w).2 _
  | @still b₁ screen =>
    have alike : b₁.Alike { b₁ with wrms := 0 } := ⟨rfl, rfl, rfl, rfl⟩
    exact (screened screen).of_same alike rfl rfl _
  | @judgedDirection b₁ screen _ _ _ _ _ _ _ w =>
    exact (screened screen).of_same (judge_alike ..) (judge_notes b₁ _ w).1 (judge_notes b₁ _ w).2 _

end Battery

variable {δ α : Type} [Scalar α] [DirectSolver α] [Device δ α] {n : Nat}

/-! ## Where the norms of a residual come from -/

namespace Rig

variable {r r' : Rig δ α n}

omit [Device δ α] in
/-- The norms of a residual that is valid were taken of it. -/
def Metered (r : Rig δ α n) : Prop := r.isValid .residual = true →
  r.track.iterate.measured = .norms (r.store.communicator.normsOf r.store.residual.toArray)

omit [Device δ α] in
theorem Metered.of_invalid (invalid : r.isValid .residual = false) : r.Metered := fun valid ↦
  absurd (invalid.symm.trans valid) Bool.false_ne_true

/-- A residual is valid once it has been computed, and if it had to be loaded for that, its norms
were taken. -/
theorem computeResidual_metered (r : Rig δ α n) :
    Ends computeResidual r
      (fun ok r' ↦ r'.isValid .residual = ok ∧ (r.isValid .residual = false → r'.Metered))
      (fun _ _ ↦ True) := by
  refine .of_result (computeResidual_run r) ?_ fun _ _ _ ↦ trivial
  intro ok r' run
  have valid := run.valid
  refine ⟨valid, fun invalid ↦ ?_⟩
  cases run with
  | known => exact absurd (invalid.symm.trans valid) Bool.false_ne_true
  | unloaded => exact .of_invalid valid
  | loaded => exact fun _ ↦ rfl

/-! The communicator of a store is never replaced. -/

section

variable {c : Communicator α}

theorem computeResidual_communicator :
    Preserves (computeResidual : Step (Rig δ α n) Bool) fun r ↦ r.store.communicator = c := by
  intro r h
  refine .of_result (computeResidual_run r) ?_ ?_
  · intro ok r' run
    cases run with
    | known | unloaded | loaded => exact h
  · intro stop r' run
    cases run with
    | reentered | refused | stuck => exact h

theorem Refreshed.communicator (base : Refreshed r r') (h : r.store.communicator = c) :
    r'.store.communicator = c :=
  base.keeps (K := fun r ↦ r.store.communicator = c) h fun _ ↦
    computeResidual_communicator r.outdated h

theorem computeJacobian_communicator :
    Preserves (computeJacobian : Step (Rig δ α n) Bool) fun r ↦ r.store.communicator = c := by
  intro r h
  have renewed := computeResidual_communicator r.outdated h
  refine .of_result (computeJacobian_run r) ?_ ?_
  · intro ok r' run
    cases run with
    | known => exact h
    | unrefreshed _ _ run => exact renewed.ok run
    | unloaded _ base | loaded _ base => exact base.communicator h
  · intro stop r' run
    cases run with
    | reentered => exact h
    | refused _ _ run => exact renewed.error run
    | stuck _ base => exact base.communicator h

omit [Device δ α] in
theorem computeNewton_communicator (mayReuse : Bool) :
    Preserves (computeNewton mayReuse : Step (Rig δ α n) Bool) fun r ↦
      r.store.communicator = c := by
  intro r h
  refine .of_result (computeNewton_run r mayReuse) ?_ ?_
  · intro ok r' run
    cases run with
    | known | solved | refused => exact h
  · intro stop r' run
    cases run with
    | noResidual | noJacobian | stopped => exact h

theorem keeps_communicator :
    Keeps (fun r : Rig δ α n ↦ r.AtRest ∧ r.store.communicator = c) fun _ ↦ True :=
  keeps_rest_and (fun h _ ↦ h) computeResidual_communicator computeJacobian_communicator
    computeNewton_communicator

end

end Rig

namespace Engine

variable {e e' : Engine δ α n} {status : Status}

/-! ## What the battery shows of an engine -/

omit [Device δ α] in
/-- The battery shows the residual and the iterate as they are. -/
def Shows (e : Engine δ α n) (status : Status) : Prop :=
  e.newton.battery.Shows e.rig.store.residual.toArray e.iterate.x.toArray status

omit [Device δ α] in
/-- The residual has a norm, or no iteration has looked for one. -/
def Normed (e : Engine δ α n) : Prop :=
  e.newton.iteration = 0 ∨ Scalar.isUndefined
    (e.rig.store.communicator.norm2 e.rig.store.residual.toArray) = false

omit [Device δ α] in
/-- What the battery shows at the end of a program that leaves the solve at `status`: the residual
of an undecided solve, and that of a decided one too, where it has a norm. -/
structure Told (e : Engine δ α n) (status : Status) : Prop where
  undecided : status.isDecided = false → e.Shows .unconverged
  shows : e.rig.isValid .residual = true → e.Normed → e.Shows status

omit [Device δ α] in
theorem Told.failed {v : Verdict}
    (shows : e.rig.isValid .residual = true → e.Normed → e.Shows (.failed v)) :
    e.Told (.failed v) where
  undecided never := by cases never
  shows := shows

omit [Device δ α] in
theorem Shows.told (h : e.Shows status) :
    Told { e with newton := { e.newton with status := status } } status where
  undecided undecided := by
    cases status with
    | unconverged => exact h
    | converged | failed => cases undecided
  shows _ _ := h

omit [Device δ α] in
/-- What has been shown of an undecided solve is still shown after a failure without a move. -/
theorem Shows.failed (h : e.Shows .unconverged) (e' : Engine δ α n)
    (valid : e.rig.isValid .residual = true) (stays : e.rig.Stays e'.rig)
    (newton : e'.newton = e.newton) (v : Verdict) :
    Told { e' with newton := { e'.newton with status := .failed v } } (.failed v) := by
  have shows : e'.Shows .unconverged := by
    rw [Shows, newton, (stays.residual valid).2, show e'.iterate.x = e.iterate.x from stays.x]
    exact h
  exact .failed fun _ _ ↦ Battery.Shows.of_same shows (.refl _) rfl rfl _

/-- Where an iterate has been put to the battery, it is shown. -/
theorem classify_shows (rest : e.rig.AtRest) (valid : e.rig.isValid .residual = true)
    (previous : Vector α n) :
    Ends (classify previous) e (fun status e' ↦ e'.Shows status) (fun _ _ ↦ True) := by
  let snap := e.snapshot e.rig.store.residual previous
  -- Asking for the direction leaves the residual and the iterate as they are.
  have checked : ∀ (answer : Except Stop (Option (Array α))) (e₁ : Engine δ α n),
      e.Lingers Rig.AtRest e₁ →
      let p := e.newton.battery.check snap answer
      Ends (Step.lift p.2) { e₁ with newton := { e₁.newton with battery := p.1 } }
        (fun status e' ↦ e'.Shows status) (fun _ _ ↦ True) := by
    intro answer e₁ lingers p
    refine ends_lift.2 ⟨fun status decided ↦ ?_, fun _ _ ↦ trivial⟩
    have run := Battery.check_run e.newton.battery snap answer
    rw [show e.newton.battery.check snap answer = (p.1, .ok status) from Prod.ext rfl decided] at run
    show p.1.Shows e₁.rig.store.residual.toArray e₁.iterate.x.toArray status
    rw [(lingers.stays.residual valid).2, show e₁.iterate.x = e.iterate.x from lingers.stays.x]
    exact run.shows
  rw [classify]
  simp only [ends_bind, ends_get, ends_ite, ends_pure, ends_attempt, ends_modifyNewton, iterate,
    Rig.residual_of_valid valid, ends_orFault_ok]
  refine ⟨fun _ ↦ ?_, fun _ ↦ checked (.ok none) e ⟨rest, .refl rest, rfl⟩⟩
  refine (direction_keeps Rig.keeps_rest rest valid).mono ?_ ?_
  · exact fun d e₁ kept ↦ checked (.ok d) e₁ kept.1
  · exact fun stop e₁ kept ↦ checked (.error stop) e₁ kept.2

/-- The start of a solve. -/
theorem begin_told (rest : e.rig.AtRest) :
    Ends begin e (fun status e' ↦ e'.Told status) (fun _ _ ↦ True) := by
  rw [begin]
  simp only [ends_bind, ends_modifyNewton, ends_onRig, ends_ite, ends_get, ends_finish]
  refine ((Rig.computeResidual_stays rest).and (Rig.computeResidual_metered e.rig)).mono ?_
    fun _ _ _ ↦ trivial
  rintro ok r ⟨⟨stays, -⟩, valid, -⟩
  refine ⟨fun loaded ↦ ?_, fun failed ↦ .failed fun valid' _ ↦ ?_⟩
  · refine (classify_shows (e := { e.opened with rig := r }) stays.rest (valid.trans loaded) _).mono
      ?_ fun _ _ h ↦ h
    exact fun status e' shows ↦ shows.told
  · exact absurd (valid.symm.trans valid') failed

/-! ## Following a direction -/

/-- A move, and a load where it leads. -/
theorem trial_metered (base direction : Vector α n) (step : α) :
    Ends Rig.computeResidual (e.movedAlong base direction step).rig (fun _ r ↦ r.Metered)
      (fun _ _ ↦ True) :=
  (Rig.computeResidual_metered _).mono
    (fun _ _ kept ↦ kept.2 (e.rig.not_isValid_movedTo _)) fun _ _ h ↦ h

theorem backtrack_metered (metered : e.rig.Metered) (base direction : Vector α n) (old : α)
    (trials : Nat) (step : α) :
    Ends (backtrack base direction old trials step) e (fun _ e' ↦ e'.rig.Metered)
      (fun _ _ ↦ True) := by
  induction trials generalizing e step with
  | zero => exact metered
  | succ trials ih =>
    rw [backtrack]
    simp only [ends_bind, ends_get, ends_ite, ends_pure, ends_modifyTrack, ends_onRig]
    exact ⟨fun _ ↦ metered, fun _ ↦ (trial_metered base direction (step * 0.5)).mono
      (fun _ _ metered ↦ ih metered _) fun _ _ h ↦ h⟩

theorem lineSearch_metered (base direction : Vector α n) (old : α) :
    Ends (lineSearch base direction old) e (fun _ e' ↦ e'.rig.Metered) (fun _ _ ↦ True) := by
  rw [lineSearch]
  simp only [ends_bind, ends_get, ends_modifyTrack, ends_onRig]
  refine (trial_metered base direction 1).mono (fun _ _ metered ↦ ?_) fun _ _ h ↦ h
  split
  · exact metered
  · exact backtrack_metered metered _ _ _ _ _

/-- After a move the iterate is put to the battery, if its residual has a norm. -/
theorem follow_told (rest : e.rig.AtRest) (direction : Vector α n) :
    Ends (follow direction) e (fun status e' ↦ e'.Told status) (fun _ _ ↦ True) := by
  rw [follow]
  simp only [ends_bind, ends_get]
  refine ((lineSearch_keeps Rig.keeps_rest rest _ _ _).and (lineSearch_metered _ _ _)).mono ?_
    fun _ _ _ ↦ trivial
  rintro _ e₁ ⟨⟨searched, -⟩, metered⟩
  rw [ends_modifyNewton]
  split
  · rename_i norms measured
    have measured : e₁.iterate.measured.norms? = some norms := measured
    have valid : e₁.rig.isValid .residual = true := searched.sighted (by rw [measured]; rfl)
    rw [ends_ite, ends_finish]
    refine ⟨fun undefined ↦ .failed fun _ defined ↦ ?_, fun _ ↦ ?_⟩
    · have taken : e₁.iterate.measured = _ := metered valid
      rw [taken] at measured
      cases measured
      have defined := defined.resolve_left (Nat.succ_ne_zero _)
      exact absurd (undefined.symm.trans defined) Bool.noConfusion
    · rw [ends_bind]
      refine (classify_shows (e := { e₁ with
        newton := { e₁.newton with iteration := e₁.newton.iteration + 1 } }) searched.keeps valid
          _).mono ?_ fun _ _ h ↦ h
      exact fun status e' shows ↦ shows.told
  · rename_i unmeasured
    refine .failed fun valid _ ↦ ?_
    have taken : e₁.iterate.measured = _ := metered valid
    exact absurd ((congrArg Measured.norms? taken).symm.trans unmeasured) (Option.some_ne_none _)

/-! ## A solve -/

omit [Device δ α] in
/-- A direction is found without a move. -/
theorem usableDirection_stays (rest : e.rig.AtRest) (reuse : Bool) :
    Ends (usableDirection reuse) e (fun _ e' ↦ e.rig.Stays e'.rig ∧ e'.newton = e.newton)
      (fun _ _ ↦ True) := by
  rw [usableDirection]
  simp only [ends_bind, ends_onRig, ends_ite, ends_get, ends_pure, ends_orFault]
  refine (Rig.computeNewton_stays rest reuse).mono (fun _ r stays ↦ ?_) fun _ _ _ ↦ trivial
  exact ⟨fun _ ↦ ⟨fun _ _ ↦ ⟨stays.1, trivial⟩, fun _ _ ↦ trivial⟩,
    fun _ ↦ ⟨fun _ ↦ ⟨stays.1, trivial⟩, fun _ ↦ ⟨stays.1, trivial⟩⟩⟩

/-- The end of an iteration, from where the Jacobian has been seen to. -/
theorem evaluate_told (valid : e.rig.isValid .residual = true) (shows : e.Shows .unconverged)
    {r : Rig δ α n} (stays : e.rig.Stays r)
    {next : Except Verdict (Vector α n) → Step (Engine δ α n) Status}
    (fails : ∀ verdict, next (.error verdict) = finish (.failed verdict))
    (follows : ∀ d, next (.ok d) = follow d) :
    Ends Rig.computeResidual r
      (fun ok r ↦ (ok = false → Told
          { rig := r, newton := { e.newton with status := .failed .nanFail } }
          (.failed .nanFail)) ∧
        (ok = true → Ends (usableDirection e.keepsFactors) { rig := r, newton := e.newton }
          (fun d e₁ ↦ Ends (next d) e₁ (fun status e' ↦ e'.Told status) (fun _ _ ↦ True))
          (fun _ _ ↦ True)))
      (fun _ _ ↦ True) := by
  rw [ends_of_ok (Rig.computeResidual_of_valid (stays.residual valid).1)]
  refine ⟨fun never ↦ (Bool.false_ne_true never.symm).elim, fun _ ↦ ?_⟩
  refine (usableDirection_stays (e := { rig := r, newton := e.newton }) stays.rest _).mono ?_
    fun _ _ h ↦ h
  rintro d e₁ ⟨stays', newton⟩
  cases d with
  | error verdict =>
    rw [fails]
    exact shows.failed e₁ valid (stays.trans stays') newton verdict
  | ok d =>
    rw [follows]
    exact follow_told stays'.rest d

theorem iterateOnce_told (rest : e.rig.AtRest) (valid : e.rig.isValid .residual = true)
    (shows : e.Shows .unconverged) :
    Ends iterateOnce e (fun status e' ↦ e'.Told status) (fun _ _ ↦ True) := by
  rw [iterateOnce]
  simp only [ends_bind, ends_get, ends_ite, ends_onRig, ends_finish, Bool.not_eq_true',
    Bool.not_eq_false]
  refine ⟨fun _ ↦ ?_, fun _ ↦ evaluate_told valid shows (.refl rest) (fun _ ↦ rfl) fun _ ↦ rfl⟩
  refine (Rig.computeJacobian_stays rest).mono (fun ok r kept ↦ ?_) fun _ _ _ ↦ trivial
  exact ⟨fun _ ↦ shows.failed { rig := r, newton := e.newton } valid kept.1 rfl _,
    fun _ ↦ evaluate_told valid shows kept.1 (fun _ ↦ rfl) fun _ ↦ rfl⟩

theorem advance_told (rest : e.rig.AtRest) (started : e.newton.started = true)
    (undecided : e.newton.status.isDecided = false) (valid : e.rig.isValid .residual = true)
    (shows : e.Shows .unconverged) :
    Ends advance e (fun status e' ↦ e'.Told status) (fun _ _ ↦ True) := by
  rw [advance]
  simp only [ends_bind, ends_get, ends_ite, ends_pure]
  refine ⟨fun unstarted ↦ ?_, fun _ ↦ ⟨fun decided ↦ ?_, fun _ ↦ iterateOnce_told rest valid shows⟩⟩
  · rw [started] at unstarted
    cases unstarted
  · rw [undecided] at decided
    cases decided

theorem iterateWhile_told {status : Status} (rest : e.rig.AtRest)
    (started : e.newton.started = true) (noted : e.newton.status = status)
    (judged : e.Judged status) (told : e.Told status) (budget : Nat) :
    Ends (iterateWhile budget status) e (fun _ e' ↦ e'.Told e'.newton.status)
      (fun _ _ ↦ True) := by
  induction budget generalizing e status with
  | zero => exact noted ▸ told
  | succ budget ih =>
    rw [iterateWhile]
    simp only [ends_ite, ends_pure, ends_bind, Bool.not_eq_true]
    refine ⟨fun _ ↦ noted ▸ told, fun undecided ↦ ?_⟩
    have undecided' : e.newton.status.isDecided = false := by rw [noted, undecided]
    refine ((advance_keeps Rig.keeps_rest rest).and (advance_told rest started undecided'
      (judged.undecided undecided) (told.undecided undecided))).mono ?_ fun _ _ _ ↦ trivial
    rintro status' e₁ ⟨advanced, told'⟩
    exact ih advanced.keeps advanced.started advanced.noted
      (advanced.arrives started undecided').judged told'

/-- What a solve hands back is what the battery shows in the end. -/
theorem solve_told (rest : e.rig.AtRest) :
    Ends solve e (fun outcome e' ↦ outcome = e'.newton.outcome ∧ e'.Told outcome.status)
      (fun _ _ ↦ True) := by
  rw [solve]
  simp only [ends_bind, ends_get, ends_pure]
  refine ((begin_keeps Rig.keeps_rest rest).and (begin_told rest)).mono ?_ fun _ _ _ ↦ trivial
  rintro status e₁ ⟨⟨arrives, -⟩, told⟩
  exact (iterateWhile_told arrives.keeps arrives.started arrives.noted arrives.judged told _).mono
    (fun _ _ told ↦ ⟨trivial, told⟩) fun _ _ h ↦ h

end Engine

/-! ## A bench of exact numbers -/

/-- A device layer of exact numbers in which a source drives a conductor whose current is limited. -/
structure Limiter where
  limit : ExtendedRat
  source : ExtendedRat

namespace Limiter

instance instDevice : Device Limiter ExtendedRat where
  unknowns _ := 1
  loadResidual l x _ _ :=
    ⟨true, Vector.ofFn fun i ↦ (if x.get i ≤ l.limit then x.get i else l.limit) - l.source, l⟩
  loadJacobian l x _ _ :=
    ⟨true, Mat.ofFn fun i j ↦ if i = j ∧ x.get i ≤ l.limit then 1 else 0, l⟩

/-- A driver for the exact numbers. -/
def newton : Newton ExtendedRat := { battery := .new .serial .standard {} false }

end Limiter

/-- On a single rank the norm of a finite vector of rational numbers is defined. -/
theorem ExtendedRat.serial_defined (f : Array ExtendedRat)
    (finite : (Communicator.serial : Communicator ExtendedRat).allFinite f = true) :
    Scalar.isUndefined ((Communicator.serial : Communicator ExtendedRat).norm2 f) = false := by
  have number := serial_measures f finite
  generalize Communicator.serial.norm2 f = norm at number ⊢
  cases norm with
  | number => rfl
  | infinite | undefined => cases number

/-! ## Outcomes -/

namespace Bench

/-- **An outcome describes its residual.**  Whatever the device layer does, whatever the options are
and the history of the bench has been: where a solve hands back an outcome and the final iterate has
its residual, the outcome carries the greatest entry of that residual and its place, if the residual
and the iterate show numbers only and no inner solve has failed.  If the iterate shows anything
else, the greatest entry is undefined.  So it is if the residual shows anything else, as long as its
norm is not undefined too, or if the solve has not made an iteration. -/
theorem outcome_of_history (device : δ) (communicator : Communicator α) (linear : LinearOptions α)
    (newton : Newton α) (history : List (Request α n)) :
    let b := run (empty device communicator linear newton n) history
    let c := b.newton.battery.communicator
    ∀ k t, b.Live k t →
      (∀ f, c.allFinite f = true → Scalar.isUndefined (b.store.communicator.norm2 f) = false) →
      Ends (perform (.solve k)) b
        (fun outcome b' ↦ ∃ t', b'.Live k t' ∧ ((b'.engine t').rig.isValid .residual = true →
          let f := b'.store.residual.toArray
          let x := t'.iterate.x.toArray
          (outcome.status ≠ .failed .innerSolveFailed → c.allFinite f = true →
            c.allFinite x = true → (outcome.maxResidual, outcome.maxIndex) = c.maxAbs f) ∧
          (c.allFinite f = true → c.allFinite x = false →
            outcome.maxResidual = Scalar.undefined) ∧
          (c.allFinite f = false → outcome.iterations = 0 ∨
            Scalar.isUndefined (b'.store.communicator.norm2 f) = false →
              outcome.maxResidual = Scalar.undefined)))
        (fun _ _ ↦ True) := by
  intro b c k t live defined
  have rest : (b.engine t).rig.AtRest :=
    (run_rests device communicator linear newton history).rig live
  refine ends_onEngine (fun t' live' ↦ ?_) fun _ ↦ trivial
  obtain rfl := live.unique live'
  refine ((Engine.solve_keeps Rig.keeps_communicator ⟨rest, rfl⟩).and
    (Engine.solve_told rest)).mono ?_ fun _ _ _ ↦ trivial
  rintro _ e ⟨solved, rfl, told⟩
  refine ⟨e.rig.track, live_withEngine live e, fun valid ↦ ?_⟩
  have battery : e.newton.battery.communicator = c := solved.arrives.alike.communicator
  have own : e.rig.store.communicator = b.store.communicator := solved.arrives.keeps.2
  have normed : c.allFinite e.rig.store.residual.toArray = true → e.Normed :=
    fun finite ↦ .inr (own ▸ defined _ finite)
  have shows : e.Normed → e.newton.battery.Shows _ _ e.newton.status := told.shows valid
  refine ⟨fun outer finite there ↦ ?_, fun finite broken ↦ ?_, fun broken known ↦ ?_⟩
  · rw [← battery]
    exact (shows (normed finite)).finite outer (battery ▸ finite) (battery ▸ there)
  · exact (shows (normed finite)).other (.inr (battery ▸ broken))
  · exact (shows known).other (.inl (battery ▸ broken))

-- What is said of the bench is not to be compared by carrying out the history.
seal Ends in
/-- A source that the limit keeps from being met: there is no update, and the outcome carries what is
missing. -/
theorem outcome_of_history_limited :
    let b := run (empty (⟨1, 3⟩ : Limiter) .serial .standard Limiter.newton 1) [⟨_, .add #[5]⟩]
    ∃ outcome b' t', perform (.solve 0) b = .ok outcome b' ∧ b'.Live 0 t' ∧
      outcome.status = .failed .updateTooBig ∧ outcome.maxResidual = 2 ∧
      (outcome.maxResidual, outcome.maxIndex) =
        Communicator.serial.maxAbs b'.store.residual.toArray := by
  intro b
  have there : b.tracks[0]?.join.any (fun _ ↦ true) = true := by decide +kernel
  obtain ⟨t, live, -⟩ := exists_live there
  have known : Ends (perform (.solve 0)) b
      (fun outcome b' ↦ outcome.status = .failed .updateTooBig ∧ outcome.maxResidual = 2 ∧
        Communicator.serial.allFinite b'.store.residual.toArray = true ∧
        b'.tracks[0]?.join.any (fun t' ↦ (b'.engine t').rig.isValid .residual &&
          Communicator.serial.allFinite t'.iterate.x.toArray) = true)
      fun _ _ ↦ False := by
    decide +kernel
  cases ran : perform (.solve 0) b with
  | error stop b' => exact (known.error ran).elim
  | ok outcome b' =>
    obtain ⟨status, two, finite, seen⟩ := known.ok ran
    obtain ⟨t', live', seen⟩ := exists_live seen
    rw [Bool.and_eq_true] at seen
    obtain ⟨t'', live'', shows⟩ := (outcome_of_history _ _ _ _ _ 0 t live
      ExtendedRat.serial_defined).ok ran
    obtain rfl := live'.unique live''
    exact ⟨outcome, b', t'', rfl, live'', status, two,
      (shows seen.1).1 (by rw [status]; decide) finite seen.2⟩

/-- An iterate that is not a number has a residual, and a finite one: the outcome does not carry its
greatest entry. -/
theorem outcome_of_infinite_iterate :
    let b := run (empty (⟨1, 3⟩ : Limiter) .serial .standard Limiter.newton 1)
      [⟨_, .add #[.infinite false]⟩]
    Ends (perform (.solve 0)) b
      (fun outcome b' ↦
        b'.tracks[0]?.join.any (fun t' ↦ (b'.engine t').rig.isValid .residual) = true ∧
        Communicator.serial.allFinite b'.store.residual.toArray = true ∧
        Communicator.serial.maxAbs b'.store.residual.toArray = (2, 0) ∧
        outcome.maxResidual = .undefined)
      fun _ _ ↦ False := by
  decide +kernel

end Bench

end OperatingPoint
