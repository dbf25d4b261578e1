import OperatingPoint.Newton
import OperatingPoint.Proofs.BatteryVerdicts
import OperatingPoint.Proofs.Resting

/-!
# Newton's iteration, step by step

What a Newton driver does to a rig is made of four things: the three computations and moves of the
iterate.  A property of rigs that these keep is kept by every program of the driver, however it
ends; `Rig.Keeps` is that hypothesis, together with what is known of a stop.

For each program there is one statement of what it keeps and where it arrives.  An arrival says what
the status is worth: an undecided solve has a residual at its iterate, and a success that is about
the residual is one at that residual.

One way of an iteration ends in a stop that no computation gives cause for.  If the iterate has its
Jacobian but not its residual, the residual is loaded anew, which makes the Jacobian stale, and the
direction is refused.
-/

set_option autoImplicit false

namespace OperatingPoint

open Step

variable {δ α : Type} [Scalar α] [DirectSolver α] {n : Nat}

/-- The stop of a solve for the Newton direction without a Jacobian. -/
def Stop.missingJacobian : Stop := .fault (.prerequisite .newton .jacobian)

/-- A property of rigs that the computations and the moves of a Newton driver keep; if a computation
stops, `Q` holds of why. -/
structure Rig.Keeps [Device δ α] (I : Rig δ α n → Prop) (Q : Stop → Prop) : Prop where
  rest : ∀ {r}, I r → r.AtRest
  move : ∀ {r}, I r → ∀ x, I (r.put r.store (r.track.iterate.setX x) r.track.overlay)
  residual : ∀ {r}, I r →
    Ends computeResidual r (fun _ r' ↦ I r') (fun e r' ↦ Q e ∧ I r')
  jacobian : ∀ {r}, I r →
    Ends computeJacobian r (fun _ r' ↦ I r') (fun e r' ↦ Q e ∧ I r')
  newton : ∀ {r}, I r → r.isValid .residual = true → ∀ mayReuse,
    r.reuses mayReuse = true ∨ r.isValid .jacobian = true →
      Ends (computeNewton mayReuse) r (fun _ r' ↦ I r') (fun e r' ↦ Q e ∧ I r')

namespace Engine

/-! ## What a status is worth -/

/-- The residual that the battery has let through is finite and below the tolerance. -/
def Small (e : Engine δ α n) : Prop :=
  e.newton.battery.communicator.allFinite e.rig.store.residual.toArray = true ∧
    e.newton.battery.communicator.normInf e.rig.store.residual.toArray <
      e.newton.battery.options.rhsTol

/-- What is known of an engine whose solve stands at `status`. -/
structure Judged (e : Engine δ α n) (status : Status) : Prop where
  undecided : status.isDecided = false → e.rig.isValid .residual = true
  converged : ∀ v, status = .converged v → v.isAboutResidual = true →
    e.rig.isValid .residual = true ∧ e.Small

/-- An engine at the start of a solve. -/
def opened (e : Engine δ α n) : Engine δ α n :=
  { e with newton := { e.newton.reset with started := true } }

/-- The iterate has its residual, if norms have been taken of one. -/
def Sighted (e : Engine δ α n) : Prop :=
  e.iterate.measured.norms?.isSome = true → e.rig.isValid .residual = true

/-- The counts of an engine have gone on: an iteration moves the iterate, and nothing else does. -/
structure Paces (e e' : Engine δ α n) : Prop where
  iteration : e.newton.iteration ≤ e'.newton.iteration
  moved : e'.newton.iteration + e.iterate.generation ≤
    e.newton.iteration + e'.iterate.generation
  still : e'.newton.iteration = e.newton.iteration →
    e'.iterate.generation = e.iterate.generation ∧ e'.iterate.x = e.iterate.x

/-- An engine at which a program of the driver has ended with `status`. -/
structure Arrives (I : Rig δ α n → Prop) (e : Engine δ α n) (status : Status)
    (e' : Engine δ α n) : Prop where
  keeps : I e'.rig
  alike : e.newton.battery.Alike e'.newton.battery
  noted : e'.newton.status = status
  started : e'.newton.started = e.newton.started
  judged : e'.Judged status
  paces : e.Paces e'

/-- An engine whose iterate has not been moved, and whose driver has not gone on. -/
structure Lingers (I : Rig δ α n → Prop) (e e' : Engine δ α n) : Prop where
  keeps : I e'.rig
  stays : e.rig.Stays e'.rig
  newton : e'.newton = e.newton

/-- An engine at which a program of the driver has stopped. -/
structure Halts (I : Rig δ α n → Prop) (e e' : Engine δ α n) : Prop where
  keeps : I e'.rig
  alike : e.newton.battery.Alike e'.newton.battery

/-- The iterate has its Jacobian but not its residual, and the next iteration means to take both. -/
structure Exposed (e : Engine δ α n) : Prop where
  refreshes : e.keepsFactors = false
  jacobian : e.rig.isValid .jacobian = true
  residual : e.rig.isValid .residual = false

theorem Judged.failed {e : Engine δ α n} (v : Verdict) : e.Judged (.failed v) :=
  ⟨nofun, nofun⟩

theorem Paces.of_eq {e e' : Engine δ α n} (iteration : e'.newton.iteration = e.newton.iteration)
    (generation : e'.iterate.generation = e.iterate.generation)
    (x : e'.iterate.x = e.iterate.x) : e.Paces e' :=
  ⟨Nat.le_of_eq iteration.symm, Nat.le_of_eq (by rw [iteration, generation]),
    fun _ ↦ ⟨generation, x⟩⟩

theorem Paces.trans {e e' e'' : Engine δ α n} (h : e.Paces e') (h' : e'.Paces e'') :
    e.Paces e'' where
  iteration := Nat.le_trans h.iteration h'.iteration
  moved := by
    have moved := h.moved
    have moved' := h'.moved
    omega
  still same := by
    have iteration := h.iteration
    have iteration' := h'.iteration
    obtain ⟨generation, x⟩ := h.still (by omega)
    obtain ⟨generation', x'⟩ := h'.still (by omega)
    exact ⟨generation'.trans generation, x'.trans x⟩

@[simp] theorem ends_onRig {β : Type} {act : Step (Rig δ α n) β} {e : Engine δ α n}
    {done : β → Engine δ α n → Prop} {stopped : Stop → Engine δ α n → Prop} :
    Ends (onRig act) e done stopped ↔
      Ends act e.rig (fun b r ↦ done b { e with rig := r })
        (fun stop r ↦ stopped stop { e with rig := r }) := ends_zoom

@[simp] theorem ends_modifyTrack {change : Track α n → Track α n} {e : Engine δ α n}
    {done : PUnit → Engine δ α n → Prop} {stopped : Stop → Engine δ α n → Prop} :
    Ends (modifyTrack change) e done stopped ↔
      done ⟨⟩ { e with rig := { e.rig with track := change e.rig.track } } := Iff.rfl

@[simp] theorem ends_modifyNewton {change : Newton α → Newton α} {e : Engine δ α n}
    {done : PUnit → Engine δ α n → Prop} {stopped : Stop → Engine δ α n → Prop} :
    Ends (modifyNewton change) e done stopped ↔
      done ⟨⟩ { e with newton := change e.newton } := Iff.rfl

@[simp] theorem ends_finish {status : Status} {e : Engine δ α n}
    {done : Status → Engine δ α n → Prop} {stopped : Stop → Engine δ α n → Prop} :
    Ends (finish status) e done stopped ↔
      done status { e with newton := { e.newton with status := status } } := Iff.rfl

/-! ## Arrivals -/

variable {I : Rig δ α n → Prop} {e : Engine δ α n}

/-- An engine whose iterate has been put to the battery. -/
structure Classified (I : Rig δ α n → Prop) (e : Engine δ α n) (status : Status)
    (e' : Engine δ α n) : Prop where
  keeps : I e'.rig
  stays : e.rig.Stays e'.rig
  newton : ∃ battery, e.newton.battery.Alike battery ∧
    e'.newton = { e.newton with battery := battery }
  valid : e'.rig.isValid .residual = true
  small : ∀ v, status = .converged v → v.isAboutResidual = true → e'.Small

/-- The end of what is put to the battery. -/
theorem Classified.arrives {status : Status} {e' : Engine δ α n} (h : e.Classified I status e') :
    e.Arrives I status { e' with newton := { e'.newton with status := status } } := by
  obtain ⟨battery, alike, newton⟩ := h.newton
  have iteration : e'.newton.iteration = e.newton.iteration := by rw [newton]
  exact {
    keeps := h.keeps
    alike := by
      rw [newton]
      exact alike
    noted := rfl
    started := by rw [newton]
    judged := ⟨fun _ ↦ h.valid, fun v converged about ↦ ⟨h.valid, h.small v converged about⟩⟩
    paces := .of_eq iteration h.stays.generation h.stays.x }

/-- An undecided solve that has its residual is not exposed. -/
theorem Judged.not_exposed {status : Status} (h : e.Judged status)
    (undecided : status.isDecided = false) : ¬ e.Exposed := by
  intro exposed
  have valid := h.undecided undecided
  rw [exposed.residual] at valid
  cases valid

/-- A failure without a move. -/
theorem Arrives.failed (e' : Engine δ α n) (keeps : I e'.rig) (stays : e.rig.Stays e'.rig)
    (newton : e'.newton = e.newton) (v : Verdict) :
    e.Arrives I (.failed v) { e' with newton := { e'.newton with status := .failed v } } where
  keeps := keeps
  alike := by
    rw [newton]
    exact .refl _
  noted := rfl
  started := by rw [newton]
  judged := .failed v
  paces := .of_eq (by rw [newton]) stays.generation stays.x

/-- An engine at a trial. -/
structure Searched (I : Rig δ α n → Prop) (e e' : Engine δ α n) : Prop where
  keeps : I e'.rig
  newton : e'.newton = e.newton
  sighted : e'.Sighted
  generation : e.iterate.generation ≤ e'.iterate.generation

theorem Searched.trans {e' e'' : Engine δ α n} (h : e.Searched I e') (h' : e'.Searched I e'') :
    e.Searched I e'' :=
  ⟨h'.keeps, h'.newton.trans h.newton, h'.sighted, Nat.le_trans h.generation h'.generation⟩

theorem Searched.halts {e' e'' : Engine δ α n} (h : e.Searched I e') (h' : e'.Halts I e'') :
    e.Halts I e'' :=
  ⟨h'.keeps, h.newton ▸ h'.alike⟩

variable [Device δ α] {Q : Stop → Prop}

/-! ## The direction that the battery asks for -/

theorem direction_keeps (keeps : Rig.Keeps I Q) (h : I e.rig)
    (valid : e.rig.isValid .residual = true) :
    Ends direction e
      (fun d e' ↦ e.Lingers I e' ∧ ∀ d', d = some d' → d'.size = n)
      (fun stop e' ↦ Q stop ∧ e.Lingers I e') := by
  unfold direction
  simp only [ends_bind, ends_onRig, ends_ite, ends_get, ends_pure]
  refine ((keeps.jacobian h).and (Rig.computeJacobian_stays (keeps.rest h))).mono ?_ ?_
  · rintro ok r ⟨kept, stays, good, -⟩
    refine ⟨fun _ ↦ ⟨⟨kept, stays, rfl⟩, fun _ same ↦ by cases same⟩, fun loaded ↦ ?_⟩
    rw [Bool.not_eq_true, Bool.not_eq_false'] at loaded
    have ready := (stays.residual valid).1
    rw [ends_of_ok (Rig.computeResidual_of_valid ready)]
    refine ⟨fun failed ↦ (by cases failed), fun _ ↦ ?_⟩
    refine ((keeps.newton kept ready false (.inr (good loaded))).and
      (Rig.computeNewton_stays stays.rest false)).mono ?_ ?_
    · rintro ok r' ⟨kept', stays', solved⟩
      refine ⟨fun _ ↦ ⟨⟨kept', stays.trans stays', rfl⟩, fun _ same ↦ by cases same⟩,
        fun accepted ↦ ?_⟩
      rw [Bool.not_eq_true, Bool.not_eq_false'] at accepted
      rw [iterate, Rig.newton_of_valid (solved accepted), ends_orFault_ok]
      refine ⟨⟨kept', stays.trans stays', rfl⟩, fun d' same ↦ ?_⟩
      cases same
      exact r'.store.newton.size_toArray
    · rintro stop r' ⟨⟨known, kept'⟩, stays'⟩
      exact ⟨known, kept', stays.trans stays', rfl⟩
  · rintro stop r ⟨⟨known, kept⟩, stays⟩
    exact ⟨known, kept, stays, rfl⟩

/-! ## Putting an iterate to the battery -/

theorem snapshot_wellSized (e : Engine δ α n) (residual previous : Vector α n) :
    (e.snapshot residual previous).WellSized :=
  ⟨previous.size_toArray.trans e.iterate.x.size_toArray.symm,
    e.rig.store.previous.size_toArray.trans e.iterate.x.size_toArray.symm⟩

theorem classify_keeps (keeps : Rig.Keeps I Q) (h : I e.rig)
    (valid : e.rig.isValid .residual = true) (previous : Vector α n) :
    Ends (classify previous) e (e.Classified I) (fun stop e' ↦ Q stop ∧ e.Halts I e') := by
  let snap := e.snapshot e.rig.store.residual previous
  -- What the check makes of an answer, whether or not one was asked for.
  have judged : ∀ (answer : Except Stop (Option (Array α))) (e' : Engine δ α n),
      e.Lingers I e' → (∀ d, answer = .ok (some d) → d.size = n) →
      (∀ stop, answer = .error stop → Q stop) →
      let p := e.newton.battery.check snap answer
      Ends (Step.lift p.2) { e' with newton := { e'.newton with battery := p.1 } }
        (e.Classified I) (fun stop e' ↦ Q stop ∧ e.Halts I e') := by
    intro answer e' lingers sized known p
    obtain ⟨ready, same⟩ := lingers.stays.residual valid
    have alike : e.newton.battery.Alike p.1 :=
      (Battery.check_run e.newton.battery snap answer).alike
    refine ends_lift.2 ⟨fun status checked ↦ ?_, fun stop checked ↦ ?_⟩
    · refine ⟨lingers.keeps, lingers.stays, ⟨p.1, alike, ?_⟩, ready, fun v converged about ↦ ?_⟩
      · rw [lingers.newton]
      · rw [converged] at checked
        have small := Battery.small_of_check checked about
        unfold Small
        rw [alike.communicator, alike.options, same]
        exact small
    · refine ⟨known stop ?_, lingers.keeps, alike⟩
      refine (Battery.asked_of_check (e.snapshot_wellSized _ _) (fun d asked ↦ ?_) checked).1
      exact (sized d asked).trans e.iterate.x.size_toArray.symm
  unfold classify
  simp only [ends_bind, ends_get, ends_ite, ends_pure, ends_attempt, ends_modifyNewton, iterate,
    Rig.residual_of_valid valid, ends_orFault_ok]
  refine ⟨fun _ ↦ ?_, fun _ ↦ ?_⟩
  · refine (direction_keeps keeps h valid).mono ?_ ?_
    · rintro d e' ⟨lingers, sized⟩
      exact judged (.ok d) e' lingers (fun d' same ↦ sized d' (Except.ok.inj same))
        fun _ same ↦ by cases same
    · rintro stop e' ⟨known, lingers⟩
      refine judged (.error stop) e' lingers (fun _ same ↦ by cases same) fun stop' same ↦ ?_
      cases same
      exact known
  · exact judged (.ok none) e ⟨h, .refl (keeps.rest h), rfl⟩ (fun _ same ↦ by cases same)
      fun _ same ↦ by cases same

/-- The start of a solve. -/
theorem begin_keeps (keeps : Rig.Keeps I Q) (h : I e.rig) :
    Ends begin e
      (fun status e' ↦ e.opened.Arrives I status e' ∧ e'.newton.iteration = 0)
      (fun stop e' ↦ Q stop ∧ e.Halts I e') := by
  unfold begin
  simp only [ends_bind, ends_modifyNewton, ends_onRig, ends_ite, ends_get, ends_finish]
  refine ((keeps.residual h).and (Rig.computeResidual_stays (keeps.rest h))).mono ?_ ?_
  · rintro ok r ⟨kept, stays, -, -, good, -⟩
    refine ⟨fun loaded ↦ ?_, fun _ ↦ ⟨.failed (e := e.opened) { e.opened with rig := r } kept stays rfl _, rfl⟩⟩
    let e₁ : Engine δ α n := { e.opened with rig := r }
    refine (classify_keeps (e := e₁) keeps kept (good loaded) _).mono ?_ ?_
    · intro status e' classified
      have arrives := classified.arrives
      have looked : e.opened.Paces e₁ := .of_eq rfl stays.generation stays.x
      refine ⟨⟨arrives.keeps, arrives.alike, rfl, arrives.started, arrives.judged,
        looked.trans arrives.paces⟩, ?_⟩
      obtain ⟨battery, -, newton⟩ := classified.newton
      rw [newton]
      rfl
    · rintro stop e' ⟨known, halts⟩
      exact ⟨known, halts.keeps, (Battery.reset_alike _).trans halts.alike⟩
  · rintro stop r ⟨⟨known, kept⟩, -⟩
    exact ⟨known, kept, Battery.reset_alike _⟩

/-! ## The line search -/

/-- An engine whose iterate has been moved along a direction. -/
def movedAlong (e : Engine δ α n) (base direction : Vector α n) (step : α) : Engine δ α n :=
  { e with rig := { e.rig with track := { e.rig.track with
    iterate := e.iterate.moveAlong base direction step } } }

/-- A move, and a look at where it leads. -/
theorem trial_keeps (keeps : Rig.Keeps I Q) (h : I e.rig) (base direction : Vector α n)
    (step : α) :
    Ends (onRig Rig.computeResidual) (e.movedAlong base direction step)
      (fun _ e' ↦ e.Searched I e' ∧ e.iterate.generation < e'.iterate.generation)
      (fun stop e' ↦ Q stop ∧ e.Halts I e') := by
  have moved : I (e.movedAlong base direction step).rig :=
    keeps.move h (addScaled base step direction)
  rw [ends_onRig]
  refine ((keeps.residual moved).and (Rig.computeResidual_stays (keeps.rest moved))).mono ?_ ?_
  · rintro ok r ⟨kept, stays, -, -, good, unmeasured⟩
    have later : r.track.iterate.generation = e.iterate.generation + 1 := stays.generation
    refine ⟨⟨kept, rfl, fun measured ↦ ?_, ?_⟩, ?_⟩
    · cases ok with
      | true => exact good rfl
      | false =>
        have none : r.track.iterate.measured.norms? = none := unmeasured rfl
        rw [iterate, none] at measured
        cases measured
    · show e.iterate.generation ≤ r.track.iterate.generation
      omega
    · show e.iterate.generation < r.track.iterate.generation
      omega
  · rintro stop r ⟨⟨known, kept⟩, -⟩
    exact ⟨known, kept, .refl _⟩

theorem backtrack_keeps (keeps : Rig.Keeps I Q) (h : I e.rig) (sighted : e.Sighted)
    (base direction : Vector α n) (old : α) (trials : Nat) (step : α) :
    Ends (backtrack base direction old trials step) e (fun _ e' ↦ e.Searched I e')
      (fun stop e' ↦ Q stop ∧ e.Halts I e') := by
  induction trials generalizing e step with
  | zero => exact ⟨h, rfl, sighted, Nat.le_refl _⟩
  | succ trials ih =>
    rw [backtrack]
    simp only [ends_bind, ends_get, ends_ite, ends_pure, ends_modifyTrack]
    refine ⟨fun _ ↦ ⟨h, rfl, sighted, Nat.le_refl _⟩, fun _ ↦ ?_⟩
    refine (trial_keeps keeps h base direction (step * 0.5)).mono ?_ fun _ _ h ↦ h
    rintro _ e' ⟨searched, -⟩
    refine (ih searched.keeps searched.sighted _).mono (fun _ _ h ↦ searched.trans h) ?_
    rintro stop e'' ⟨known, halts⟩
    exact ⟨known, searched.halts halts⟩

theorem lineSearch_keeps (keeps : Rig.Keeps I Q) (h : I e.rig) (base direction : Vector α n)
    (old : α) :
    Ends (lineSearch base direction old) e
      (fun _ e' ↦ e.Searched I e' ∧ e.iterate.generation < e'.iterate.generation)
      (fun stop e' ↦ Q stop ∧ e.Halts I e') := by
  unfold lineSearch
  simp only [ends_bind, ends_get, ends_modifyTrack]
  refine (trial_keeps keeps h base direction 1).mono ?_ fun _ _ h ↦ h
  rintro _ e' ⟨searched, moved⟩
  split
  · exact ⟨searched, moved⟩
  · refine (backtrack_keeps keeps searched.keeps searched.sighted _ _ _ _ _).mono ?_ ?_
    · exact fun _ e'' searched' ↦
        ⟨searched.trans searched', Nat.lt_of_lt_of_le moved searched'.generation⟩
    · rintro stop e'' ⟨known, halts⟩
      exact ⟨known, searched.halts halts⟩

/-! ## An iteration -/

/-- The direction to follow.  Where there is a residual, only the Jacobian can be missing. -/
theorem usableDirection_keeps (keeps : Rig.Keeps I Q) (h : I e.rig)
    (valid : e.rig.isValid .residual = true) {reuse : Bool}
    (reuses : reuse = true → e.rig.reuses true = true) :
    Ends (usableDirection reuse) e (fun _ e' ↦ e.Lingers I e')
      (fun stop e' ↦ e.Halts I e' ∧
        (Q stop ∨ stop = .missingJacobian ∧ reuse = false ∧ e.rig.isValid .jacobian = false)) := by
  -- A direction that is valid can be read, and anything else is looked at only.
  have read : ∀ {ok : Bool} {r : Rig δ α n}, I r → e.rig.Stays r →
      (ok = true → r.isValid .newton = true) → ok = true →
      Ends (Step.orFault (Iterate.newton r.track.iterate r.store))
        ({ e with rig := r } : Engine δ α n) (fun _ e' ↦ e.Lingers I e')
        (fun stop e' ↦ e.Halts I e' ∧
          (Q stop ∨ stop = .missingJacobian ∧ reuse = false ∧
            e.rig.isValid .jacobian = false)) := by
    intro ok r kept stays solved good
    rw [Rig.newton_of_valid (solved good), ends_orFault_ok]
    exact ⟨kept, stays, rfl⟩
  unfold usableDirection
  simp only [ends_bind, ends_onRig, ends_ite, ends_get, ends_pure]
  by_cases ready : e.rig.reuses reuse = true ∨ e.rig.isValid .jacobian = true
  · refine ((keeps.newton h valid reuse ready).and
      (Rig.computeNewton_stays (keeps.rest h) reuse)).mono ?_ ?_
    · rintro ok r ⟨kept, stays, solved⟩
      exact ⟨read kept stays solved, fun _ ↦ ⟨fun _ ↦ ⟨kept, stays, rfl⟩,
        fun _ ↦ ⟨kept, stays, rfl⟩⟩⟩
    · rintro stop r ⟨⟨known, kept⟩, -⟩
      exact ⟨⟨kept, .refl _⟩, .inl known⟩
  · rw [not_or, Bool.not_eq_true, Bool.not_eq_true] at ready
    have fresh : reuse = false := by
      cases reuse with
      | false => rfl
      | true =>
        rw [reuses rfl] at ready
        exact absurd ready.1 Bool.noConfusion
    have stays := (keeps.rest h)
    refine .of_result (Rig.computeNewton_run e.rig reuse) ?_ ?_
    · intro ok r run
      cases run with
      | known there =>
        exact ⟨read h (.refl stays) fun _ ↦ there, fun _ ↦ ⟨fun _ ↦ ⟨h, .refl stays, rfl⟩,
          fun _ ↦ ⟨h, .refl stays, rfl⟩⟩⟩
      | solved _ _ ready' => exact absurd ready' (by simp [ready])
      | refused _ _ ready' => exact absurd ready' (by simp [ready])
    · intro stop r run
      cases run with
      | noResidual _ unready =>
        rw [valid] at unready
        cases unready
      | noJacobian => exact ⟨⟨h, .refl _⟩, .inr ⟨rfl, fresh, ready.2⟩⟩
      | stopped _ _ ready' => exact absurd ready' (by simp [ready])

/-- Following a direction is one iteration. -/
theorem follow_keeps (keeps : Rig.Keeps I Q) (h : I e.rig) (direction : Vector α n) :
    Ends (follow direction) e (fun status e' ↦ e.Arrives I status e')
      (fun stop e' ↦ Q stop ∧ e.Halts I e') := by
  unfold follow
  simp only [ends_bind, ends_get]
  refine (lineSearch_keeps keeps h _ _ _).mono ?_ fun _ _ h ↦ h
  rintro _ e₁ ⟨searched, moved⟩
  rw [ends_modifyNewton]
  let e₂ : Engine δ α n :=
    { e₁ with newton := { e₁.newton with iteration := e₁.newton.iteration + 1 } }
  have iteration : e₂.newton.iteration = e.newton.iteration + 1 := by
    show e₁.newton.iteration + 1 = _
    rw [searched.newton]
  have alike : e.newton.battery.Alike e₂.newton.battery := by
    show e.newton.battery.Alike e₁.newton.battery
    rw [searched.newton]
    exact .refl _
  have started : e₂.newton.started = e.newton.started := by
    show e₁.newton.started = _
    rw [searched.newton]
  -- One iteration has been counted, and the iterate has been moved at least once.
  have counted : ∀ {e'' : Engine δ α n}, e₂.Paces e'' → e.Paces e'' := by
    intro e'' paces
    have moved' : e.iterate.generation < e₂.iterate.generation := moved
    have steps := paces.iteration
    have moves := paces.moved
    exact ⟨by omega, by omega, fun same ↦ by omega⟩
  have rest : e₂.rig.AtRest := keeps.rest searched.keeps
  have failed : e.Arrives I (.failed .nanFail)
      { e₂ with newton := { e₂.newton with status := .failed .nanFail } } := by
    have arrives := Arrives.failed (e := e₂) e₂ searched.keeps (.refl rest) rfl .nanFail
    exact ⟨arrives.keeps, alike.trans arrives.alike, rfl, arrives.started.trans started,
      arrives.judged, counted arrives.paces⟩
  split
  · rename_i norms measured
    have measured : e₂.iterate.measured.norms? = some norms := measured
    have valid : e₂.rig.isValid .residual = true := by
      refine searched.sighted ?_
      show e₂.iterate.measured.norms?.isSome = true
      rw [measured]
      rfl
    rw [ends_ite, ends_finish]
    refine ⟨fun _ ↦ failed, fun _ ↦ ?_⟩
    rw [ends_bind]
    refine (classify_keeps (e := e₂) keeps searched.keeps valid _).mono ?_ ?_
    · intro status e' classified
      rw [ends_finish]
      have arrives := classified.arrives
      exact ⟨arrives.keeps, alike.trans arrives.alike, rfl, arrives.started.trans started,
        arrives.judged, counted arrives.paces⟩
    · rintro stop e' ⟨known, halts⟩
      exact ⟨known, halts.keeps, alike.trans halts.alike⟩
  · exact failed

/-- How an iteration from `e` stops: with cause in a computation, or because the iterate has its
Jacobian but not its residual, which is then loaded. -/
structure Interrupted (I : Rig δ α n → Prop) (Q : Stop → Prop) (e : Engine δ α n) (stop : Stop)
    (e' : Engine δ α n) : Prop where
  halts : e.Halts I e'
  cause : Q stop ∨ stop = .missingJacobian ∧ e.Exposed ∧
    ∃ r, Rig.computeResidual e.rig = .ok true r

/-- The end of an iteration, from where the residual is there. -/
theorem direct_keeps (keeps : Rig.Keeps I Q) {e₁ : Engine δ α n} (seen : e.Lingers I e₁)
    (valid : e₁.rig.isValid .residual = true) {reuse : Bool}
    (reuses : reuse = true → e₁.rig.reuses true = true) :
    Ends (usableDirection reuse) e₁
      (fun d e₂ ↦ Ends (match d with
        | .error verdict => finish (.failed verdict)
        | .ok d => follow d) e₂ (fun status e' ↦ e.Arrives I status e')
        (fun stop e' ↦ Q stop ∧ e.Halts I e'))
      (fun stop e' ↦ e.Halts I e' ∧ (Q stop ∨ stop = .missingJacobian ∧ reuse = false ∧
        e₁.rig.isValid .jacobian = false)) := by
  refine (usableDirection_keeps keeps seen.keeps valid reuses).mono ?_ ?_
  · intro d e₂ lingers
    have stays := seen.stays.trans lingers.stays
    have newton := lingers.newton.trans seen.newton
    cases d with
    | error verdict => exact Arrives.failed e₂ lingers.keeps stays newton verdict
    | ok d =>
      have alike : e.newton.battery.Alike e₂.newton.battery := by
        rw [newton]
        exact .refl _
      have paces : e.Paces e₂ := .of_eq (by rw [newton]) stays.generation stays.x
      refine (follow_keeps keeps lingers.keeps d).mono ?_ ?_
      · intro status e' arrives
        exact ⟨arrives.keeps, alike.trans arrives.alike, arrives.noted,
          arrives.started.trans (by rw [newton]), arrives.judged, paces.trans arrives.paces⟩
      · rintro stop e' ⟨known, halts⟩
        exact ⟨known, halts.keeps, alike.trans halts.alike⟩
  · rintro stop e' ⟨halts, cause⟩
    refine ⟨⟨halts.keeps, ?_⟩, cause⟩
    rw [← seen.newton]
    exact halts.alike

/-- The end of an iteration, from where the Jacobian has been seen to. -/
theorem evaluate_keeps (keeps : Rig.Keeps I Q) {r : Rig δ α n} (kept : I r)
    (stays : e.rig.Stays r) (reuses : e.keepsFactors = true → r.reuses true = true)
    (ready : e.keepsFactors = false → r.isValid .jacobian = true ∧
      (r.isValid .residual = true ∨ r = e.rig)) :
    Ends Rig.computeResidual r
      (fun ok r ↦ (ok = false → e.Arrives I (.failed .nanFail)
          { rig := r, newton := { e.newton with status := .failed .nanFail } }) ∧
        (ok = true → Ends (usableDirection e.keepsFactors) { rig := r, newton := e.newton }
          (fun d e₁ ↦ Ends (match d with
            | .error verdict => finish (.failed verdict)
            | .ok d => follow d) e₁ (fun status e' ↦ e.Arrives I status e')
            (fun stop e' ↦ Interrupted I Q e stop e'))
          (fun stop e' ↦ Interrupted I Q e stop e')))
      (fun stop r ↦ Interrupted I Q e stop { rig := r, newton := e.newton }) := by
  refine Ends.of_result (R := fun result ↦ Rig.computeResidual r = result) rfl ?_ ?_
  · intro ok r' run
    have kept' := (keeps.residual kept).ok run
    obtain ⟨stays', workspace, owner, good, -⟩ :=
      (Rig.computeResidual_stays (keeps.rest kept)).ok run
    let e₁ : Engine δ α n := { rig := r', newton := e.newton }
    refine ⟨fun _ ↦ .failed e₁ kept' (stays.trans stays') rfl _, fun loaded ↦ ?_⟩
    have same : r'.reuses true = r.reuses true := by
      simp only [Rig.reuses, Store.factorsCurrentFor, workspace, owner, stays'.id]
    have seen : e.Lingers I e₁ := ⟨kept', stays.trans stays', rfl⟩
    refine (direct_keeps keeps seen (good loaded)
      fun keeps_factors ↦ same.trans (reuses keeps_factors)).mono ?_ ?_
    · exact fun d e₂ followed ↦ followed.mono (fun _ _ arrives ↦ arrives)
        fun _ _ halted ↦ ⟨halted.2, .inl halted.1⟩
    · rintro stop e' ⟨halts, known | ⟨missing, refreshes, unready⟩⟩
      · exact ⟨halts, .inl known⟩
      · -- The Jacobian was there, so the residual was not, and has been loaded anew.
        obtain ⟨jacobian, source⟩ := ready refreshes
        cases valid : r.isValid .residual with
        | true =>
          rw [Rig.computeResidual_of_valid valid] at run
          cases run
          rw [show e₁.rig.isValid .jacobian = true from jacobian] at unready
          cases unready
        | false =>
          rw [valid] at source
          obtain rfl := source.resolve_left Bool.false_ne_true
          exact ⟨halts, .inr ⟨missing, ⟨refreshes, jacobian, valid⟩, r', loaded ▸ run⟩⟩
  · intro stop r' run
    obtain ⟨known, kept'⟩ := (keeps.residual kept).error run
    exact ⟨⟨kept', .refl _⟩, .inl known⟩

/-- One iteration. -/
theorem iterateOnce_keeps (keeps : Rig.Keeps I Q) (h : I e.rig) :
    Ends iterateOnce e (fun status e' ↦ e.Arrives I status e')
      (fun stop e' ↦ Interrupted I Q e stop e') := by
  have start := keeps.rest h
  unfold iterateOnce
  simp only [ends_bind, ends_get, ends_ite, ends_onRig, ends_finish, Bool.not_eq_true',
    Bool.not_eq_false]
  refine ⟨fun refreshes ↦ ?_, fun keeps_factors ↦ ?_⟩
  · refine Ends.of_result (R := fun result ↦ Rig.computeJacobian e.rig = result) rfl ?_ ?_
    · intro ok r run
      have kept := (keeps.jacobian h).ok run
      obtain ⟨stays, good, known⟩ := (Rig.computeJacobian_stays start).ok run
      refine ⟨fun _ ↦ .failed { rig := r, newton := e.newton } kept stays rfl _, fun loaded ↦ ?_⟩
      refine evaluate_keeps keeps kept stays (fun keeps_factors ↦ ?_) fun _ ↦ ⟨good loaded, ?_⟩
      · rw [refreshes] at keeps_factors
        cases keeps_factors
      · cases valid : e.rig.isValid .jacobian with
        | true =>
          rw [Rig.computeJacobian_of_valid valid] at run
          cases run
          exact .inr rfl
        | false => exact .inl (known loaded valid)
    · intro stop r run
      obtain ⟨known, kept⟩ := (keeps.jacobian h).error run
      exact ⟨⟨kept, .refl _⟩, .inl known⟩
  · refine evaluate_keeps keeps h (.refl start) (fun _ ↦ ?_) fun refreshes ↦ ?_
    · unfold keepsFactors at keeps_factors
      split at keeps_factors
      · cases keeps_factors
      · rw [Bool.and_eq_true] at keeps_factors
        exact keeps_factors.2
    · rw [keeps_factors] at refreshes
      cases refreshes

/-! ## A solve -/

/-- An engine after an iteration, which may have begun a solve. -/
structure Advanced (I : Rig δ α n → Prop) (e : Engine δ α n) (status : Status)
    (e' : Engine δ α n) : Prop where
  keeps : I e'.rig
  alike : e.newton.battery.Alike e'.newton.battery
  noted : e'.newton.status = status
  started : e'.newton.started = true
  arrives : e.newton.started = true → e.newton.status.isDecided = false → e.Arrives I status e'

/-- An iteration.  A solve that is not under way is started first. -/
theorem advance_keeps (keeps : Rig.Keeps I Q) (h : I e.rig) :
    Ends advance e (fun status e' ↦ e.Advanced I status e')
      (fun stop e' ↦ e.Halts I e' ∧ (Q stop ∨ stop = .missingJacobian ∧
        e.newton.started = true ∧ e.newton.status.isDecided = false ∧ e.Exposed ∧
          ∃ r, Rig.computeResidual e.rig = .ok true r)) := by
  unfold advance
  simp only [ends_bind, ends_get, ends_ite, ends_pure, Bool.not_eq_true', Bool.not_eq_false,
    Bool.not_eq_true]
  refine ⟨fun unstarted ↦ ?_, fun started ↦ ⟨fun decided ↦ ?_, fun undecided ↦ ?_⟩⟩
  · refine (begin_keeps keeps h).mono ?_ ?_
    · rintro status e₁ ⟨arrives, -⟩
      have alike := (Battery.reset_alike e.newton.battery).trans arrives.alike
      have later : ∀ {p : Prop}, e.newton.started = true → p := by
        intro p started
        rw [unstarted] at started
        cases started
      refine ⟨fun decided ↦ ⟨arrives.keeps, alike, arrives.noted, arrives.started, later⟩,
        fun undecided ↦ ⟨fun decided ↦ ?_, fun _ ↦ ?_⟩⟩
      · rw [arrives.noted, undecided] at decided
        cases decided
      · refine (iterateOnce_keeps keeps arrives.keeps).mono ?_ ?_
        · exact fun status e' arrives' ↦ ⟨arrives'.keeps, alike.trans arrives'.alike,
            arrives'.noted, arrives'.started.trans arrives.started, later⟩
        · intro stop e' interrupted
          refine ⟨⟨interrupted.halts.keeps, alike.trans interrupted.halts.alike⟩, ?_⟩
          rcases interrupted.cause with known | ⟨-, exposed, -⟩
          · exact .inl known
          · exact absurd exposed (arrives.judged.not_exposed undecided)
    · rintro stop e' ⟨known, halts⟩
      exact ⟨halts, .inl known⟩
  · refine ⟨h, .refl _, rfl, started, fun _ undecided ↦ ?_⟩
    rw [decided] at undecided
    cases undecided
  · refine (iterateOnce_keeps keeps h).mono ?_ ?_
    · exact fun status e' arrives ↦ ⟨arrives.keeps, arrives.alike,
        arrives.noted, arrives.started.trans started, fun _ _ ↦ arrives⟩
    · intro stop e' interrupted
      refine ⟨interrupted.halts, ?_⟩
      rcases interrupted.cause with known | ⟨missing, exposed⟩
      · exact .inl known
      · exact .inr ⟨missing, started, undecided, exposed⟩

theorem iterateWhile_decided {status : Status} (decided : status.isDecided = true)
    (budget : Nat) : iterateWhile budget status = (pure () : Step (Engine δ α n) Unit) := by
  cases budget with
  | zero => rfl
  | succ budget => rw [iterateWhile, if_pos decided]

/-- The iterations of a solve. -/
theorem iterateWhile_keeps (keeps : Rig.Keeps I Q) {status : Status} (h : I e.rig)
    (started : e.newton.started = true) (noted : e.newton.status = status)
    (judged : e.Judged status) (budget : Nat) :
    Ends (iterateWhile budget status) e (fun _ e' ↦ e.Arrives I e'.newton.status e')
      (fun stop e' ↦ Q stop ∧ e.Halts I e') := by
  have here : e.Arrives I e.newton.status e :=
    ⟨h, .refl _, rfl, rfl, noted ▸ judged, .of_eq rfl rfl rfl⟩
  induction budget generalizing e status with
  | zero => exact here
  | succ budget ih =>
    rw [iterateWhile]
    simp only [ends_ite, ends_pure, ends_bind, Bool.not_eq_true]
    refine ⟨fun _ ↦ here, fun undecided ↦ ?_⟩
    have undecided' : e.newton.status.isDecided = false := by rw [noted, undecided]
    refine (advance_keeps keeps h).mono ?_ ?_
    · rintro status' e₁ ⟨kept, alike, noted', started', arrives⟩
      have arrives := arrives started undecided'
      refine (ih kept started' noted' arrives.judged ⟨kept, .refl _, rfl, rfl,
        noted' ▸ arrives.judged, .of_eq rfl rfl rfl⟩).mono ?_ ?_
      · exact fun _ e' arrives' ↦ ⟨arrives'.keeps, alike.trans arrives'.alike, rfl,
          arrives'.started.trans arrives.started, arrives'.judged,
          arrives.paces.trans arrives'.paces⟩
      · rintro stop e' ⟨known, halts⟩
        exact ⟨known, halts.keeps, alike.trans halts.alike⟩
    · rintro stop e' ⟨halts, known | ⟨-, -, -, exposed, -⟩⟩
      · exact ⟨known, halts⟩
      · exact absurd exposed (judged.not_exposed undecided)

/-- An engine after a whole solve. -/
structure Solved (I : Rig δ α n → Prop) (e : Engine δ α n) (outcome : Outcome α)
    (e' : Engine δ α n) : Prop where
  handed : outcome = e'.newton.outcome
  arrives : e.opened.Arrives I outcome.status e'

/-- A whole solve. -/
theorem solve_keeps (keeps : Rig.Keeps I Q) (h : I e.rig) :
    Ends solve e (fun outcome e' ↦ e.Solved I outcome e')
      (fun stop e' ↦ Q stop ∧ e.Halts I e') := by
  unfold solve
  simp only [ends_bind, ends_get, ends_pure]
  refine (begin_keeps keeps h).mono ?_ fun _ _ h ↦ h
  rintro status e₁ ⟨arrives, -⟩
  refine (iterateWhile_keeps keeps arrives.keeps arrives.started arrives.noted arrives.judged
    _).mono ?_ ?_
  · exact fun _ e' arrives' ↦ ⟨rfl, arrives'.keeps, arrives.alike.trans arrives'.alike, rfl,
      arrives'.started.trans arrives.started, arrives'.judged,
      arrives.paces.trans arrives'.paces⟩
  · rintro stop e' ⟨known, halts⟩
    exact ⟨known, halts.keeps, ((Battery.reset_alike _).trans arrives.alike).trans halts.alike⟩

end Engine

end OperatingPoint
