import OperatingPoint.Proofs.NewtonRun

/-!
# A Newton solve ends within its budget

The loop of a Newton solve has no counter of its own.  It goes on for as long as the battery does
not decide, and it comes to an end because the battery decides at every iteration at or past the
budget: on each way through its tests, whatever the comparisons of the norms come to, whatever the
devices say and whatever becomes of the direction that it asks for.  An iteration that does not
decide has counted up by one.

Nothing is supposed of the engine.  The device layer may answer as it likes, the iterate may be in
the middle of something, and the driver may stand anywhere.

`Loops` is the loop without a bound, with the number of its rounds.
-/

set_option autoImplicit false

namespace OperatingPoint

open Step

/-! ## The battery -/

namespace Battery

variable {α : Type} [Scalar α] {b : Battery α} {snap : Snapshot α} {iteration : Nat}

theorem conclude_decided (spent : b.options.maxSteps ≤ iteration) :
    (b.conclude iteration).2.isDecided = true := by
  have run := conclude_run b iteration
  generalize b.conclude iteration = p at run
  cases run with
  | near | late | spent => rfl
  | small _ early | grown early | stagnated _ _ early | counted _ _ early | uncounted _ early =>
    exact absurd early (Nat.not_lt.2 spent)

theorem judge_decided (spent : b.options.maxSteps ≤ iteration) (wrms : α) :
    (b.judge iteration wrms).2.isDecided = true := by
  unfold judge
  dsimp only
  split
  · rfl
  · exact conclude_decided (b := { b with wrms := wrms }) spent

/-- At or past the end of the budget a check does not leave anything undecided. -/
theorem decided_of_check {answer : Except Stop (Option (Array α))} {status : Status}
    (spent : b.options.maxSteps ≤ snap.iteration) (h : (b.check snap answer).2 = .ok status) :
    status.isDecided = true := by
  have screened : ∀ {b' o}, b.screen snap = (b', o) → Screened b snap (b', o) := by
    intro b' o screen
    rw [← screen]
    exact screen_run b snap
  have still : ∀ {b' o}, b.screen snap = (b', o) → b'.options.maxSteps ≤ snap.iteration := by
    intro b' o screen
    rw [(screened screen).alike.options]
    exact spent
  have run := check_run b snap answer
  generalize b.check snap answer = p at run h
  cases run with
  | screened screen =>
    cases h
    cases screened screen with
    | notFinite => rfl
    | inner => rfl
    | devices _ _ early => exact absurd early.2.2 (Nat.not_lt.2 spent)
    | rounding => rfl
  | initial screen first =>
    cases h
    exact conclude_decided (first ▸ still screen)
  | judged screen =>
    cases h
    exact judge_decided (still screen) _
  | judgedDirection screen =>
    cases h
    exact judge_decided (still screen) _
  | still => cases h; rfl
  | unweighed => cases h
  | stopped => cases h
  | unweighedDirection => cases h

end Battery

/-! ## What the programs do to the driver -/

namespace Newton

variable {α : Type} {w w' w'' : Newton α} {status : Status}

/-- A driver has been taken on by one iteration, or by a part of one, and stands at `status`. -/
structure Counts (w : Newton α) (status : Status) (w' : Newton α) : Prop where
  alike : w.battery.Alike w'.battery
  noted : w'.status = status
  started : w'.started = w.started
  iteration : w'.iteration ≤ w.iteration + 1
  undecided : status.isDecided = false →
    w'.iteration = w.iteration + 1 ∧ w'.iteration < w.battery.options.maxSteps

/-- A driver at the start of a solve stands at `status`. -/
structure Opens (w : Newton α) (status : Status) (w' : Newton α) : Prop where
  alike : w.battery.Alike w'.battery
  noted : w'.status = status
  started : w'.started = true
  iteration : w'.iteration = 0
  undecided : status.isDecided = false → 0 < w.battery.options.maxSteps

end Newton

namespace Engine

variable {δ α : Type} [Scalar α] [DirectSolver α] {n : Nat} {e : Engine δ α n} {w : Newton α}

theorem preserves_onRig {β : Type} (act : Step (Rig δ α n) β) :
    Preserves (onRig act) fun e ↦ e.newton = w := fun _ h ↦
  ends_onRig.2 ((Ends.trivial act _).mono (fun _ _ _ ↦ h) fun _ _ _ ↦ h)

theorem preserves_modifyTrack (change : Track α n → Track α n) :
    Preserves (modifyTrack change : Step (Engine δ α n) Unit) fun e ↦ e.newton = w := fun _ h ↦ h

variable [Device δ α]

theorem direction_newton :
    Preserves (direction : Step (Engine δ α n) _) fun e ↦ e.newton = w := by
  refine .bind (preserves_onRig _) fun _ ↦ .ite (.pure _) ?_
  refine .bind (preserves_onRig _) fun _ ↦ .ite (.pure _) ?_
  refine .bind (preserves_onRig _) fun _ ↦ .ite (.pure _) ?_
  exact .bind .get fun _ ↦ .bind (.orFault _) fun _ ↦ .pure _

theorem backtrack_newton (base direction : Vector α n) (old : α) (trials : Nat) (step : α) :
    Preserves (backtrack base direction old trials step : Step (Engine δ α n) α)
      fun e ↦ e.newton = w := by
  induction trials generalizing step with
  | zero => exact .pure step
  | succ trials ih =>
    refine .bind .get fun e ↦ .ite (.pure step) ?_
    exact .bind (preserves_modifyTrack _) fun _ ↦ .bind (preserves_onRig _) fun _ ↦ ih _

theorem lineSearch_newton (base direction : Vector α n) (old : α) :
    Preserves (lineSearch base direction old : Step (Engine δ α n) α) fun e ↦ e.newton = w := by
  refine .bind (preserves_modifyTrack _) fun _ ↦ .bind (preserves_onRig _) fun _ ↦ ?_
  refine .bind .get fun e ↦ ?_
  dsimp only
  split
  · exact .pure 1
  · exact backtrack_newton base direction old _ 1

omit [Device δ α] in
theorem usableDirection_newton (reuse : Bool) :
    Preserves (usableDirection reuse : Step (Engine δ α n) _) fun e ↦ e.newton = w := by
  refine .bind (preserves_onRig _) fun solved ↦ .bind .get fun e ↦ .ite ?_ ?_
  · exact .bind (.orFault _) fun _ ↦ .pure _
  · exact .ite (.pure _) (.pure _)

/-- Putting the iterate to the battery changes what the battery remembers and nothing else, and past
the end of the budget it decides. -/
theorem classify_counts (previous : Vector α n) :
    Ends (classify previous) e
      (fun status e' ↦ ∃ battery, e.newton.battery.Alike battery ∧
        e'.newton = { e.newton with battery := battery } ∧
        (e.newton.battery.options.maxSteps ≤ e.newton.iteration → status.isDecided = true))
      (fun _ _ ↦ True) := by
  unfold classify
  simp only [ends_bind, ends_get, ends_orFault, ends_ite, ends_pure, ends_attempt,
    ends_modifyNewton, implies_true, and_true]
  intro residual _
  have judged : ∀ (answer : Except Stop (Option (Array α))) (e' : Engine δ α n),
      e'.newton = e.newton →
      let p := e.newton.battery.check (e.snapshot residual previous) answer
      Ends (Step.lift p.2) { e' with newton := { e'.newton with battery := p.1 } }
        (fun status e' ↦ ∃ battery, e.newton.battery.Alike battery ∧
          e'.newton = { e.newton with battery := battery } ∧
          (e.newton.battery.options.maxSteps ≤ e.newton.iteration → status.isDecided = true))
        (fun _ _ ↦ True) := by
    intro answer e' same p
    refine ends_lift.2 ⟨fun status checked ↦ ⟨p.1, ?_, ?_, fun spent ↦ ?_⟩, fun _ _ ↦ trivial⟩
    · exact (Battery.check_run e.newton.battery _ answer).alike
    · rw [same]
    · exact Battery.decided_of_check spent checked
  refine ⟨fun _ ↦ ?_, fun _ ↦ judged (.ok none) e rfl⟩
  exact (direction_newton e rfl).mono (fun d e' same ↦ judged (.ok d) e' same)
    fun stop e' same ↦ judged (.error stop) e' same

theorem begin_counts :
    Ends begin e (fun status e' ↦ e.newton.Opens status e'.newton) (fun _ _ ↦ True) := by
  have reset := Battery.reset_alike e.newton.battery
  unfold begin
  simp only [ends_bind, ends_modifyNewton, ends_onRig, ends_ite, ends_get, ends_finish]
  refine (Ends.trivial Rig.computeResidual _).mono ?_ fun _ _ _ ↦ trivial
  refine fun ok r _ ↦
    ⟨fun _ ↦ ?_, fun _ ↦ ⟨reset, rfl, rfl, rfl, fun undecided ↦ by cases undecided⟩⟩
  refine (classify_counts _).mono ?_ fun _ _ _ ↦ trivial
  rintro status e' ⟨battery, alike, same, spent⟩
  rw [same]
  refine ⟨reset.trans alike, rfl, rfl, rfl, fun undecided ↦ ?_⟩
  refine Nat.pos_of_ne_zero fun none ↦ ?_
  rw [spent (Nat.le_of_eq none)] at undecided
  cases undecided

omit [Device δ α] in
theorem finish_counts (same : e.newton = w) (v : Verdict) :
    Ends (finish (.failed v)) e (fun status e' ↦ w.Counts status e'.newton) (fun _ _ ↦ True) := by
  rw [ends_finish, same]
  exact ⟨.refl _, rfl, rfl, Nat.le_succ _, fun undecided ↦ by cases undecided⟩

theorem follow_counts (same : e.newton = w) (d : Vector α n) :
    Ends (follow d) e (fun status e' ↦ w.Counts status e'.newton) (fun _ _ ↦ True) := by
  unfold follow
  simp only [ends_bind, ends_get, ends_modifyNewton]
  refine (lineSearch_newton _ _ _ e same).mono ?_ fun _ _ _ ↦ trivial
  intro _ e₁ same₁
  have moved : w.Counts (.failed .nanFail)
      { e₁.newton with iteration := e₁.newton.iteration + 1, status := .failed .nanFail } := by
    rw [same₁]
    exact ⟨.refl _, rfl, rfl, Nat.le_refl _, fun undecided ↦ by cases undecided⟩
  split
  · simp only [ends_ite, ends_bind, ends_finish]
    refine ⟨fun _ ↦ moved, fun _ ↦ (classify_counts _).mono ?_ fun _ _ _ ↦ trivial⟩
    rintro status e₂ ⟨battery, alike, same₂, spent⟩
    rw [same₂]
    dsimp only at alike spent ⊢
    rw [same₁] at alike spent ⊢
    refine ⟨alike, rfl, rfl, Nat.le_refl _, fun undecided ↦ ⟨rfl, Nat.lt_of_not_le fun reached ↦ ?_⟩⟩
    rw [spent reached] at undecided
    cases undecided
  · exact moved

/-! An iteration counts up by one, or it decides. -/

theorem direct_counts (same : e.newton = w) (reuse : Bool) :
    Ends (usableDirection reuse) e
      (fun answer e₁ ↦ Ends (match answer with
        | .error verdict => finish (.failed verdict)
        | .ok d => follow d) e₁ (fun status e' ↦ w.Counts status e'.newton) (fun _ _ ↦ True))
      (fun _ _ ↦ True) := by
  refine (usableDirection_newton _ e same).mono (fun answer e₁ same₁ ↦ ?_) fun _ _ _ ↦ trivial
  cases answer with
  | error v => exact finish_counts same₁ v
  | ok d => exact follow_counts same₁ d

theorem evaluate_counts (r : Rig δ α n) (w : Newton α) (reuse : Bool) :
    Ends Rig.computeResidual r
      (fun ok r' ↦
        ((!ok) = true → Ends (finish (.failed .nanFail)) { rig := r', newton := w }
          (fun status e' ↦ w.Counts status e'.newton) (fun _ _ ↦ True)) ∧
        (¬ (!ok) = true → Ends (usableDirection reuse) { rig := r', newton := w }
          (fun answer e₁ ↦ Ends (match answer with
            | .error verdict => finish (.failed verdict)
            | .ok d => follow d) e₁ (fun status e' ↦ w.Counts status e'.newton) (fun _ _ ↦ True))
          (fun _ _ ↦ True)))
      (fun _ _ ↦ True) :=
  (Ends.trivial _ r).mono
    (fun _ _ _ ↦ ⟨fun _ ↦ finish_counts rfl _, fun _ ↦ direct_counts rfl reuse⟩) fun _ _ _ ↦ trivial

theorem iterateOnce_counts :
    Ends iterateOnce e (fun status e' ↦ e.newton.Counts status e'.newton) (fun _ _ ↦ True) := by
  unfold iterateOnce
  simp only [ends_bind, ends_get, ends_ite, ends_onRig]
  refine ⟨fun _ ↦ ?_, fun _ ↦ evaluate_counts e.rig e.newton _⟩
  refine (Ends.trivial Rig.computeJacobian e.rig).mono (fun _ r _ ↦ ?_) fun _ _ _ ↦ trivial
  exact ⟨fun _ ↦ finish_counts rfl _, fun _ ↦ evaluate_counts r e.newton _⟩

/-- What an iteration does to a solve that is under way. -/
def resume : Step (Engine δ α n) Status := do
  let status := (← get).newton.status
  if status.isDecided then return status
  iterateOnce

theorem resume_undecided (undecided : e.newton.status.isDecided = false) :
    resume e = iterateOnce e := by
  rw [resume, get_bind, if_neg (by rw [undecided]; decide)]

theorem advance_started (started : e.newton.started = true) : advance e = resume e := by
  show (get >>= fun e' ↦ if (!e'.newton.started) = true then _ else resume :
    Step (Engine δ α n) Status) e = resume e
  rw [get_bind, if_neg (by rw [started]; decide)]

/-- The first iteration of a solve evaluates the initial guess before it. -/
theorem advance_unstarted (unstarted : e.newton.started = false) :
    advance e = (do
      let status ← begin
      if status.isDecided then return status
      resume : Step (Engine δ α n) Status) e := by
  show (get >>= fun e' ↦ if (!e'.newton.started) = true then _ else resume :
    Step (Engine δ α n) Status) e = _
  rw [get_bind, if_pos (by rw [unstarted]; rfl)]
  rfl

/-- A solve that is under way and undecided goes on with an iteration. -/
theorem advance_underway (started : e.newton.started = true)
    (undecided : e.newton.status.isDecided = false) : advance e = iterateOnce e := by
  rw [advance_started started, resume_undecided undecided]

theorem resume_noted :
    Ends resume e (fun status e' ↦ e'.newton.status = status) (fun _ _ ↦ True) := by
  unfold resume
  simp only [ends_bind, ends_get, ends_ite, ends_pure, implies_true, true_and]
  exact fun _ ↦ iterateOnce_counts.mono (fun _ _ counts ↦ counts.noted) fun _ _ _ ↦ trivial

/-- The status that an iteration hands back is noted. -/
theorem advance_noted :
    Ends advance e (fun status e' ↦ e'.newton.status = status) (fun _ _ ↦ True) := by
  cases started : e.newton.started with
  | true =>
    rw [Ends, advance_started started]
    exact resume_noted
  | false =>
    rw [Ends, advance_unstarted started, ← Ends]
    simp only [ends_bind, ends_ite, ends_pure]
    exact begin_counts.mono (fun _ _ opens ↦ ⟨fun _ ↦ opens.noted, fun _ ↦ resume_noted⟩)
      fun _ _ _ ↦ trivial

/-! ## The loop -/

/-- Iterating from `status` for as long as nothing is decided, in `rounds` iterations. -/
inductive Loops : Status → Engine δ α n → (rounds : Nat) →
    EStateM.Result Stop (Engine δ α n) Unit → Prop
  | decided {status : Status} {e : Engine δ α n} (h : status.isDecided = true) :
    Loops status e 0 (.ok () e)
  | again {status status' : Status} {e e' : Engine δ α n} {rounds : Nat}
    {result : EStateM.Result Stop (Engine δ α n) Unit} (h : status.isDecided = false)
    (run : advance e = .ok status' e') (rest : Loops status' e' rounds result) :
    Loops status e (rounds + 1) result
  | stopped {status : Status} {e e' : Engine δ α n} {stop : Stop} (h : status.isDecided = false)
    (run : advance e = .error stop e') : Loops status e 1 (.error stop e')

theorem iterateWhile_ok {status status' : Status} {e' : Engine δ α n} {budget : Nat}
    (h : status.isDecided = false) (run : advance e = .ok status' e') :
    iterateWhile (budget + 1) status e = iterateWhile budget status' e' := by
  rw [iterateWhile, if_neg (by rw [h]; decide)]
  exact bind_of_ok run

theorem iterateWhile_error {status : Status} {e' : Engine δ α n} {stop : Stop} {budget : Nat}
    (h : status.isDecided = false) (run : advance e = .error stop e') :
    iterateWhile (budget + 1) status e = .error stop e' := by
  rw [iterateWhile, if_neg (by rw [h]; decide)]
  exact bind_of_error run

/-- A budget that is large enough for the loop does not show in its result. -/
theorem Loops.iterateWhile {status : Status} {rounds : Nat}
    {result : EStateM.Result Stop (Engine δ α n) Unit} (h : Loops status e rounds result)
    {budget : Nat} (enough : rounds ≤ budget) : Engine.iterateWhile budget status e = result := by
  induction h generalizing budget with
  | decided h => exact congrFun (iterateWhile_decided h budget) _
  | again h run rest ih =>
    obtain ⟨budget, rfl⟩ := Nat.exists_eq_add_of_le' (Nat.le_trans (Nat.le_add_left 1 _) enough)
    rw [iterateWhile_ok h run]
    exact ih (Nat.le_of_succ_le_succ enough)
  | stopped h run =>
    obtain ⟨budget, rfl⟩ := Nat.exists_eq_add_of_le' enough
    exact iterateWhile_error h run

/-- A solve that is under way at `status`, with `budget` iterations left at most. -/
structure Underway (e : Engine δ α n) (status : Status) (budget : Nat) : Prop where
  noted : e.newton.status = status
  started : e.newton.started = true
  left : status.isDecided = false →
    0 < budget ∧ e.newton.battery.options.maxSteps ≤ e.newton.iteration + budget

/-- An iteration leaves one less. -/
theorem Underway.next {status status' : Status} {budget : Nat} {e' : Engine δ α n}
    (h : e.Underway status (budget + 1)) (undecided : status.isDecided = false)
    (run : advance e = .ok status' e') :
    e.newton.Counts status' e'.newton ∧ e'.Underway status' budget := by
  have counts : e.newton.Counts status' e'.newton := by
    rw [advance_underway h.started (by rw [h.noted, undecided])] at run
    exact iterateOnce_counts.ok run
  refine ⟨counts, counts.noted, counts.started.trans h.started, fun undecided' ↦ ?_⟩
  obtain ⟨next, below⟩ := counts.undecided undecided'
  have left := (h.left undecided).2
  rw [counts.alike.options]
  omega

/-- The loop comes to an end while there is budget. -/
theorem Underway.loops {status : Status} {budget : Nat} (h : e.Underway status budget) :
    ∃ rounds ≤ budget, Loops status e rounds (iterateWhile budget status e) := by
  induction budget generalizing e status with
  | zero =>
    cases decided : status.isDecided with
    | true => exact ⟨0, Nat.le_refl 0, .decided decided⟩
    | false => exact absurd (h.left decided).1 (Nat.lt_irrefl 0)
  | succ budget ih =>
    cases decided : status.isDecided with
    | true =>
      rw [iterateWhile_decided decided]
      exact ⟨0, Nat.zero_le _, .decided decided⟩
    | false =>
      cases run : advance e with
      | ok status' e' =>
        obtain ⟨rounds, few, rest⟩ := ih (h.next decided run).2
        rw [iterateWhile_ok decided run]
        exact ⟨rounds + 1, Nat.succ_le_succ few, .again decided run rest⟩
      | error stop e' =>
        rw [iterateWhile_error decided run]
        exact ⟨1, Nat.succ_le_succ (Nat.zero_le _), .stopped decided run⟩

/-- What the loop leaves if it does not stop: a decision. -/
theorem Loops.decides {status : Status} {rounds : Nat}
    {result : EStateM.Result Stop (Engine δ α n) Unit} (h : Loops status e rounds result)
    {budget : Nat} (underway : e.Underway status budget) {e' : Engine δ α n}
    (ended : result = .ok () e') :
    e'.newton.status.isDecided = true ∧ e.newton.battery.Alike e'.newton.battery := by
  induction h generalizing budget with
  | decided h =>
    cases ended
    rw [underway.noted]
    exact ⟨h, .refl _⟩
  | again h run rest ih =>
    obtain ⟨budget, rfl⟩ := Nat.exists_eq_add_of_le' (underway.left h).1
    obtain ⟨counts, underway'⟩ := underway.next h run
    obtain ⟨decided, alike⟩ := ih underway' ended
    exact ⟨decided, counts.alike.trans alike⟩
  | stopped => cases ended

/-- A loop that begins within the budget of the options ends within it. -/
theorem Loops.within {status : Status} {rounds : Nat}
    {result : EStateM.Result Stop (Engine δ α n) Unit} (h : Loops status e rounds result)
    {budget : Nat} (underway : e.Underway status budget)
    (within : e.newton.iteration ≤ e.newton.battery.options.maxSteps)
    (below : status.isDecided = false →
      e.newton.iteration < e.newton.battery.options.maxSteps)
    {e' : Engine δ α n} (ended : result = .ok () e') :
    e'.newton.iteration ≤ e.newton.battery.options.maxSteps := by
  induction h generalizing budget with
  | decided h =>
    cases ended
    exact within
  | again h run rest ih =>
    obtain ⟨budget, rfl⟩ := Nat.exists_eq_add_of_le' (underway.left h).1
    obtain ⟨counts, underway'⟩ := underway.next h run
    have options := counts.alike.options
    rw [← options]
    refine ih underway' ?_ (fun undecided ↦ ?_) ended
    · rw [options]
      exact Nat.le_trans counts.iteration (below h)
    · rw [options]
      exact (counts.undecided undecided).2
  | stopped => cases ended

omit [Device δ α] in
/-- The loop of a solve that has begun. -/
theorem underway_of_opens {status : Status} {e' : Engine δ α n}
    (h : e.newton.Opens status e'.newton) {budget : Nat}
    (enough : e.newton.battery.options.maxSteps ≤ budget) : e'.Underway status budget where
  noted := h.noted
  started := h.started
  left undecided := by
    rw [h.alike.options, h.iteration]
    have := h.undecided undecided
    omega

/-- A whole solve that comes to its end has decided within the budget. -/
theorem solve_decides :
    Ends solve e
      (fun outcome _ ↦ outcome.status.isDecided = true ∧
        outcome.iterations ≤ e.newton.battery.options.maxSteps) (fun _ _ ↦ True) := by
  unfold solve
  simp only [ends_bind, ends_get, ends_pure]
  refine begin_counts.mono ?_ fun _ _ _ ↦ trivial
  intro status e₁ opens
  have underway := underway_of_opens opens (Nat.le_of_eq (congrArg _ opens.alike.options.symm))
  obtain ⟨rounds, -, loops⟩ := underway.loops
  refine .of_result (R := fun result ↦
    iterateWhile e₁.newton.options.maxSteps status e₁ = result) rfl ?_ fun _ _ _ ↦ trivial
  intro _ e₂ ended
  refine ⟨(loops.decides underway ended).1, ?_⟩
  rw [← opens.alike.options]
  refine loops.within underway ?_ (fun undecided ↦ ?_) ended
  · rw [opens.iteration]
    exact Nat.zero_le _
  · rw [opens.iteration, opens.alike.options]
    exact opens.undecided undecided

end Engine

end OperatingPoint
