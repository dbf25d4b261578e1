import OperatingPoint.Proofs.BenchStops
import OperatingPoint.Proofs.Budget

/-!
# An iteration taken apart

An iteration of Newton's method gets to a new iterate, `approach`, and puts it to the battery,
`settle`.  In between stands the question whether the battery is going to ask for the Newton
direction there: `asks`.  If it does not, what follows changes the driver and leaves the rig alone.

A solve is its beginning and one iteration after another.  `Attains` says where a solve stands that
is still undecided, and `Finishes` where it ends or stops, with the number of iterations that it has
gone into.
-/

set_option autoImplicit false

namespace OperatingPoint

open Step

namespace Engine

variable {δ α : Type} [Scalar α] [DirectSolver α] [Device δ α] {n : Nat}
  {e e' e'' : Engine δ α n}

/-! ## Two parts -/

/-- Follows a direction up to where the iterate can be put to the battery. -/
def pursue (direction : Vector α n) : Step (Engine δ α n) (Except Verdict (Vector α n)) := do
  let e ← get
  let base := e.iterate.x
  let old := (e.iterate.measured.norms?.map ResidualNorms.two).getD Scalar.infinity
  let _ ← lineSearch base direction old
  modifyNewton fun w ↦ { w with iteration := w.iteration + 1 }
  match (← get).iterate.measured.norms? with
  | some norms => if Scalar.isUndefined norms.two then return .error .nanFail else return .ok base
  | none => return .error .nanFail

/-- An iteration up to where the iterate can be put to the battery.  It hands back the iterate
before it, or the verdict on what has kept it from getting there. -/
def approach : Step (Engine δ α n) (Except Verdict (Vector α n)) := do
  let reuse := (← get).keepsFactors
  if !reuse then
    if !(← onRig Rig.computeJacobian) then return .error .nanFail
  if !(← onRig Rig.computeResidual) then return .error .nanFail
  match ← usableDirection reuse with
  | .error verdict => return .error verdict
  | .ok d => pursue d

/-- The end of an iteration. -/
def settle : Except Verdict (Vector α n) → Step (Engine δ α n) Status
  | .error verdict => finish (.failed verdict)
  | .ok previous => do finish (← classify previous)

theorem follow_eq (d : Vector α n) :
    (follow d : Step (Engine δ α n) Status) = pursue d >>= settle := by
  unfold follow pursue
  simp only [bind_assoc]
  refine bind_congr fun e ↦ bind_congr fun _ ↦ bind_congr fun _ ↦ bind_congr fun e' ↦ ?_
  cases e'.iterate.measured.norms? with
  | none => rfl
  | some norms =>
    by_cases undefined : Scalar.isUndefined norms.two = true
    · simp only [if_pos undefined]
      rfl
    · simp only [if_neg undefined]
      rfl

/-- The two parts of an iteration from its residual on. -/
theorem direct_eq (reuse : Bool) :
    (do
      if !(← onRig Rig.computeResidual) then return ← finish (.failed .nanFail)
      match ← usableDirection reuse with
      | .error verdict => finish (.failed verdict)
      | .ok d => follow d : Step (Engine δ α n) Status) =
    (do
      if !(← onRig Rig.computeResidual) then return .error .nanFail
      match ← usableDirection reuse with
      | .error verdict => return .error verdict
      | .ok d => pursue d) >>= settle := by
  simp only [bind_assoc]
  refine bind_congr fun loaded ↦ ?_
  cases loaded with
  | false => rfl
  | true =>
    simp only [Bool.not_true, Bool.false_eq_true, if_false, bind_assoc]
    refine bind_congr fun answer ↦ ?_
    cases answer with
    | error verdict => rfl
    | ok d => exact follow_eq d

/-- An iteration is its two parts. -/
theorem iterateOnce_eq : (iterateOnce : Step (Engine δ α n) Status) = approach >>= settle := by
  unfold iterateOnce approach
  simp only [bind_assoc]
  refine bind_congr fun e ↦ ?_
  cases e.keepsFactors with
  | true =>
    simp only [Bool.not_true, Bool.false_eq_true, if_false]
    exact direct_eq true
  | false =>
    simp only [Bool.not_false, if_true, bind_assoc]
    refine bind_congr fun loaded ↦ ?_
    cases loaded with
    | false => rfl
    | true => exact direct_eq false

/-- Whether the battery is going to ask for the Newton direction at the end of an iteration from
here. -/
def asks (e : Engine δ α n) : Bool :=
  match approach e with
  | .ok (.ok previous) e' =>
    e'.newton.battery.needsDirection (e'.snapshot e'.rig.store.residual previous)
  | _ => false

theorem asks_of_approach {previous : Vector α n} (run : approach e = .ok (.ok previous) e') :
    e.asks = e'.newton.battery.needsDirection (e'.snapshot e'.rig.store.residual previous) := by
  rw [asks, run]

/-- An iterate is put to the battery, and the battery does not ask for anything. -/
theorem classify_unasked (valid : e.rig.isValid .residual = true) {previous : Vector α n}
    (unasked : e.newton.battery.needsDirection (e.snapshot e.rig.store.residual previous) =
      false) :
    Ends (classify previous) e
      (fun _ e' ↦ ∃ battery, e.newton.battery.Alike battery ∧
        e' = { e with newton := { e.newton with battery := battery } })
      (fun _ e' ↦ e'.rig = e.rig) := by
  unfold classify
  simp only [ends_bind, ends_get, iterate, Rig.residual_of_valid valid, ends_orFault_ok, unasked,
    Bool.false_eq_true, if_false, ends_pure, ends_modifyNewton, ends_lift]
  exact ⟨fun _ _ ↦ ⟨_, (Battery.check_run e.newton.battery _ (.ok none)).alike, rfl⟩,
    fun _ _ ↦ trivial⟩

/-! ## One iteration after another -/

/-- A solve from `e` has made `i` iterations, has decided nothing, and stands at an engine. -/
inductive Attains (e : Engine δ α n) : (i : Nat) → Engine δ α n → Prop
  | begun {status : Status} {e' : Engine δ α n} (run : begin e = .ok status e')
    (undecided : status.isDecided = false) : Attains e 0 e'
  | iterated {i : Nat} {status : Status} {e' e'' : Engine δ α n} (earlier : Attains e i e')
    (run : iterateOnce e' = .ok status e'') (undecided : status.isDecided = false) :
    Attains e (i + 1) e''

/-- A solve from `e` has gone into `i` iterations and is at an end, decided or stopped. -/
inductive Finishes (e : Engine δ α n) : (i : Nat) → Engine δ α n → Prop
  | decided {status : Status} {e' : Engine δ α n} (run : begin e = .ok status e')
    (decided : status.isDecided = true) : Finishes e 0 e'
  | stopped {stop : Stop} {e' : Engine δ α n} (run : begin e = .error stop e') : Finishes e 0 e'
  | decidedLater {i : Nat} {status : Status} {e' e'' : Engine δ α n} (earlier : Attains e i e')
    (run : iterateOnce e' = .ok status e'') (decided : status.isDecided = true) :
    Finishes e (i + 1) e''
  | stoppedLater {i : Nat} {stop : Stop} {e' e'' : Engine δ α n} (earlier : Attains e i e')
    (run : iterateOnce e' = .error stop e'') : Finishes e (i + 1) e''

theorem Attains.driver {i : Nat} (h : e.Attains i e') :
    e'.newton.started = true ∧ e'.newton.status.isDecided = false ∧ e'.newton.iteration = i := by
  induction h with
  | begun run undecided =>
    have opens := begin_counts.ok run
    refine ⟨opens.started, ?_, opens.iteration⟩
    rw [opens.noted]
    exact undecided
  | iterated earlier run undecided ih =>
    have counts := iterateOnce_counts.ok run
    refine ⟨counts.started.trans ih.1, ?_, ?_⟩
    · rw [counts.noted]
      exact undecided
    · rw [(counts.undecided undecided).1, ih.2.2]

/-- What a Newton driver keeps holds wherever a solve stands, and the residual is there. -/
theorem Attains.keeps {I : Rig δ α n → Prop} {Q : Stop → Prop} (keeps : Rig.Keeps I Q)
    (h : I e.rig) {i : Nat} (attains : e.Attains i e') :
    I e'.rig ∧ e'.rig.isValid .residual = true := by
  induction attains with
  | begun run undecided =>
    have arrives := ((begin_keeps keeps h).ok run).1
    exact ⟨arrives.keeps, arrives.judged.undecided undecided⟩
  | iterated _ run undecided ih =>
    have arrives := (iterateOnce_keeps keeps ih.1).ok run
    exact ⟨arrives.keeps, arrives.judged.undecided undecided⟩

/-- Where a program of the driver has left an engine, if it has come to its end undecided. -/
def undecided? : EStateM.Result Stop (Engine δ α n) Status → Option (Engine δ α n)
  | .ok status e => if status.isDecided then none else some e
  | .error _ _ => none

omit [Device δ α] in
theorem undecided?_eq_some {result : EStateM.Result Stop (Engine δ α n) Status} :
    undecided? result = some e ↔ ∃ status, result = .ok status e ∧ status.isDecided = false := by
  cases result with
  | error stop e' => simp [undecided?]
  | ok status e' =>
    constructor
    · intro there
      rw [undecided?] at there
      split at there
      · cases there
      · rename_i undecided
        cases there
        exact ⟨status, rfl, Bool.eq_false_iff.2 undecided⟩
    · rintro ⟨_, ⟨⟩, undecided⟩
      rw [undecided?, if_neg (by rw [undecided]; decide)]

/-- Where a solve stands after `i` iterations, if it is still undecided. -/
def reached? (e : Engine δ α n) : (i : Nat) → Option (Engine δ α n)
  | 0 => undecided? (begin e)
  | i + 1 => (e.reached? i).bind fun e' ↦ undecided? (iterateOnce e')

theorem attains_iff {i : Nat} : e.Attains i e' ↔ e.reached? i = some e' := by
  constructor
  · intro attains
    induction attains with
    | begun run undecided => exact undecided?_eq_some.2 ⟨_, run, undecided⟩
    | iterated _ run undecided ih =>
      rw [reached?, ih, Option.bind_some]
      exact undecided?_eq_some.2 ⟨_, run, undecided⟩
  · intro there
    induction i generalizing e' with
    | zero =>
      obtain ⟨status, run, undecided⟩ := undecided?_eq_some.1 there
      exact .begun run undecided
    | succ i ih =>
      obtain ⟨e₁, earlier, next⟩ := Option.bind_eq_some_iff.1 there
      obtain ⟨status, run, undecided⟩ := undecided?_eq_some.1 next
      exact .iterated (ih earlier) run undecided

/-- A solve that has come to its end stands nowhere any more. -/
theorem Attains.lt_of_ended {i m : Nat} (attains : e.Attains i e')
    (ended : (e.reached? m).isNone = true) : i < m := by
  have later : ∀ more, e.reached? (m + more) = none := by
    intro more
    induction more with
    | zero => exact Option.isNone_iff_eq_none.1 ended
    | succ more ih => rw [← Nat.add_assoc, reached?, ih, Option.bind_none]
  refine Nat.lt_of_not_le fun past ↦ ?_
  obtain ⟨more, rfl⟩ := Nat.exists_eq_add_of_le past
  have there := attains_iff.1 attains
  rw [later more] at there
  cases there

/-- That the battery never asks can be looked up, for a solve that comes to its end. -/
theorem unasked_of_ended {m : Nat} (ended : (e.reached? m).isNone = true)
    (silent : ∀ i < m, (e.reached? i).all (fun e' ↦ !e'.asks) = true) (i : Nat) (e' : Engine δ α n)
    (attains : e.Attains i e') : e'.asks = false := by
  have quiet := silent i (attains.lt_of_ended ended)
  rw [attains_iff.1 attains] at quiet
  simpa using quiet

/-- The loop of a solve goes on from where the solve stands. -/
theorem Loops.finishes {status : Status} {rounds : Nat}
    {result : EStateM.Result Stop (Engine δ α n) Unit} (loops : Loops status e' rounds result)
    (undecided : status.isDecided = false) {i : Nat} (attains : e.Attains i e') :
    ∃ m t, e.Finishes m t ∧ (result = .ok () t ∨ ∃ stop, result = .error stop t) := by
  induction loops generalizing i with
  | decided decided =>
    rw [decided] at undecided
    cases undecided
  | @again status status' e₁ e₂ rounds result _ run rest ih =>
    obtain ⟨started, noted, -⟩ := attains.driver
    rw [advance_underway started noted] at run
    cases next : status'.isDecided with
    | true =>
      cases rest with
      | decided => exact ⟨_, _, .decidedLater attains run next, .inl rfl⟩
      | again open' =>
        rw [next] at open'
        cases open'
      | stopped open' =>
        rw [next] at open'
        cases open'
    | false => exact ih next (.iterated attains run next)
  | stopped _ run =>
    obtain ⟨started, noted, -⟩ := attains.driver
    rw [advance_underway started noted] at run
    exact ⟨_, _, .stoppedLater attains run, .inr ⟨_, rfl⟩⟩

/-- A whole solve is at an end that its iterations lead to. -/
theorem solve_finishes :
    Ends solve e (fun outcome e' ↦ outcome = e'.newton.outcome ∧ ∃ i, e.Finishes i e')
      (fun _ e' ↦ ∃ i, e.Finishes i e') := by
  unfold solve
  simp only [ends_bind, ends_get, ends_pure]
  refine .of_result (R := fun result ↦ begin e = result) rfl ?_ fun _ _ run ↦ ⟨0, .stopped run⟩
  intro status e₁ run
  cases open_ : status.isDecided with
  | true =>
    rw [iterateWhile_decided open_, ends_pure]
    exact ⟨trivial, 0, .decided run open_⟩
  | false =>
    have opens := begin_counts.ok run
    have underway := underway_of_opens opens (Nat.le_of_eq (congrArg _ opens.alike.options.symm))
    obtain ⟨rounds, -, loops⟩ := underway.loops
    obtain ⟨m, t, finishes, ended⟩ := loops.finishes open_ (.begun run open_)
    refine .of_result (R := fun result ↦
      iterateWhile e₁.newton.options.maxSteps status e₁ = result) rfl ?_ ?_
    · intro _ e₂ ran
      obtain done | ⟨stop, done⟩ := ended
      · have same := ran.symm.trans done
        cases same
        exact ⟨trivial, m, finishes⟩
      · have same := ran.symm.trans done
        cases same
    · intro stop e₂ ran
      obtain done | ⟨stop', done⟩ := ended
      · have same := ran.symm.trans done
        cases same
      · have same := ran.symm.trans done
        cases same
        exact ⟨m, finishes⟩

end Engine

end OperatingPoint
