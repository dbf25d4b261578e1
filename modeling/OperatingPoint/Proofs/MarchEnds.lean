import OperatingPoint.Proofs.MarchPasses

/-!
# A march ends

The loop of a march counts the steps that it accepts, and a pass that rejects one does not advance
it.  Such a pass halves the step in pseudo-time.  As long as no step has been accepted, the step
also grows in every pass.  It ends nevertheless: after a rejected step the march is back where it
was, the residual norm is the one that it has noted, and the step does not grow.  So no more
rejected steps follow each other than there are halvings between the bounds, and one for the first
pass, where the norm that was noted may have been another one.

`March.Marches` is the loop without a bound; a march is one of its runs.
-/

set_option autoImplicit false

namespace OperatingPoint

open Step

variable {δ α K : Type} [Scalar α] [DirectSolver α] [Device δ α] {n : Nat}
  [Field K] [LinearOrder K] [IsStrictOrderedRing K]

/-- A march between numbers `lo` and `hi` that nothing is forwarded in. -/
structure Rig.Steady (line : Scalar.Line K α) (lo hi : K) (P : PureDevice δ α) (r : Rig δ α n) :
    Prop extends r.Marching line lo hi P False where
  silent : r.track.overlay.forwarding = false
  measures : r.store.communicator.Measures

namespace March

/-! ## The loop -/

/-- What a pass of the loop was: a step that was accepted or rejected, or the end. -/
inductive TurnKind where
  | accepted
  | rejected
  | last
  deriving DecidableEq, Repr

/-- A pass of the loop. -/
structure Turn (δ α : Type) [LE α] [DirectSolver α] (n : Nat) where
  kind : TurnKind
  /-- The steps that were accepted before. -/
  steps : Nat
  before : Rig δ α n
  after : Rig δ α n

/-- The loop: while fewer steps than allowed are accepted, a pass is made. -/
inductive Marches (options : MarchOptions α) : (steps : Nat) → (greatest : α) → Rig δ α n →
    List (Turn δ α n) → EStateM.Result Stop (Rig δ α n) (MarchReport α) → Prop
  | usedUp {steps greatest r} (spent : options.maxSteps ≤ steps) :
    Marches options steps greatest r [] (reportAt .maxSteps steps greatest r)
  | ended {steps greatest r report r'} (more : steps < options.maxSteps)
    (run : pass options steps r = .ok (.inl report) r') :
    Marches options steps greatest r [⟨.last, steps, r, r'⟩] (.ok report r')
  | stopped {steps greatest r stop r'} (more : steps < options.maxSteps)
    (run : pass options steps r = .error stop r') :
    Marches options steps greatest r [⟨.last, steps, r, r'⟩] (.error stop r')
  | accepted {steps greatest r greatest' r' trace result} (more : steps < options.maxSteps)
    (run : pass options steps r = .ok (.inr (greatest', true)) r')
    (rest : Marches options (steps + 1) greatest' r' trace result) :
    Marches options steps greatest r (⟨.accepted, steps, r, r'⟩ :: trace) result
  | rejected {steps greatest r greatest' r' trace result} (more : steps < options.maxSteps)
    (run : pass options steps r = .ok (.inr (greatest', false)) r')
    (rest : Marches options steps greatest' r' trace result) :
    Marches options steps greatest r (⟨.rejected, steps, r, r'⟩ :: trace) result

/-- No more than so many passes from here are rejected before one is not. -/
def Cuts (options : MarchOptions α) (steps : Nat) : Nat → Rig δ α n → Prop
  | 0, r => ∀ greatest r', pass options steps r ≠ .ok (.inr (greatest, false)) r'
  | j + 1, r => ∀ greatest r', pass options steps r = .ok (.inr (greatest, false)) r' →
    Cuts options steps j r'

variable {P : PureDevice δ α} {r r' : Rig δ α n} {line : Scalar.Line K α} {lo hi h : K}
  {coherent : Prop} {p : PseudoTime α} {options : MarchOptions α} {steps : Nat}

/-- How a bounded number of passes goes on after the first. -/
def afterPass (options : MarchOptions α) (steps tries : Nat) :
    MarchReport α ⊕ α × Bool → Step (Rig δ α n) (MarchReport α ⊕ α)
  | .inl report => return .inl report
  | .inr (greatest, true) => return .inr greatest
  | .inr (_, false) => stepOrCut options steps tries

theorem stepOrCut_succ (options : MarchOptions α) (steps tries : Nat) :
    (stepOrCut options steps (tries + 1) : Step (Rig δ α n) _) =
      pass options steps >>= afterPass options steps tries := by
  unfold pass
  rw [stepOrCut, bind_assoc]
  refine congrArg _ (funext fun surveyed ↦ ?_)
  cases surveyed with
  | inl report => rfl
  | inr greatest =>
    dsimp only
    rw [bind_assoc]
    refine congrArg _ (funext fun taken ↦ ?_)
    cases taken with
    | true =>
      rw [if_pos rfl, if_pos rfl, bind_assoc]
      rfl
    | false =>
      rw [if_neg Bool.false_ne_true, if_neg Bool.false_ne_true, bind_assoc]
      refine congrArg _ (funext fun halved ↦ ?_)
      cases halved <;> rfl

/-! ## Rejected steps -/

/-- Before the first step is accepted, nothing has been loaded since the term noted the residual
norm at the point. -/
def Settled (P : PureDevice δ α) (steps : Nat) (p : PseudoTime α) (r : Rig δ α n) : Prop :=
  steps = 0 → r.isValid .residual = false ∧
    p.lastNorm = some (r.store.communicator.norm2 (r.posed P).toArray)

/-- What the survey of a pass makes of the term. -/
theorem Noted.term {r₁ : Rig δ α n} (noted : Noted steps r₁ r')
    (m : r₁.Marching line lo hi P coherent) (measures : r₁.store.communicator.Measures)
    (finite : r₁.Finite) (attached : r₁.Term p) (within : p.Within line lo hi h) :
    ∃ h' p', r'.Term p' ∧ p'.Within line lo hi h' ∧ (steps ≠ 0 → h' = h) ∧
      (steps = 0 → p'.lastNorm = some r₁.norm ∧ (p.lastNorm = some r₁.norm → h' = h)) := by
  cases noted with
  | first start attached' =>
    cases attached.symm.trans attached'
    obtain ⟨h', within', same⟩ := within.accept (m.finite_norm measures finite).2.2
    exact ⟨h', _, rfl, within', fun later ↦ absurd start later, fun _ ↦ ⟨rfl, same⟩⟩
  | later later =>
    exact ⟨h, p, attached, within, fun _ ↦ rfl, fun start ↦ absurd start later⟩

/-- After a step that is rejected the march is where it was, and its step in pseudo-time is half of
what it has come to before. -/
theorem Passed.rejected_spec {greatest : α} (steady : r.Steady line lo hi P)
    (attached : r.Term p) (within : p.Within line lo hi h)
    (passed : Passed line lo hi P (r.isValid .residual = false) options steps r
      (.inr (greatest, false)) r') :
    r'.Steady line lo hi P ∧ r'.isValid .residual = false ∧
      ∃ h₁ p', r'.Term p' ∧ lo < h₁ ∧ h₁ ≤ hi ∧ p'.Within line lo hi (max lo (min (h₁ / 2) hi)) ∧
        (Settled P steps p r → h₁ = h) ∧
        ((steps = 0 → r.isValid .residual = false) → Settled P steps p' r') := by
  cases passed with
  | @rejected r₁ r₂ _ surveyed tookBack p₂ p' attached₂ halved =>
    have ⟨_, ground, x⟩ := surveyed.spec steady.measures
    cases surveyed with
    | @onward r₀ _ _ computed finite noted =>
      have measures := computed.ground.measures steady.measures
      obtain ⟨p₀, attached₀, same₀⟩ := computed.term steady.silent p attached
      -- The step that is tried, and cut, is the one that the survey has come to.
      obtain ⟨h₁, p₁, attached₁, within₁, later, first⟩ :=
        noted.term computed.toMarching measures finite attached₀ (within.same same₀)
      obtain ⟨p₂', attached₂', same₂⟩ :=
        tookBack.term (ground.forwarding.trans steady.silent) p₁ attached₁
      cases attached₂.symm.trans attached₂'
      obtain ⟨above, last, cut⟩ := (within₁.same same₂).of_halve halved
      have ground' : r.Grounds P (r₂.withTerm p') :=
        (ground.trans tookBack.ground).trans (r₂.grounds_withTerm p')
      have m : (r₂.withTerm p').Marching line lo hi P False :=
        (tookBack.toMarching.withTerm cut).weaken False.elim
      have x' : (r₂.withTerm p').track.x = r.track.x := tookBack.x.trans x
      have norm : r.isValid .residual = false →
          r₀.norm = r.store.communicator.norm2 (r.posed P).toArray := by
        intro invalid
        rw [Rig.norm, computed.ground.communicator, (computed.known finite.1).2 invalid,
          computed.ground.posed computed.x]
      refine ⟨⟨m, ground'.forwarding.trans steady.silent, ground'.measures steady.measures⟩,
        tookBack.invalid, h₁, p', rfl, above, within₁.le_hi, cut, fun settled ↦ ?_,
        fun unloaded start ↦ ⟨tookBack.invalid, ?_⟩⟩
      · by_cases start : steps = 0
        · obtain ⟨invalid, noted⟩ := settled start
          exact (first start).2 (by rw [norm invalid, same₀.lastNorm, noted])
        · exact later start
      · rw [ground'.communicator, ground'.posed x', ← norm (unloaded start)]
        exact last.trans (same₂.lastNorm.trans (first start).1)

/-- Where a step is accepted or rejected, nothing is forwarded afterwards either. -/
theorem Passed.steady {greatest : α} {taken : Bool} (steady : r.Steady line lo hi P)
    (passed : Passed line lo hi P (r.isValid .residual = false) options steps r
      (.inr (greatest, taken)) r') : r'.Steady line lo hi P := by
  cases taken with
  | false =>
    obtain ⟨p, h, attached, within⟩ := steady.paced
    exact (passed.rejected_spec steady attached within).1
  | true =>
    cases passed with
    | @accepted r₁ r₂ _ surveyed took p attached =>
      have ⟨_, ground, _⟩ := surveyed.spec steady.measures
      have ground := ground.trans took.ground
      have measures := ground.measures steady.measures
      have m := took.toMarching.accept measures took.finite attached
      exact ⟨m.weaken False.elim, ground.forwarding.trans steady.silent, measures⟩

/-- A pass from a rig of a march.  If nothing is valid there, everything is coherent. -/
theorem passed_of_steady (steady : r.Steady line lo hi P)
    {passed : MarchReport α ⊕ α × Bool} (run : pass options steps r = .ok passed r') :
    Passed line lo hi P (r.isValid .residual = false) options steps r passed r' := by
  have m : r.Marching line lo hi P (r.isValid .residual = false) :=
    ⟨steady.paced, steady.unmoved, fun valid ↦ ⟨(steady.known valid).1, fun invalid ↦ by
      rw [valid] at invalid
      cases invalid⟩⟩
  exact (pass_passed m steady.measures).ok run

section

variable {j k : Nat} (pos : 0 < lo) (steady : r.Steady line lo hi P)
include pos steady

/-- If the step does not grow any more, it is the halvings to its lower bound that count. -/
theorem cuts_of_settled (attached : r.Term p) (within : p.Within line lo hi h)
    (settled : Settled P steps p r) (near : h ≤ lo * 2 ^ j) : Cuts options steps j r := by
  induction j generalizing r p h with
  | zero =>
    intro greatest r' run
    obtain ⟨-, -, h₁, p', -, above, -, -, same, -⟩ :=
      (passed_of_steady steady run).rejected_spec steady attached within
    rw [same settled] at above
    rw [pow_zero, mul_one] at near
    exact absurd above (not_lt.2 near)
  | succ j ih =>
    intro greatest r' run
    obtain ⟨steady', -, h₁, p', attached', -, -, cut, same, again⟩ :=
      (passed_of_steady steady run).rejected_spec steady attached within
    rw [same settled] at cut
    exact ih steady' attached' cut (again fun start ↦ (settled start).1)
      (PseudoTime.cut_le pos near)

/-- If nothing is valid, one pass may still let the step grow, and halves it from there. -/
theorem cuts_of_invalid (invalid : r.isValid .residual = false) (near : hi ≤ lo * 2 ^ k) :
    Cuts options steps k r := by
  obtain ⟨p, h, attached, within⟩ := steady.paced
  cases k with
  | zero =>
    intro greatest r' run
    obtain ⟨-, -, h₁, p', -, above, top, -, -, -⟩ :=
      (passed_of_steady steady run).rejected_spec steady attached within
    rw [pow_zero, mul_one] at near
    exact absurd above (not_lt.2 (top.trans near))
  | succ k =>
    intro greatest r' run
    obtain ⟨steady', -, h₁, p', attached', -, top, cut, -, again⟩ :=
      (passed_of_steady steady run).rejected_spec steady attached within
    exact cuts_of_settled pos steady' attached' cut (again fun _ ↦ invalid)
      (PseudoTime.cut_le pos (top.trans near))

/-- What has been valid at first may not be the residual at the point.  It is loaded anew once a
step has been rejected. -/
theorem cuts_of_steady (near : hi ≤ lo * 2 ^ k) : Cuts options steps (k + 1) r := by
  intro greatest r' run
  obtain ⟨p, h, attached, within⟩ := steady.paced
  obtain ⟨steady', invalid, -⟩ :=
    (passed_of_steady steady run).rejected_spec steady attached within
  exact cuts_of_invalid pos steady' invalid near

end

/-! ## Rows of rejected steps -/

section

variable {greatest : α} {trace row : List (Turn δ α n)}
  {result : EStateM.Result Stop (Rig δ α n) (MarchReport α)}

theorem Marches.row_le (marches : Marches options steps greatest r trace result) {j : Nat}
    (cuts : Cuts options steps j r) (here : row <+: trace)
    (rejected : ∀ turn ∈ row, turn.kind = .rejected) : row.length ≤ j := by
  induction marches generalizing j row with
  | usedUp =>
    obtain rfl := List.prefix_nil.1 here
    exact Nat.zero_le j
  | ended more run | stopped more run | accepted more run =>
    cases row with
    | nil => exact Nat.zero_le j
    | cons turn row =>
      obtain ⟨rfl, -⟩ := List.cons_prefix_cons.1 here
      cases rejected _ List.mem_cons_self
  | rejected more run rest ih =>
    cases row with
    | nil => exact Nat.zero_le j
    | cons turn row =>
      have onward := (List.cons_prefix_cons.1 here).2
      cases j with
      | zero => exact absurd run (cuts _ _)
      | succ j =>
        exact Nat.succ_le_succ (ih (cuts _ _ run) onward fun turn mem ↦
          rejected turn (List.mem_cons_of_mem _ mem))

theorem Marches.rows_le (marches : Marches options steps greatest r trace result) (pos : 0 < lo)
    (steady : r.Steady line lo hi P) {k : Nat} (near : hi ≤ lo * 2 ^ k) (here : row <:+: trace)
    (rejected : ∀ turn ∈ row, turn.kind = .rejected) : row.length ≤ k + 1 := by
  have first : row <+: trace → row.length ≤ k + 1 := fun here ↦
    marches.row_le (cuts_of_steady pos steady near) here rejected
  induction marches with
  | usedUp => exact first (List.prefix_nil.2 (List.infix_nil.1 here))
  | ended more run | stopped more run =>
    obtain here | here := List.infix_cons_iff.1 here
    · exact first here
    · rw [List.infix_nil.1 here]
      exact Nat.zero_le _
  | accepted more run rest ih | rejected more run rest ih =>
    obtain here | here := List.infix_cons_iff.1 here
    · exact first here
    · have steady' := (passed_of_steady steady run).steady steady
      exact ih steady' here fun here ↦
        rest.row_le (cuts_of_steady pos steady' near) here rejected

end

/-! ## The bounds of a march -/

section

variable {greatest : α} {result : EStateM.Result Stop (Rig δ α n) (MarchReport α)}
  {I : Rig δ α n → Prop}
  (kept : ∀ {steps : Nat} {passed : α × Bool} {r r' : Rig δ α n}, I r →
    pass options steps r = .ok (.inr passed) r' → I r')
include kept

/-- A bounded number of tries that is not used up is the loop up to the next accepted step. -/
theorem marches_of_stepOrCut {next : MarchReport α ⊕ α → Step (Rig δ α n) (MarchReport α)}
    (ends : ∀ report, next (.inl report) = pure report)
    (later : ∀ {greatest r'}, I r' → next (.inr greatest) r' = result →
      ∃ trace, Marches options (steps + 1) greatest r' trace result)
    (more : steps < options.maxSteps) {j tries : Nat} (cuts : Cuts options steps j r)
    (enough : j < tries) (inv : I r)
    (run : (stepOrCut options steps tries >>= next) r = result) :
    ∃ trace, Marches options steps greatest r trace result := by
  -- With every try that is used up there is one cut less to come.
  induction tries generalizing r greatest j with
  | zero => exact absurd enough (Nat.not_lt_zero j)
  | succ tries ih =>
    rw [stepOrCut_succ, bind_assoc] at run
    cases ran : pass options steps r with
    | error stop r' =>
      rw [bind_of_error ran] at run
      subst run
      exact ⟨_, .stopped more ran⟩
    | ok passed r' =>
      rw [bind_of_ok ran] at run
      rcases passed with report | ⟨greatest', _ | _⟩
      · rw [afterPass, pure_bind, ends] at run
        subst run
        exact ⟨_, .ended more ran⟩
      · cases j with
        | zero => exact absurd ran (cuts _ _)
        | succ j =>
          obtain ⟨trace, rest⟩ :=
            ih (cuts _ _ ran) (Nat.lt_of_succ_lt_succ enough) (kept inv ran) run
          exact ⟨_, .rejected more ran rest⟩
      · rw [afterPass, pure_bind] at run
        obtain ⟨trace, rest⟩ := later (kept inv ran) run
        exact ⟨_, .accepted more ran rest⟩

/-- A march is the loop, if its tries are not used up. -/
theorem marches_of_marchFrom (headway : ∀ {steps tries r}
      {next : MarchReport α ⊕ α → Step (Rig δ α n) (MarchReport α)}, I r → tries = cutBudget r →
      (stepOrCut options steps tries >>= next) r = result →
      ∃ j < tries, Cuts options steps j r)
    {budget : Nat} (counted : steps + budget = options.maxSteps) (inv : I r)
    (run : marchFrom options budget steps greatest r = result) :
    ∃ trace, Marches options steps greatest r trace result := by
  induction budget generalizing steps greatest r with
  | zero =>
    subst run
    exact ⟨[], .usedUp (Nat.le_of_eq counted.symm)⟩
  | succ budget ih =>
    rw [marchFrom, get_bind] at run
    obtain ⟨j, enough, cuts⟩ := headway inv rfl run
    exact marches_of_stepOrCut kept (fun _ ↦ rfl)
      (fun inv' run' ↦ ih (by omega) inv' run') (by omega) cuts enough inv run

end

/-- A rig that suits the options of a march: the attached term has the same bounds, in order, and a
step between them.  What is valid at first has been measured. -/
structure Suits (line : Scalar.Line K α) (lo hi : K) (options : MarchOptions α) (r : Rig δ α n) :
    Prop where
  minStep : options.minStep = line.of lo
  maxStep : options.maxStep = line.of hi
  pos : 0 < lo
  paced : r.Paced line lo hi
  measures : r.store.communicator.Measures
  measured : r.isValid .residual = true →
    r.track.iterate.measured = .norms (r.store.communicator.normsOf r.store.residual.toArray)

theorem Suits.steady (suits : Suits line lo hi options r)
    (silent : r.track.overlay.forwarding = false) : r.Steady line lo hi P where
  paced := suits.paced
  unmoved := Rig.unmoved_of_silent silent
  known valid := ⟨suits.measured valid, False.elim⟩
  silent := silent
  measures := suits.measures

omit [Device δ α] in
/-- The tries of a pass are more than the cuts that can be needed. -/
theorem cutBudget_spec (halves : line.Halves) (pos : 0 < lo) (paced : r.Paced line lo hi) :
    ∃ k, hi ≤ lo * 2 ^ k ∧ k + 1 < cutBudget r := by
  obtain ⟨p, h, attached, within⟩ := paced
  refine ⟨Scalar.halvings p.maxStep p.minStep, ?_, ?_⟩
  · rw [within.maxStep, within.minStep]
    exact halves.le hi pos
  · unfold cutBudget Track.pseudoTime?
    rw [show r.track.overlay.strategy = _ from attached]
    exact Nat.lt_of_lt_of_le (Nat.lt_succ_self _) (Nat.add_le_add_right (Nat.le_add_left ..) 2)

/-- A march ends, whatever its loads do: the loop comes to its result after finitely many passes.
If the greatest step is at most the least one after `k` halvings, no more than `k + 1` steps in a
row are rejected. -/
theorem marches_of_run (P : PureDevice δ α) (halves : line.Halves)
    (suits : Suits line lo hi options r) (silent : r.track.overlay.forwarding = false) :
    ∃ trace, Marches options 0 Scalar.infinity r trace (run options r) ∧
      ∀ k, hi ≤ lo * 2 ^ k → ∀ row, row <:+: trace → (∀ turn ∈ row, turn.kind = .rejected) →
        row.length ≤ k + 1 := by
  have steady : r.Steady line lo hi P := suits.steady silent
  have kept : ∀ {steps : Nat} {passed : α × Bool} {r r' : Rig δ α n}, r.Steady line lo hi P →
      pass options steps r = .ok (.inr passed) r' → r'.Steady line lo hi P := fun steady run ↦
    (passed_of_steady steady run).steady steady
  have ends : ∃ trace, Marches options 0 Scalar.infinity r trace (run options r) := by
    refine marches_of_marchFrom kept ?_ (Nat.zero_add _) steady rfl
    rintro steps _ r next steady rfl -
    obtain ⟨k, near, enough⟩ := cutBudget_spec halves suits.pos steady.paced
    exact ⟨k + 1, enough, cuts_of_steady suits.pos steady near⟩
  obtain ⟨trace, marches⟩ := ends
  exact ⟨trace, marches, fun k near row here rejected ↦
    marches.rows_le suits.pos steady near here rejected⟩

end March

/-! ## A march of exact numbers -/

namespace ExtendedRat

theorem localSum_squares (f : Array ExtendedRat) (finite : ∀ v ∈ f, Scalar.isFinite v = true) :
    ∃ q : ℚ, 0 ≤ q ∧ Communicator.localSum (f.map fun v ↦ v * v) = number q := by
  rw [Communicator.localSum, Array.foldl_map]
  refine Array.foldl_induction
    (fun _ (sum : ExtendedRat) ↦ ∃ q : ℚ, 0 ≤ q ∧ sum = number q) ⟨0, le_rfl, rfl⟩ ?_
  rintro i _ ⟨q, sign, rfl⟩
  obtain ⟨p, here⟩ := exists_of_finite (finite _ (f.getElem_mem i.isLt))
  exact ⟨q + p * p, add_nonneg sign (mul_self_nonneg p), by rw [Fin.getElem_fin, here]; rfl⟩

/-- On a single rank a finite vector of rational numbers has a finite norm. -/
theorem serial_measures : (Communicator.serial : Communicator ExtendedRat).Measures := by
  intro f all
  have finite : f.all Scalar.isFinite = true := by
    by_contra broken
    rw [Communicator.allFinite, if_neg broken] at all
    cases all
  obtain ⟨q, sign, sum⟩ := localSum_squares f (Array.all_eq_true_iff_forall_mem.1 finite)
  rw [Communicator.norm2]
  change Scalar.isFinite (Scalar.sqrt (Communicator.localSum (f.map fun v ↦ v * v))) = true
  rw [sum]
  change isNumber (if q < 0 then undefined else _) = true
  rw [if_neg (not_lt.2 sign)]
  rfl

end ExtendedRat

/-- A device layer of exact numbers with a source and a fuse: beyond the limit of the fuse no
residual can be loaded. -/
structure Fuse where
  source : ExtendedRat
  limit : ExtendedRat

namespace Fuse

instance instDevice : Device Fuse ExtendedRat where
  unknowns _ := 1
  loadResidual f x _ _ :=
    ⟨x.toArray.all fun v ↦ decide (v ≤ f.limit), Vector.ofFn fun i ↦ x.get i - f.source, f⟩
  loadJacobian f _ _ _ := ⟨true, Mat.ofFn fun i j ↦ if i = j then 1 else 0, f⟩

/-- Loads leave a fuse as it is. -/
def pure : PureDevice Fuse ExtendedRat where
  View := Fuse
  view := id
  residual f x _ := Vector.ofFn fun i ↦ x.get i - f.source
  jacobian _ _ _ := Mat.ofFn fun i j ↦ if i = j then 1 else 0
  residual_buffer _ _ _ _ _ := rfl
  jacobian_buffer _ _ _ _ := rfl
  residual_view _ _ _ _ := rfl
  jacobian_view _ _ _ _ := rfl
  accept_view _ _ := rfl
  abandon_view _ := rfl

/-- Whether a fuse can be loaded goes by the fuse alone. -/
theorem pure_decides (f : Fuse) : pure.Decides f := by
  rintro d d' - - (rfl : d = d') n x previous buffer buffer'
  rfl

/-- A step of one in pseudo-time, which can be halved twice and doubled once. -/
def term : PseudoTime ExtendedRat where
  voltage := .full 1
  all := .full 1
  step := 1
  minStep := 0.25
  maxStep := .number 2
  voltageScale := 1
  otherScale := 1
  min_le_max := by decide +kernel

/-- A fuse that is marched up to where it blows. -/
def rig : Rig Fuse ExtendedRat 1 :=
  ⟨.new ⟨4, 1.5⟩ .serial .standard 1,
    { iterate := { id := 1, x := zeros _ 1 }
      overlay := { strategy := some (.pseudoTransient term) } }⟩

/-- Marches with that term, until the residual is below a tolerance. -/
def options (switchTol : ExtendedRat) : MarchOptions ExtendedRat where
  initialStep := 1
  minStep := 0.25
  maxStep := .number 2
  maxSteps := 5
  switchTol := switchTol
  voltageScale := 1
  otherScale := 1

theorem suits (switchTol : ExtendedRat) :
    March.Suits ExtendedRat.line (1 / 4) 2 (options switchTol) rig where
  minStep := show (0.25 : ExtendedRat) = ExtendedRat.line.of (1 / 4) by decide +kernel
  maxStep := rfl
  pos := by norm_num
  paced := ⟨term, 1, rfl, by decide +kernel, by decide +kernel, by decide +kernel, by norm_num,
    by norm_num⟩
  measures := ExtendedRat.serial_measures
  measured never := by cases never

end Fuse

namespace March

/-- A march that accepts one step and gives up before the next one, after no more than four cuts in
a row. -/
theorem marches_of_run_blown : ∃ report r' trace,
    run (Fuse.options 2) Fuse.rig = .ok report r' ∧ report.status = .failed ∧ report.steps = 1 ∧
      Marches (Fuse.options 2) 0 Scalar.infinity Fuse.rig trace (.ok report r') ∧
      ∀ row, row <:+: trace → (∀ turn ∈ row, turn.kind = .rejected) → row.length ≤ 4 := by
  have known : Ends (run (Fuse.options 2)) Fuse.rig
      (fun report _ ↦ report.status = .failed ∧ report.steps = 1) fun _ _ ↦ False := by
    decide +kernel
  obtain ⟨trace, marches, rows⟩ :=
    marches_of_run Fuse.pure ExtendedRat.line_halves (Fuse.suits 2) rfl
  cases ran : run (Fuse.options 2) Fuse.rig with
  | error stop r' => exact (known.error ran).elim
  | ok report r' =>
    obtain ⟨failed, one⟩ := known.ok ran
    rw [ran] at marches
    exact ⟨report, r', trace, rfl, failed, one, marches, rows 3 (by norm_num)⟩

end March

end OperatingPoint
