import OperatingPoint.Proofs.IterationParts
import OperatingPoint.Proofs.SideBySide

/-!
# A chord method that never reuses anything

A driver reads its method in one place: where an iteration decides whether to keep the factors.  By
a chord method that refreshes the Jacobian at every iteration, or at every zeroth, it never does,
and so its runs are those of the full method, step by step.
-/

set_option autoImplicit false

namespace OperatingPoint

open Step

/-! ## The method of a driver -/

namespace Battery

variable {α : Type} [Scalar α] {method : NewtonMethod} {b : Battery α} {snap : Snapshot α}

/-- The battery with another method among its options. -/
def withMethod (method : NewtonMethod) (b : Battery α) : Battery α :=
  { b with options := { b.options with method := method } }

theorem screen_withMethod :
    (b.withMethod method).screen snap = (b.screen snap).map (withMethod method) id := by
  simp only [screen, apply_ite (Prod.map (withMethod method) id)]
  rfl

theorem conclude_withMethod (iteration : Nat) :
    (b.withMethod method).conclude iteration =
      (b.conclude iteration).map (withMethod method) id := by
  simp only [conclude, apply_ite (Prod.map (withMethod method) id)]
  rfl

theorem judge_withMethod (iteration : Nat) (wrms : α) :
    (b.withMethod method).judge iteration wrms =
      (b.judge iteration wrms).map (withMethod method) id := by
  simp only [judge, apply_ite (Prod.map (withMethod method) id)]
  rw [← conclude_withMethod]
  rfl

theorem check_withMethod (direction : Except Stop (Option (Array α))) :
    (b.withMethod method).check snap direction =
      (b.check snap direction).map (withMethod method) id := by
  rw [check, check, screen_withMethod]
  obtain ⟨b', decided⟩ := b.screen snap
  cases decided with
  | some status => rfl
  | none =>
    have weigh : ∀ move, (b'.withMethod method).weigh snap move = b'.weigh snap move := fun _ ↦ rfl
    dsimp only [Prod.map, id]
    by_cases first : snap.iteration = 0
    · rw [if_pos first, if_pos first, conclude_withMethod]
      rfl
    · rw [if_neg first, if_neg first, weigh]
      cases b'.weigh snap (update snap) with
      | error e => rfl
      | ok wrms =>
        dsimp only
        by_cases still : (wrms == 0) = true
        · rw [if_pos still, if_pos still]
          cases direction with
          | error e => rfl
          | ok answer =>
            cases answer with
            | none => rfl
            | some d =>
              dsimp only
              rw [weigh, show (b'.withMethod method).communicator = b'.communicator from rfl]
              by_cases directed : 0 < b'.communicator.normInf d
              · rw [if_pos directed, if_pos directed]
                cases b'.weigh snap d with
                | error e => rfl
                | ok wrms =>
                  dsimp only
                  rw [judge_withMethod]
                  rfl
              · rw [if_neg directed, if_neg directed]
                rfl
        · rw [if_neg still, if_neg still, judge_withMethod]
          rfl

theorem needsDirection_withMethod :
    (b.withMethod method).needsDirection snap = b.needsDirection snap := by
  rw [needsDirection, needsDirection, screen_withMethod]
  obtain ⟨b', decided⟩ := b.screen snap
  cases decided with
  | some status => rfl
  | none => rfl

end Battery

namespace Newton

variable {α : Type} [Scalar α]

/-- The driver with another method. -/
def withMethod (method : NewtonMethod) (w : Newton α) : Newton α :=
  { w with battery := w.battery.withMethod method }

/-- A driver by a chord method of which each period is a single iteration, if it is that. -/
def NeverReuses (w : Newton α) : Prop := ∃ k ≤ 1, w.options.method = .chord k

end Newton

/-! ## Side by side with the full method -/

namespace Engine

variable {δ α : Type} [Scalar α] [DirectSolver α] {n : Nat}

/-- The engine with another method. -/
def withMethod (method : NewtonMethod) (e : Engine δ α n) : Engine δ α n :=
  { e with newton := e.newton.withMethod method }

/-- An engine by a chord method that reuses nothing, and the same by the full method. -/
structure Unreused (e e' : Engine δ α n) : Prop where
  never : e.newton.NeverReuses
  same : e' = e.withMethod .full

theorem Unreused.keepsFactors {e e' : Engine δ α n} (h : e.Unreused e') :
    e'.keepsFactors = e.keepsFactors := by
  obtain ⟨⟨k, few, chord⟩, rfl⟩ := h
  unfold Engine.keepsFactors
  rw [chord]
  simp [Nat.not_lt.2 few, withMethod, Newton.withMethod, Newton.options, Battery.withMethod]

theorem unreused_onRig {β : Type} (act : Step (Rig δ α n) β) :
    Matches Unreused Eq (onRig act) (onRig act) :=
  .zoom (.refl act) (fun _ _ h ↦ by rw [h.same]; rfl)
    fun _ _ _ _ h same ↦ ⟨h.never, by rw [h.same, same]; rfl⟩

theorem unreused_modifyTrack (change : Track α n → Track α n) :
    Matches Unreused Eq (modifyTrack change : Step (Engine δ α n) Unit) (modifyTrack change) :=
  .modify fun _ _ h ↦ ⟨h.never, by rw [h.same]; rfl⟩

theorem unreused_modifyNewton {change change' : Newton α → Newton α}
    (never : ∀ w, w.NeverReuses → (change w).NeverReuses)
    (same : ∀ w, change' (w.withMethod .full) = (change w).withMethod .full) :
    Matches Unreused Eq (modifyNewton change : Step (Engine δ α n) Unit) (modifyNewton change') :=
  .modify fun e _ h ↦
    ⟨never _ h.never, by rw [h.same]; exact congrArg (Engine.mk e.rig) (same e.newton)⟩

theorem unreused_finish (status : Status) :
    Matches Unreused Eq (finish status : Step (Engine δ α n) Status) (finish status) :=
  .andThen (unreused_modifyNewton (fun _ h ↦ h) fun _ ↦ rfl) fun _ ↦ .pure rfl

variable [Device δ α]

theorem unreused_direction :
    Matches Unreused Eq (direction : Step (Engine δ α n) (Option (Array α))) direction := by
  unfold direction
  refine .andThen (unreused_onRig _) fun _ ↦ .ite Iff.rfl (.pure rfl) ?_
  refine .andThen (unreused_onRig _) fun _ ↦ .ite Iff.rfl (.pure rfl) ?_
  refine .andThen (unreused_onRig _) fun _ ↦ .ite Iff.rfl (.pure rfl) (.get_bind fun e e' h ↦ ?_)
  rw [h.same]
  exact .andThen (.orFault _) fun _ ↦ .pure rfl

theorem unreused_classify (previous : Vector α n) :
    Matches Unreused Eq (classify previous : Step (Engine δ α n) Status) (classify previous) := by
  unfold classify
  refine .get_bind fun e e' h ↦ ?_
  obtain ⟨never, rfl⟩ := h
  refine .andThen (.orFault _) fun residual ↦ ?_
  have asks : (e.withMethod .full).newton.battery.needsDirection
      ((e.withMethod .full).snapshot residual previous) =
      e.newton.battery.needsDirection (e.snapshot residual previous) :=
    Battery.needsDirection_withMethod
  suffices check : ∀ answer, _ from .ite (by rw [asks])
    (.andThen (.attempt unreused_direction) check) (.andThen (.pure rfl) check)
  intro answer
  have checked : (e.withMethod .full).newton.battery.check
      ((e.withMethod .full).snapshot residual previous) answer =
      (e.newton.battery.check (e.snapshot residual previous) answer).map
        (Battery.withMethod .full) id := Battery.check_withMethod answer
  dsimp only
  rw [checked]
  refine .andThen (unreused_modifyNewton (fun _ _ ↦ ?_) fun _ ↦ rfl) fun _ ↦ .lift _
  obtain ⟨k, few, chord⟩ := never
  refine ⟨k, few, ?_⟩
  rw [← chord]
  exact congrArg _ (Battery.check_run e.newton.battery _ answer).alike.options

theorem unreused_begin :
    Matches Unreused Eq (begin : Step (Engine δ α n) Status) begin := by
  unfold begin
  refine .andThen (unreused_modifyNewton (fun _ h ↦ h) fun _ ↦ rfl) fun _ ↦ ?_
  refine .andThen (unreused_onRig _) fun _ ↦
    .ite Iff.rfl (.get_bind fun e e' h ↦ ?_) (unreused_finish _)
  rw [h.same]
  exact .andThen (unreused_classify _) fun status ↦ unreused_finish status

theorem unreused_backtrack (base direction : Vector α n) (old : α) (trials : Nat) (step : α) :
    Matches Unreused Eq (backtrack base direction old trials step : Step (Engine δ α n) α)
      (backtrack base direction old trials step) := by
  induction trials generalizing step with
  | zero => exact .pure rfl
  | succ trials ih =>
    unfold backtrack
    refine .get_bind fun e e' h ↦ ?_
    rw [h.same]
    refine .ite Iff.rfl (.pure rfl) ?_
    exact .andThen (unreused_modifyTrack _) fun _ ↦ .andThen (unreused_onRig _) fun _ ↦ ih _

theorem unreused_lineSearch (base direction : Vector α n) (old : α) :
    Matches Unreused Eq (lineSearch base direction old : Step (Engine δ α n) α)
      (lineSearch base direction old) := by
  unfold lineSearch
  refine .andThen (unreused_modifyTrack _) fun _ ↦ .andThen (unreused_onRig _) fun _ ↦
    .get_bind fun e e' h ↦ ?_
  rw [h.same, show (e.withMethod .full).newton.options =
    { e.newton.options with method := .full } from rfl]
  dsimp only
  cases e.newton.options.lineSearch with
  | full => exact .pure rfl
  | backtrack => exact unreused_backtrack _ _ _ _ _

omit [Device δ α] in
theorem unreused_usableDirection (reuse : Bool) :
    Matches Unreused Eq
      (usableDirection reuse : Step (Engine δ α n) (Except Verdict (Vector α n)))
      (usableDirection reuse) := by
  unfold usableDirection
  refine .andThen (unreused_onRig _) fun solved ↦ .get_bind fun e e' h ↦ ?_
  rw [h.same]
  refine .ite Iff.rfl (.andThen (.orFault _) fun _ ↦ .pure rfl) ?_
  exact .ite Iff.rfl (.pure rfl) (.pure rfl)

theorem unreused_follow (direction : Vector α n) :
    Matches Unreused Eq (follow direction : Step (Engine δ α n) Status) (follow direction) := by
  unfold follow
  refine .get_bind fun e e' h ↦ ?_
  rw [h.same]
  refine .andThen (unreused_lineSearch _ _ _) fun _ ↦ ?_
  refine .andThen (unreused_modifyNewton (fun _ h ↦ h) fun _ ↦ rfl) fun _ ↦
    .get_bind fun e₁ e₁' h₁ ↦ ?_
  rw [h₁.same, show (e₁.withMethod .full).iterate = e₁.iterate from rfl]
  cases e₁.iterate.measured.norms? with
  | none => exact unreused_finish _
  | some norms =>
    refine .ite Iff.rfl (unreused_finish _) ?_
    exact .andThen (unreused_classify _) fun status ↦ unreused_finish status

theorem unreused_iterateOnce :
    Matches Unreused Eq (iterateOnce : Step (Engine δ α n) Status) iterateOnce := by
  unfold iterateOnce
  refine .get_bind fun e e' h ↦ ?_
  rw [h.keepsFactors]
  suffices onward : _ from .ite Iff.rfl (.andThen (unreused_onRig _)
    fun _ ↦ .ite Iff.rfl (unreused_finish _) onward) onward
  refine .andThen (unreused_onRig _) fun _ ↦ .ite Iff.rfl (unreused_finish _) ?_
  refine .andThen (unreused_usableDirection _) fun usable ↦ ?_
  cases usable with
  | error verdict => exact unreused_finish _
  | ok d => exact unreused_follow d

theorem unreused_advance :
    Matches Unreused Eq (advance : Step (Engine δ α n) Status) advance := by
  unfold advance
  refine .get_bind fun e e' h ↦ ?_
  rw [h.same]
  suffices onward : _ from .ite Iff.rfl
    (.andThen unreused_begin fun status ↦ .ite Iff.rfl (.pure rfl) onward) onward
  refine .get_bind fun e₁ e₁' h₁ ↦ ?_
  rw [h₁.same]
  exact .ite Iff.rfl (.pure rfl) unreused_iterateOnce

theorem unreused_iterateWhile (budget : Nat) (status : Status) :
    Matches Unreused Eq (iterateWhile budget status : Step (Engine δ α n) Unit)
      (iterateWhile budget status) := by
  induction budget generalizing status with
  | zero => exact .pure rfl
  | succ budget ih =>
    unfold iterateWhile
    exact .ite Iff.rfl (.pure rfl) (.andThen unreused_advance fun status ↦ ih status)

/-- A solve by a chord method that reuses nothing is a solve by the full method. -/
theorem unreused_solve :
    Matches Unreused Eq (solve : Step (Engine δ α n) (Outcome α)) solve := by
  unfold solve
  refine .andThen unreused_begin fun status ↦ .get_bind fun e e' h ↦ ?_
  rw [h.same]
  refine .andThen (unreused_iterateWhile _ _) fun _ ↦ .get_bind fun e₁ e₁' h₁ ↦ ?_
  rw [h₁.same]
  exact .pure rfl

omit [Device δ α] in
theorem Unreused.undecided? {act : Step (Engine δ α n) Status} {e e' : Engine δ α n}
    (matched : Matches Unreused Eq act act) (h : e.Unreused e') :
    Option.Rel Unreused (Engine.undecided? (act e)) (Engine.undecided? (act e')) := by
  have alike := matched e e' h
  generalize act e = result, act e' = result' at alike ⊢
  cases alike with
  | @ok status _ t t' answers states =>
    cases answers
    simp only [Engine.undecided?]
    by_cases decided : status.isDecided = true
    · rw [if_pos decided, if_pos decided]
      exact .none
    · rw [if_neg decided, if_neg decided]
      exact .some states
  | error => exact .none

/-- Between two iterations the solves stand alike. -/
theorem Unreused.reached? {e e' : Engine δ α n} (h : e.Unreused e') (i : Nat) :
    Option.Rel Unreused (e.reached? i) (e'.reached? i) := by
  induction i with
  | zero => exact h.undecided? unreused_begin
  | succ i ih =>
    rw [Engine.reached?, Engine.reached?]
    generalize e.reached? i = there, e'.reached? i = there' at ih
    cases ih with
    | none => exact .none
    | some states => exact states.undecided? unreused_iterateOnce

theorem reached?_withMethod {e : Engine δ α n} (never : e.newton.NeverReuses) (i : Nat) :
    (e.withMethod .full).reached? i = (e.reached? i).map (withMethod .full) := by
  have alike := Unreused.reached? ⟨never, rfl⟩ i
  generalize e.reached? i = there, (e.withMethod .full).reached? i = there' at alike
  cases alike with
  | none => rfl
  | some states => exact congrArg some states.same

end Engine

end OperatingPoint
