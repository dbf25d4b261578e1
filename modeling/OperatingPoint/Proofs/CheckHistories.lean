import Mathlib.Data.List.Induction
import OperatingPoint.Proofs.BatteryVerdicts

/-!
# What the battery remembers

A battery is used by resets and checks: `Use`.  A check *records* the residual it is shown unless
it fails before the norms are taken, and the residuals recorded since the last reset are the history
of the battery: `recorded`.  Of these it remembers the norms of the first and of the last,
`Remembers`, and after a check that records, its two rates compare the norm of the residual with
those.

The setup of a battery, `Alike`, is the same after every use.  What only the tests after those on
the update say, they say of a residual on record: `concluded_of_check`.
-/

set_option autoImplicit false

namespace OperatingPoint

/-- What only the tests after those on the update say. -/
def Status.isConcluding : Status → Bool
  | .converged .nearConvergence | .converged .smallUpdate => true
  | .failed .tooManySteps | .failed .updateTooBig | .failed .stalled => true
  | _ => false

/-- The rate of a residual over the one recorded before. -/
def Communicator.rate {α : Type} [Scalar α] (c : Communicator α) (residual : Array α) :
    Option (Array α) → α
  | some before => if 0 < c.norm2 before then c.norm2 residual / c.norm2 before else 1
  | none => 1

namespace Battery

variable {α : Type}

/-- What is done with a battery. -/
inductive Use (α : Type) where
  | reset
  | check (snap : Snapshot α) (direction : Except Stop (Option (Array α)))

variable [Scalar α] {b : Battery α} {snap : Snapshot α} {residuals : List (Array α)}
  {direction : Except Stop (Option (Array α))}

def perform (b : Battery α) : Use α → Battery α
  | .reset => b.reset
  | .check snap direction => (b.check snap direction).1

/-- The battery after some uses. -/
def after (b : Battery α) (uses : List (Use α)) : Battery α := uses.foldl perform b

theorem after_append (b : Battery α) (uses : List (Use α)) (use : Use α) :
    b.after (uses ++ [use]) = (b.after uses).perform use :=
  List.foldl_append

theorem check_alike (b : Battery α) (snap : Snapshot α)
    (direction : Except Stop (Option (Array α))) : b.Alike (b.check snap direction).1 :=
  (check_run b snap direction).alike

theorem perform_alike (b : Battery α) (use : Use α) : b.Alike (b.perform use) := by
  cases use with
  | reset => exact b.reset_alike
  | check snap direction => exact b.check_alike snap direction

theorem after_alike (b : Battery α) (uses : List (Use α)) : b.Alike (b.after uses) := by
  induction uses using List.reverseRecOn with
  | nil => exact .refl b
  | append_singleton uses use kept =>
    rw [after_append]
    exact kept.trans (perform_alike _ use)

/-! ## The recorded residuals -/

/-- Whether a check takes the norms of the residual it is shown. -/
def records (b : Battery α) (snap : Snapshot α) : Bool :=
  b.sees snap && !(b.options.twoLevel && snap.innerSolveFailed)

/-- The residuals that are on record after one more use. -/
def logged (b : Battery α) (residuals : List (Array α)) : Use α → List (Array α)
  | .reset => []
  | .check snap _ => if b.records snap then residuals ++ [snap.residual] else residuals

/-- The residuals that some uses have put on record since the last reset, the oldest first. -/
def recorded (b : Battery α) (uses : List (Use α)) : List (Array α) := uses.foldl b.logged []

theorem recorded_append (b : Battery α) (uses : List (Use α)) (use : Use α) :
    b.recorded (uses ++ [use]) = b.logged (b.recorded uses) use :=
  List.foldl_append

theorem finite_of_records (h : b.records snap = true) :
    b.communicator.allFinite snap.residual = true := by
  rw [records, sees, Bool.and_eq_true, Bool.and_eq_true] at h
  exact h.1.1

/-- Only what shows numbers is put on record. -/
theorem finite_of_recorded (b : Battery α) (uses : List (Use α)) :
    ∀ f ∈ b.recorded uses, b.communicator.allFinite f = true := by
  induction uses using List.reverseRecOn with
  | nil => exact fun _ none ↦ absurd none List.not_mem_nil
  | append_singleton uses use kept =>
    rw [recorded_append]
    cases use with
    | reset => exact fun _ none ↦ absurd none List.not_mem_nil
    | check snap direction =>
      unfold logged
      dsimp only
      split
      · rename_i recorded
        intro f found
        obtain old | new := List.mem_append.1 found
        · exact kept f old
        · rw [List.mem_singleton.1 new]
          exact finite_of_records recorded
      · exact kept

/-- The battery remembers the norms of the first and of the last residual on record. -/
structure Remembers (b : Battery α) (residuals : List (Array α)) : Prop where
  first : b.firstNorm = residuals.head?.map b.communicator.norm2
  last : b.lastNorm = residuals.getLast?.map b.communicator.norm2

theorem remembers_new (communicator : Communicator α) (options : NewtonOptions α)
    (codes : CodeTable) (transient : Bool) :
    (new communicator options codes transient).Remembers [] :=
  ⟨rfl, rfl⟩

/-- What a battery remembers, it remembers under another measure of the last update as well. -/
theorem Remembers.of_same {b' : Battery α} (h : b.Remembers residuals)
    (communicator : b'.communicator = b.communicator) (first : b'.firstNorm = b.firstNorm)
    (last : b'.lastNorm = b.lastNorm) : b'.Remembers residuals :=
  ⟨by rw [first, communicator, h.first], by rw [last, communicator, h.last]⟩

theorem Remembers.record (h : b.Remembers residuals) (residual : Array α) :
    (b.record residual).Remembers (residuals ++ [residual]) where
  first := by
    change some (b.firstNorm.getD (b.communicator.norm2 residual)) =
      (residuals ++ [residual]).head?.map b.communicator.norm2
    rw [h.first]
    cases residuals <;> rfl
  last := by
    rw [List.getLast?_concat]
    rfl

/-- Recorded, a residual is set against the last one on record. -/
theorem record_rate (h : b.Remembers residuals) (residual : Array α) :
    (b.record residual).rate = b.communicator.rate residual residuals.getLast? := by
  unfold record Communicator.rate
  rw [h.last]
  cases residuals.getLast? <;> rfl

/-- Recorded, a residual is set against the first one on record, which may be itself. -/
theorem record_relativeRate (h : b.Remembers residuals) {residual first : Array α}
    (head : (residuals ++ [residual]).head? = some first) :
    (b.record residual).relativeRate =
      if 0 < b.communicator.norm2 first then
        b.communicator.norm2 residual / b.communicator.norm2 first
      else 0 := by
  have known := (h.record residual).first
  rw [head] at known
  have same : b.firstNorm.getD (b.communicator.norm2 residual) = b.communicator.norm2 first :=
    Option.some_inj.1 known
  rw [← same]
  rfl

theorem conclude_remembers (h : b.Remembers residuals) (iteration : Nat) :
    (b.conclude iteration).1.Remembers residuals := by
  have run := conclude_run b iteration
  generalize b.conclude iteration = p at run
  cases run <;> exact h.of_same rfl rfl rfl

theorem judge_remembers (h : b.Remembers residuals) (iteration : Nat) (wrms : α) :
    (b.judge iteration wrms).1.Remembers residuals := by
  have weighed : Remembers { b with wrms := wrms } residuals := h.of_same rfl rfl rfl
  unfold judge
  dsimp only
  split
  · exact weighed
  · exact conclude_remembers weighed iteration

theorem logged_of_records (h : b.records snap = true) :
    b.logged residuals (.check snap direction) = residuals ++ [snap.residual] :=
  if_pos h

theorem logged_of_not_records (h : b.records snap = false) :
    b.logged residuals (.check snap direction) = residuals :=
  if_neg (Bool.eq_false_iff.1 h)

theorem records_of_sees (finite : b.sees snap = true) :
    b.records snap = !(b.options.twoLevel && snap.innerSolveFailed) := by
  rw [records, finite, Bool.true_and]

/-- Where the tests before the first norm decide nothing, the residual is put on record. -/
theorem recorded_of_screen {b' : Battery α} (screen : b.screen snap = (b', none)) :
    b.records snap = true ∧ b' = b.record snap.residual := by
  have run := screen_run b snap
  rw [screen] at run
  cases run with
  | through finite inner => exact ⟨by rw [records_of_sees finite, inner]; rfl, rfl⟩

/-- The tests before the first norm put a residual on record or leave the history alone. -/
theorem Screened.remembers {p : Battery α × Option Status} (run : Screened b snap p)
    (h : b.Remembers residuals) :
    p.1.Remembers (b.logged residuals (.check snap direction)) := by
  have recorded (finite : b.sees snap = true)
      (inner : (b.options.twoLevel && snap.innerSolveFailed) = false) :
      (b.record snap.residual).Remembers (b.logged residuals (.check snap direction)) := by
    rw [logged_of_records (by rw [records_of_sees finite, inner]; rfl)]
    exact h.record snap.residual
  cases run with
  | notFinite blind =>
    rw [logged_of_not_records (by rw [records, blind]; rfl)]
    exact h.of_same rfl rfl rfl
  | inner finite failed =>
    rw [logged_of_not_records (by rw [records_of_sees finite, failed]; rfl)]
    exact h
  | devices finite inner => exact recorded finite inner
  | rounding finite inner => exact recorded finite inner
  | through finite inner => exact recorded finite inner

theorem check_remembers (h : b.Remembers residuals) :
    (b.check snap direction).1.Remembers (b.logged residuals (.check snap direction)) := by
  have screened : ∀ {b₁ : Battery α} {found : Option Status}, b.screen snap = (b₁, found) →
      b₁.Remembers (b.logged residuals (.check snap direction)) := by
    intro b₁ found screen
    have run := screen_run b snap
    rw [screen] at run
    exact run.remembers h
  have run := check_run b snap direction
  generalize b.check snap direction = p at run
  cases run with
  | screened screen => exact screened screen
  | initial screen => exact conclude_remembers (screened screen) 0
  | unweighed screen => exact screened screen
  | judged screen => exact judge_remembers (screened screen) _ _
  | stopped screen => exact screened screen
  | still screen => exact (screened screen).of_same rfl rfl rfl
  | unweighedDirection screen => exact screened screen
  | judgedDirection screen => exact judge_remembers (screened screen) _ _

theorem perform_remembers (h : b.Remembers residuals) (use : Use α) :
    (b.perform use).Remembers (b.logged residuals use) := by
  cases use with
  | reset => exact ⟨rfl, rfl⟩
  | check snap direction => exact check_remembers h

theorem Alike.logged {b' : Battery α} (h : b.Alike b') : b'.logged = b.logged := by
  funext residuals use
  cases use with
  | reset => rfl
  | check snap direction =>
    unfold Battery.logged records sees
    rw [h.communicator, h.options]

/-- After any uses a battery remembers the residuals on record. -/
theorem after_remembers (h : b.Remembers []) (uses : List (Use α)) :
    (b.after uses).Remembers (b.recorded uses) := by
  induction uses using List.reverseRecOn with
  | nil => exact h
  | append_singleton uses use kept =>
    rw [after_append, recorded_append, ← (b.after_alike uses).logged]
    exact perform_remembers kept use

/-! ## The last tests -/

/-- The battery once the norm that an update is judged by is known. -/
def weighed (b : Battery α) (wrms : α) : Battery α := { b with wrms := wrms }

theorem concluded_of_judge {iteration : Nat} {wrms : α}
    (concluding : (b.judge iteration wrms).2.isConcluding = true) :
    b.judge iteration wrms = (b.weighed wrms).conclude iteration := by
  unfold judge at concluding ⊢
  dsimp only at concluding ⊢
  split at concluding
  · cases concluding
  · rename_i large
    exact if_neg large

/-- What only the last tests say is said of a residual that the check has recorded. -/
theorem concluded_of_check {status : Status} (checked : (b.check snap direction).2 = .ok status)
    (concluding : status.isConcluding = true) :
    b.records snap = true ∧ ∃ wrms,
      status = (((b.record snap.residual).weighed wrms).conclude snap.iteration).2 := by
  have run := check_run b snap direction
  generalize b.check snap direction = p at run checked
  cases run with
  | screened screen =>
    have run := screen_run b snap
    rw [screen] at run
    cases checked
    cases run <;> cases concluding
  | initial screen first =>
    obtain ⟨recorded, rfl⟩ := recorded_of_screen screen
    cases checked
    rw [first]
    exact ⟨recorded, _, rfl⟩
  | judged screen =>
    obtain ⟨recorded, rfl⟩ := recorded_of_screen screen
    cases checked
    exact ⟨recorded, _, congrArg Prod.snd (concluded_of_judge concluding)⟩
  | judgedDirection screen =>
    obtain ⟨recorded, rfl⟩ := recorded_of_screen screen
    cases checked
    exact ⟨recorded, _, congrArg Prod.snd (concluded_of_judge concluding)⟩
  | unweighed => cases checked
  | stopped => cases checked
  | still =>
    cases checked
    cases concluding
  | unweighedDirection => cases checked

end Battery

end OperatingPoint
