import Mathlib.Algebra.Order.Field.Basic
import Mathlib.Tactic.Linarith
import Mathlib.Tactic.Ring
import OperatingPoint.Proofs.CapturedRun
import OperatingPoint.Proofs.ScalarLine

/-!
# Steps that are cut

After an attempt without a solution the step is halved, and the next attempt starts from the same
solution.  In exact arithmetic it is made nearer to the last accepted point, but only if half the
step does not reach the end: an attempt never goes beyond the end, and so it stays there as long as
the step is at least as long as what is left of the way.

Where a run stands between two attempts follows from the attempts before: `Stepper.placeAfter`.
-/

set_option autoImplicit false

namespace OperatingPoint

open Step

variable {δ α K : Type} [Scalar α] {n : Nat} [Field K] [LinearOrder K] [IsStrictOrderedRing K]

namespace Stepper

/-! ## Places on the way -/

/-- Where a run stands between two attempts: the lead value of the last accepted point, and the
size of the step that is tried from there. -/
structure Place (α : Type) where
  value : α
  step : α

variable {s : Stepper α}

/-- The place after the start. -/
def firstPlace (s : Stepper α) : Place α :=
  ⟨s.lead.start, Scalar.min (Scalar.abs s.lead.initialStep) s.lead.maxStep⟩

/-- A stepper with finite numbers, whose steps have a length and do not get shorter by growing. -/
structure Advances (s : Stepper α) : Prop where
  start : Scalar.isFinite s.lead.start = true
  stop : Scalar.isFinite s.stop = true
  initialStep : Scalar.isFinite s.lead.initialStep = true
  maxStep : Scalar.isFinite s.lead.maxStep = true
  growthFactor : Scalar.isFinite s.lead.growthFactor = true
  initialStep_pos : 0 < s.lead.initialStep
  maxStep_pos : 0 < s.lead.maxStep
  one_le_growthFactor : 1 ≤ s.lead.growthFactor

section

variable (line : Scalar.Line K α)

/-- A place from which there is some way to go, and a step to go it with.  The sign `d` is that of
the way. -/
structure Place.Short (line : Scalar.Line K α) (s : Stepper α) (p : Place α) (d q v h : K) :
    Prop where
  direction : s.direction = line.of d
  unit : d = 1 ∨ d = -1
  stop : s.stop = line.of q
  value : p.value = line.of v
  step : p.step = line.of h
  left : 0 < d * (q - v)
  pos : 0 < h

variable {line} {p : Place α} {d q v h : K}

/-- From a value, the step is gone or what is left of the way. -/
theorem next_of (direction : s.direction = line.of d) (unit : d = 1 ∨ d = -1)
    (stop : s.stop = line.of q) (v step : K) :
    s.next (line.of v) (line.of step) = line.of (v + d * min step (d * (q - v))) := by
  have whole (x : K) : d * (d * x) = x := by
    rcases unit with rfl | rfl <;> ring
  have passed : d * (v + d * step - q) = step - d * (q - v) := by
    rcases unit with rfl | rfl <;> ring
  rw [Stepper.next, direction, stop, ← line.mul, ← line.add, ← line.sub, ← line.mul, ← line.zero]
  by_cases beyond : 0 ≤ d * (v + d * step - q)
  · rw [if_pos (line.le_iff.2 beyond), min_eq_right (by linarith), whole]
    congr 1
    ring
  · rw [if_neg (line.le_iff.not.2 beyond), min_eq_left (by linarith)]

theorem Place.Short.next (short : p.Short line s d q v h) (step : K) :
    s.next p.value (line.of step) = line.of (v + d * min step (d * (q - v))) := by
  rw [short.value]
  exact next_of short.direction short.unit short.stop v step

theorem Place.Short.halve (short : p.Short line s d q v h) :
    (⟨p.value, p.step * 0.5⟩ : Place α).Short line s d q v (h / 2) where
  direction := short.direction
  unit := short.unit
  stop := short.stop
  value := short.value
  step := by rw [short.step, ← line.half, ← line.mul, mul_one_div]
  left := short.left
  pos := half_pos short.pos

/-- A point that is accepted before the end leaves some way to go, and the step does not vanish. -/
theorem Place.Short.onward (advances : s.Advances) (short : p.Short line s d q v h)
    (before : (s.next p.value p.step == s.stop) = false) :
    ∃ v' h', (⟨s.next p.value p.step,
      Scalar.min (p.step * s.lead.growthFactor) s.lead.maxStep⟩ : Place α).Short
        line s d q v' h' := by
  obtain ⟨m, max, m_pos⟩ := line.exists_pos advances.maxStep advances.maxStep_pos
  obtain ⟨g, growth⟩ := line.finite_iff.1 advances.growthFactor
  have g_pos : 0 < g := by
    have one_le := advances.one_le_growthFactor
    rw [growth, ← line.one, line.le_iff] at one_le
    linarith
  rw [short.step, short.next, short.stop, line.beq_eq_false_iff] at before
  have short_of_end : h < d * (q - v) := by
    by_contra reaches
    refine before ?_
    rw [min_eq_right (not_lt.1 reaches)]
    rcases short.unit with rfl | rfl <;> ring
  refine ⟨v + d * h, min (h * g) m, short.direction, short.unit, short.stop, ?_, ?_, ?_, ?_⟩
  · rw [short.step, short.next, min_eq_left short_of_end.le]
  · rw [short.step, growth, max, ← line.mul, line.min]
  · rcases short.unit with rfl | rfl <;> linarith
  · exact lt_min (mul_pos short.pos g_pos) m_pos

theorem Advances.short (line : Scalar.Line K α) (advances : s.Advances)
    (before : (s.lead.start == s.stop) = false) :
    ∃ d q v h, s.firstPlace.Short line s d q v h := by
  obtain ⟨v, start⟩ := line.finite_iff.1 advances.start
  obtain ⟨q, stop⟩ := line.finite_iff.1 advances.stop
  obtain ⟨i, initial, i_pos⟩ := line.exists_pos advances.initialStep advances.initialStep_pos
  obtain ⟨m, max, m_pos⟩ := line.exists_pos advances.maxStep advances.maxStep_pos
  rw [start, stop, line.beq_eq_false_iff] at before
  have step : s.firstPlace.step = line.of (min i m) := by
    rw [firstPlace, initial, max, ← line.abs, line.min, abs_of_pos i_pos]
  by_cases up : v ≤ q
  · refine ⟨1, q, v, min i m, ?_, .inl rfl, stop, start, step, ?_, lt_min i_pos m_pos⟩
    · rw [direction, start, stop, if_pos (line.le_iff.2 up), line.one]
    · linarith [lt_of_le_of_ne up before]
  · refine ⟨-1, q, v, min i m, ?_, .inr rfl, stop, start, step, ?_, lt_min i_pos m_pos⟩
    · rw [direction, start, stop, if_neg (line.le_iff.not.2 up), line.neg, line.one]
    · linarith [not_le.1 up]

/-- With half the step a point is strictly nearer, unless that still reaches the end. -/
theorem Place.Short.nearer (short : p.Short line s d q v h) :
    let ahead := s.next p.value p.step
    let nearer := s.next p.value (p.step * 0.5)
    p.step * 0.5 < Scalar.abs (s.stop - p.value) ∧
        (p.value < nearer ∧ nearer < ahead ∨ ahead < nearer ∧ nearer < p.value) ∨
      Scalar.abs (s.stop - p.value) ≤ p.step * 0.5 ∧ ahead = s.stop ∧ nearer = s.stop := by
  have pos := short.pos
  have left := short.left
  have far : |q - v| = d * (q - v) := by
    rcases short.unit with rfl | rfl
    · rw [one_mul] at left ⊢
      exact abs_of_pos left
    · rw [neg_one_mul] at left ⊢
      exact abs_of_neg (neg_pos.1 left)
  have half : p.step * 0.5 = line.of (h / 2) := short.halve.step
  dsimp only
  rw [half, short.step, short.next, short.next, short.stop, short.value, ← line.sub, ← line.abs,
    far, line.lt_iff, line.le_iff, line.lt_iff, line.lt_iff, line.lt_iff, line.lt_iff]
  by_cases inside : h / 2 < d * (q - v)
  · have shorter : h / 2 < min h (d * (q - v)) := lt_min (by linarith) inside
    rw [min_eq_left inside.le]
    refine .inl ⟨inside, ?_⟩
    rcases short.unit with rfl | rfl
    · exact .inl ⟨by linarith, by linarith⟩
    · exact .inr ⟨by linarith, by linarith⟩
  · have reaches := not_lt.1 inside
    have there : v + d * (d * (q - v)) = q := by
      rcases short.unit with rfl | rfl <;> ring
    rw [min_eq_right reaches, min_eq_right (by linarith), there]
    exact .inr ⟨reaches, rfl, rfl⟩

end

/-! ## Attempts in a row -/

variable [DirectSolver α] [Device δ α] {e : Engine δ α n}

/-- The place after one more attempt. -/
def Place.after (p : Place α) (a : s.Attempt δ n) : Place α :=
  if a.converged then
    ⟨a.value, Scalar.min (p.step * s.lead.growthFactor) s.lead.maxStep⟩
  else ⟨p.value, p.step * 0.5⟩

/-- The place after the attempts of a run so far, the first of which is that at the start. -/
def placeAfter (s : Stepper α) (trace : List (s.Attempt δ n)) : Place α :=
  trace.tail.foldl Place.after s.firstPlace

/-- An attempt without a solution, and the next one: with half the step, and from where the first
one started. -/
structure Retry (p : Place α) (a b : s.Attempt δ n) : Prop where
  first : a.value = s.next p.value p.step
  second : b.value = s.next p.value (p.step * 0.5)
  again : b.before.iterate.x = a.before.iterate.x

theorem Course.head {attempts : Nat} {step : α} {x : Vector α n} {report : ContinuationReport α}
    {a : s.Attempt δ n} {trace : List (s.Attempt δ n)}
    {result : EStateM.Result Stop (Engine δ α n) (ContinuationReport α)}
    (h : s.Course attempts step x report e (a :: trace) result) :
    a = ⟨s.next report.value step, e⟩ := by
  cases h with
  | stopped here => exact here
  | arrived here => exact here
  | onward here => exact here
  | givenUp here => exact here
  | back here => exact here

/-- The attempts that follow each other in a course.  What they start from is the invariant. -/
theorem Course.retry {line : Scalar.Line K α} (advances : s.Advances) {attempts : Nat} {step : α}
    {x : Vector α n} {report : ContinuationReport α} {trace : List (s.Attempt δ n)}
    {result : EStateM.Result Stop (Engine δ α n) (ContinuationReport α)}
    (h : s.Course attempts step x report e trace result) (from_x : e.iterate.x = x) {d q : K}
    (short : ∃ v h, (⟨report.value, step⟩ : Place α).Short line s d q v h)
    {before after : List (s.Attempt δ n)} {a b : s.Attempt δ n}
    (row : trace = before ++ a :: b :: after) (rejected : a.unconverged = true) :
    let p := before.foldl Place.after ⟨report.value, step⟩
    (∃ v h, p.Short line s d q v h) ∧ Retry p a b := by
  induction h generalizing before with
  | usedUp => exact absurd row (by simp)
  | stopped | arrived | givenUp => exact absurd row (by cases before <;> simp)
  | @onward attempts step x report e outcome e' rest result c here solved converged on course ih =>
    obtain ⟨v, h, short⟩ := short
    rw [here] at on
    cases before with
    | nil =>
      cases row
      rw [Attempt.unconverged_of_ok solved, converged] at rejected
      cases rejected
    | cons c' before =>
      cases row
      have place : Place.after ⟨report.value, step⟩ c =
          ⟨c.value, Scalar.min (step * s.lead.growthFactor) s.lead.maxStep⟩ := by
        rw [Place.after, if_pos ((Attempt.converged_of_ok solved).trans converged)]
      rw [List.foldl_cons, place]
      exact ih rfl (by rw [here]; exact short.onward advances on) rfl
  | @back attempts step x report e outcome e' rest result c here solved unconverged large course
      ih =>
    obtain ⟨v, h, short⟩ := short
    cases before with
    | nil =>
      cases row
      refine ⟨⟨v, h, short⟩, ?_, ?_, ?_⟩
      · rw [here]
        rfl
      · rw [course.head]
        rfl
      · rw [course.head, here]
        exact (wentBack_x ..).trans from_x.symm
    | cons c' before =>
      cases row
      have place : Place.after ⟨report.value, step⟩ c = ⟨report.value, step * 0.5⟩ := by
        rw [Place.after, if_neg]
        rw [Attempt.converged_of_ok solved, unconverged]
        exact Bool.false_ne_true
      rw [List.foldl_cons, place]
      exact ih (wentBack_x ..) ⟨v, _, short.halve⟩ rfl

/-- The lead value of the last of some attempts that have found a solution. -/
def lastAccepted (trace : List (s.Attempt δ n)) : Option α :=
  (trace.filter Attempt.converged).getLast?.map Attempt.value

theorem lastAccepted_cons {a : s.Attempt δ n} (converged : a.converged = true)
    (step : α) (trace : List (s.Attempt δ n)) :
    lastAccepted (a :: trace) = some (trace.foldl Place.after ⟨a.value, step⟩).value := by
  induction trace generalizing a step with
  | nil => rw [lastAccepted, List.filter_cons_of_pos converged]; rfl
  | cons b trace ih =>
    rw [List.foldl_cons, Place.after]
    cases found : b.converged with
    | true =>
      rw [if_pos rfl, ← ih found, lastAccepted, List.filter_cons_of_pos converged,
        List.filter_cons_of_pos found, List.getLast?_cons_cons]
      rw [lastAccepted, List.filter_cons_of_pos found]
    | false =>
      rw [if_neg Bool.false_ne_true, ← ih converged, lastAccepted, lastAccepted,
        List.filter_cons_of_pos converged, List.filter_cons_of_pos converged,
        List.filter_cons_of_neg (by rw [found]; exact Bool.false_ne_true)]

/-- In exact arithmetic, the attempt after one without a solution starts from the same solution.  If
half the step does not reach the end, it is made strictly between the last accepted point and the
rejected one.  If it does, the rejected point was the end, and the end is tried again. -/
theorem retry_of_run (line : Scalar.Line K α) (advances : s.Advances) (e : Engine δ α n)
    {before after : List (s.Attempt δ n)} {a b : s.Attempt δ n}
    (row : s.attempts e = before ++ a :: b :: after) (rejected : a.unconverged = true) :
    let p := s.placeAfter before
    lastAccepted before = some p.value ∧ b.before.iterate.x = a.before.iterate.x ∧
      (p.step * 0.5 < Scalar.abs (s.stop - p.value) ∧
          (p.value < b.value ∧ b.value < a.value ∨ a.value < b.value ∧ b.value < p.value) ∨
        Scalar.abs (s.stop - p.value) ≤ p.step * 0.5 ∧ a.value = s.stop ∧ b.value = s.stop) := by
  have opening := s.opening e
  rw [row] at opening
  generalize trace_eq : before ++ a :: b :: after = trace at opening
  generalize s.run e = result at opening
  cases opening with
  | stopped | unsolved | arrived => exact absurd trace_eq (by cases before <;> simp)
  | @onward c outcome e' rest _ here solved converged on course =>
    have found := (Attempt.converged_of_ok solved).trans converged
    have value : c.value = s.lead.start := by rw [here]
    cases before with
    | nil =>
      cases trace_eq
      rw [Attempt.unconverged_of_ok solved, converged] at rejected
      cases rejected
    | cons c' before =>
      cases trace_eq
      rw [value] at on
      obtain ⟨d, q, v, h, start⟩ := advances.short line on
      obtain ⟨⟨v, h, short⟩, retry⟩ := course.retry advances rfl ⟨v, h, start⟩ rfl rejected
      have last := lastAccepted_cons found s.firstPlace.step before
      rw [value] at last
      refine ⟨last, retry.again, ?_⟩
      rw [retry.first, retry.second]
      exact short.nearer

/-- A conductance that is stepped from one to zero, where nothing carries the current any more. -/
def fadingConductance : Stepper ExtendedRat :=
  ⟨{ (Sweep.ramp "conductance" : Sweep ExtendedRat) with
      start := 1, initialStep := 1, maxSteps := 4 }, 0, []⟩

def carryingCurrent : Engine Conductors ExtendedRat 1 :=
  ⟨⟨.new { current := 1 } .serial .standard 1, { iterate := { id := 1, x := zeros _ 1 } }⟩,
    { battery := .new .serial .standard {} false }⟩

/-- With half of the step the end is tried a second time. -/
theorem retry_of_run_fadingConductance : ∃ before a b,
    fadingConductance.attempts carryingCurrent = before ++ [a, b] ∧ a.unconverged = true ∧
      a.value = 0 ∧ b.value = 0 ∧ lastAccepted before = some 0.5 ∧
      b.before.iterate.x = a.before.iterate.x := by
  have facts : (fadingConductance.attempts carryingCurrent).map
      (fun a ↦ (a.value, a.unconverged)) =
        [(1, false), (0, true), (0.5, false), (0, true), (0, true)] := by
    decide +kernel
  obtain ⟨first, trace, row, -, facts⟩ := List.map_eq_cons_iff.1 facts
  obtain ⟨second, trace, rfl, -, facts⟩ := List.map_eq_cons_iff.1 facts
  obtain ⟨third, trace, rfl, -, facts⟩ := List.map_eq_cons_iff.1 facts
  obtain ⟨a, trace, rfl, here, facts⟩ := List.map_eq_cons_iff.1 facts
  obtain ⟨b, trace, rfl, there, facts⟩ := List.map_eq_cons_iff.1 facts
  obtain rfl := List.map_eq_nil_iff.1 facts
  obtain ⟨at_zero, rejected⟩ := Prod.mk.inj here
  have advances : fadingConductance.Advances :=
    ⟨rfl, rfl, rfl, rfl, rfl, by decide +kernel, by decide +kernel, by decide +kernel⟩
  have row : fadingConductance.attempts carryingCurrent = [first, second, third] ++ [a, b] := row
  obtain ⟨-, again, -⟩ := retry_of_run ExtendedRat.line advances carryingCurrent row rejected
  have known : lastAccepted ((fadingConductance.attempts carryingCurrent).take 3) = some 0.5 := by
    decide +kernel
  rw [row] at known
  exact ⟨_, a, b, row, rejected, at_zero, (Prod.mk.inj there).1, known, again⟩

end Stepper

end OperatingPoint
