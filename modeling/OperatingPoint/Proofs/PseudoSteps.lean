import Mathlib.Algebra.Order.Floor.Ring
import Mathlib.Data.Nat.Log
import Mathlib.Data.Rat.Floor
import Mathlib.Tactic.Linarith
import Mathlib.Tactic.Ring
import OperatingPoint.Augmentation.PseudoTime
import OperatingPoint.Proofs.Endings
import OperatingPoint.Proofs.ScalarLine

/-!
# Steps in pseudo-time as numbers

In exact arithmetic a step in pseudo-time stays between its bounds, whatever sets it.  Accepting a
step twice with the same residual norm leaves it as it is, so that growing does not undo a cut.

From the greatest step to the least one there are finitely many halvings, and no more cuts than
that can follow each other.
-/

set_option autoImplicit false

namespace OperatingPoint

variable {K α : Type} [Field K] [LinearOrder K] [IsStrictOrderedRing K] [Scalar α]

namespace Scalar.Line

theorem clamp (line : Line K α) (a : K) {lo hi : K} (le : lo ≤ hi) :
    Scalar.clamp (line.of a) (line.of lo) (line.of hi) = line.of (Max.max lo (Min.min a hi)) := by
  rw [Scalar.clamp]
  by_cases below : a < lo
  · rw [if_pos (line.lt_iff.2 below), min_eq_left (below.le.trans le), max_eq_left below.le]
  · have above := not_lt.1 below
    rw [if_neg (line.lt_iff.not.2 below)]
    by_cases beyond : hi < a
    · rw [if_pos (line.lt_iff.2 beyond), min_eq_right beyond.le, max_eq_right le]
    · rw [if_neg (line.lt_iff.not.2 beyond), min_eq_left (not_lt.1 beyond), max_eq_right above]

/-- As many halvings as `Scalar.halvings` counts lead down to the lower bound. -/
structure Halves (line : Line K α) : Prop where
  le : ∀ (p : K) {q : K}, 0 < q → p ≤ q * 2 ^ Scalar.halvings (line.of p) (line.of q)

end Scalar.Line

namespace PseudoTime

/-- The step as it grows before a residual norm is noted. -/
def grow (p : PseudoTime α) (norm : α) : PseudoTime α :=
  match p.lastNorm with
  | some last =>
    if decide (0 < norm) && Scalar.isFinite last then p.setStep (p.step * last / norm) else p
  | none => p

omit [Field K] [LinearOrder K] [IsStrictOrderedRing K] in
theorem accept_eq (p : PseudoTime α) (norm : α) :
    p.accept norm = { p.grow norm with lastNorm := some norm } := rfl

/-- Two terms that differ in nothing that a step goes by. -/
structure SameStep (p q : PseudoTime α) : Prop where
  step : q.step = p.step
  minStep : q.minStep = p.minStep
  maxStep : q.maxStep = p.maxStep
  lastNorm : q.lastNorm = p.lastNorm

theorem SameStep.refl (p : PseudoTime α) : p.SameStep p := ⟨rfl, rfl, rfl, rfl⟩

theorem SameStep.trans {p q q' : PseudoTime α} (h : p.SameStep q) (h' : q.SameStep q') :
    p.SameStep q' where
  step := h'.step.trans h.step
  minStep := h'.minStep.trans h.minStep
  maxStep := h'.maxStep.trans h.maxStep
  lastNorm := h'.lastNorm.trans h.lastNorm

/-- A step of size `h` between the bounds `lo` and `hi`. -/
structure Within (line : Scalar.Line K α) (lo hi h : K) (p : PseudoTime α) : Prop where
  minStep : p.minStep = line.of lo
  maxStep : p.maxStep = line.of hi
  step : p.step = line.of h
  lo_le : lo ≤ h
  le_hi : h ≤ hi

namespace Within

variable {line : Scalar.Line K α} {lo hi h : K} {p q : PseudoTime α}

theorem same (within : p.Within line lo hi h) (same : p.SameStep q) : q.Within line lo hi h where
  minStep := same.minStep.trans within.minStep
  maxStep := same.maxStep.trans within.maxStep
  step := same.step.trans within.step
  lo_le := within.lo_le
  le_hi := within.le_hi

theorem setStep (within : p.Within line lo hi h) (a : K) :
    (p.setStep (line.of a)).Within line lo hi (max lo (min a hi)) where
  minStep := within.minStep
  maxStep := within.maxStep
  step := by
    have le := within.lo_le.trans within.le_hi
    show Scalar.clamp _ p.minStep p.maxStep = _
    rw [within.minStep, within.maxStep, line.clamp a le]
  lo_le := le_max_left ..
  le_hi := max_le (within.lo_le.trans within.le_hi) (min_le_right ..)

/-- A term is built with its step between the bounds. -/
theorem ofStep {lo hi a : K} (le : lo ≤ hi) {voltage : Partition} {n : Nat}
    {voltageScale otherScale : α} (built : PseudoTime.ofStep voltage n (line.of a) (line.of lo)
      (line.of hi) voltageScale otherScale = .ok p) :
    p.Within line lo hi (max lo (min a hi)) := by
  obtain ⟨all, _, built⟩ := bind_eq_ok.1 built
  rw [dif_pos (line.le_iff.2 le)] at built
  cases built
  exact ⟨rfl, rfl, line.clamp a le, le_max_left .., max_le le (min_le_right ..)⟩

/-- A step that is set to what it is. -/
theorem clamped (within : p.Within line lo hi h) : max lo (min h hi) = h := by
  rw [min_eq_left within.le_hi, max_eq_right within.lo_le]

/-- A step does not grow where the residual norm is the last one. -/
theorem grow (within : p.Within line lo hi h) {norm : α} (finite : Scalar.isFinite norm = true) :
    ∃ h', (p.grow norm).Within line lo hi h' ∧ (p.lastNorm = some norm → h' = h) := by
  obtain ⟨N, rfl⟩ := line.finite_iff.1 finite
  unfold PseudoTime.grow
  split
  · rename_i last before
    split
    · rename_i usable
      rw [Bool.and_eq_true, decide_eq_true_iff, ← line.zero, line.lt_iff] at usable
      obtain ⟨L, rfl⟩ := line.finite_iff.1 usable.2
      have grown := within.setStep (h * L / N)
      rw [line.div _ usable.1.ne', line.mul, ← within.step] at grown
      refine ⟨_, grown, fun same ↦ ?_⟩
      have same : line.of L = line.of N := Option.some.inj (before.symm.trans same)
      have same : L = N := line.beq_iff.1 (same ▸ line.beq_iff.2 rfl)
      rw [same, mul_div_cancel_right₀ h usable.1.ne', within.clamped]
    · exact ⟨h, within, fun _ ↦ rfl⟩
  · exact ⟨h, within, fun _ ↦ rfl⟩

theorem accept (within : p.Within line lo hi h) {norm : α}
    (finite : Scalar.isFinite norm = true) :
    ∃ h', (p.accept norm).Within line lo hi h' ∧ (p.lastNorm = some norm → h' = h) := by
  rw [accept_eq]
  obtain ⟨h', grown, same⟩ := within.grow finite
  exact ⟨h', ⟨grown.minStep, grown.maxStep, grown.step, grown.lo_le, grown.le_hi⟩, same⟩

/-- A step at its lower bound is not cut, and any other one is halved as far as the bound allows. -/
theorem halve (within : p.Within line lo hi h) :
    h ≤ lo ∧ p.halve = none ∨
      lo < h ∧ ∃ p', p.halve = some p' ∧ p'.lastNorm = p.lastNorm ∧
        p'.Within line lo hi (max lo (min (h / 2) hi)) := by
  unfold PseudoTime.halve
  by_cases least : h ≤ lo
  · refine .inl ⟨least, if_pos ?_⟩
    rwa [within.step, within.minStep, line.le_iff]
  · refine .inr ⟨not_le.1 least, _, if_neg ?_, rfl, ?_⟩
    · rwa [within.step, within.minStep, line.le_iff]
    · have half : p.step * 0.5 = line.of (h / 2) := by
        rw [within.step, ← line.half, ← line.mul, mul_one_div]
      rw [half]
      exact within.setStep _

theorem of_halve (within : p.Within line lo hi h) {p' : PseudoTime α} (halved : p.halve = some p') :
    lo < h ∧ p'.lastNorm = p.lastNorm ∧ p'.Within line lo hi (max lo (min (h / 2) hi)) := by
  obtain ⟨-, least⟩ | ⟨above, p'', halved', last, cut⟩ := within.halve
  · rw [least] at halved
    cases halved
  · cases halved.symm.trans halved'
    exact ⟨above, last, cut⟩

end Within

/-- After a cut there is one halving less to the lower bound. -/
theorem cut_le {lo hi h : K} (pos : 0 < lo) {j : Nat} (near : h ≤ lo * 2 ^ (j + 1)) :
    max lo (min (h / 2) hi) ≤ lo * 2 ^ j := by
  have least : lo ≤ lo * 2 ^ j := le_mul_of_one_le_right pos.le (one_le_pow₀ one_le_two)
  refine max_le least ((min_le_left ..).trans ?_)
  rw [pow_succ] at near
  linarith

end PseudoTime

theorem ExtendedRat.line_halves : ExtendedRat.line.Halves := by
  refine ⟨fun p {q} pos ↦ ?_⟩
  have floor : p / q < ((p / q).floor.toNat + 1 : ℕ) := by
    have below : p / q < ((p / q).floor : ℚ) + 1 := Int.lt_floor_add_one (p / q)
    have cast : ((p / q).floor : ℚ) ≤ ((p / q).floor.toNat : ℕ) := by
      exact_mod_cast Int.self_le_toNat (p / q).floor
    push_cast
    linarith
  have power : ((p / q).floor.toNat + 1 : ℕ) ≤ 2 ^ ((p / q).floor.toNat.log2 + 1) :=
    Nat.lt_log2_self
  have bound : p / q ≤ (2 : ℚ) ^ ((p / q).floor.toNat.log2 + 1) :=
    floor.le.trans (by exact_mod_cast power)
  rw [div_le_iff₀ pos, mul_comm] at bound
  exact bound

end OperatingPoint
