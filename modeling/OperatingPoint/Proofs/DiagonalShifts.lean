import Mathlib.Data.List.Infix
import OperatingPoint.Proofs.Clamps
import OperatingPoint.Proofs.ScalarLine

/-!
# Shifted diagonals

A strategy changes a Jacobian in place, and may be asked to do so again on the same load after its
progress variable has moved.  In exact arithmetic only the last amount is on the diagonal then: what
was added before is taken off, in the rows of a clamp nothing of it is left, and which unknowns are
without an element is decided once, when the load is fresh.  So a Jacobian that was changed any
number of times is the Jacobian of the load, changed once.
-/

set_option autoImplicit false

namespace OperatingPoint

open Step

namespace Scalar.Line

variable {K α : Type} [Field K] [LinearOrder K] [IsStrictOrderedRing K] [Scalar α]

/-- Powers of ten of numbers are numbers. -/
structure Powers (line : Line K α) : Prop where
  exp10 : ∀ p, ∃ q, Scalar.exp10 (line.of p) = line.of q

end Scalar.Line

theorem ExtendedRat.line_powers : ExtendedRat.line.Powers := ⟨fun p ↦ ⟨10 ^ p.floor, rfl⟩⟩

variable {α : Type} [Scalar α] {n : Nat}

/-! ## Matrices with another diagonal, or with rows of the identity -/

namespace Mat

/-- The matrix with the listed diagonal entries changed. -/
def onDiagonal (A : Mat α n n) (indices : List Nat) (f : Nat → α → α) : Mat α n n :=
  ofFn fun i j ↦ if i = j ∧ i.val ∈ indices then f i (A i j) else A i j

/-- The matrix with an amount added to the listed diagonal entries. -/
def shifted (A : Mat α n n) (indices : List Nat) (amount : Nat → α) : Mat α n n :=
  A.onDiagonal indices fun i d ↦ d + amount i

/-- The matrix with the listed rows replaced by those of the identity. -/
def pinned (A : Mat α n n) (rows : List Nat) : Mat α n n :=
  ofFn fun i j ↦ if i.val ∈ rows then if i = j then 1 else 0 else A i j

variable {A : Mat α n n} {indices rows : List Nat}

omit [Scalar α] in
theorem onDiagonal_apply (A : Mat α n n) (indices : List Nat) (f : Nat → α → α) (i j : Fin n) :
    A.onDiagonal indices f i j = if i = j ∧ i.val ∈ indices then f i (A i j) else A i j :=
  ofFn_apply ..

theorem shifted_apply (A : Mat α n n) (indices : List Nat) (amount : Nat → α) (i j : Fin n) :
    A.shifted indices amount i j =
      if i = j ∧ i.val ∈ indices then A i j + amount i else A i j :=
  ofFn_apply ..

theorem pinned_apply (A : Mat α n n) (rows : List Nat) (i j : Fin n) :
    A.pinned rows i j = if i.val ∈ rows then if i = j then 1 else 0 else A i j :=
  ofFn_apply ..

omit [Scalar α] in
theorem onDiagonal_congr {f g : Nat → α → α} (same : ∀ i ∈ indices, f i = g i) :
    A.onDiagonal indices f = A.onDiagonal indices g := by
  ext i j
  rw [onDiagonal_apply, onDiagonal_apply]
  refine if_ctx_congr Iff.rfl (fun here ↦ ?_) fun _ ↦ rfl
  rw [same i here.2]

omit [Scalar α] in
@[simp] theorem onDiagonal_nil (A : Mat α n n) (f : Nat → α → α) : A.onDiagonal [] f = A := by
  ext i j
  simp [onDiagonal_apply]

@[simp] theorem pinned_nil (A : Mat α n n) : A.pinned [] = A := by
  ext i j
  simp [pinned_apply]

theorem pinned_plainIn (A : Mat α n n) (rows : List Nat) : (A.pinned rows).PlainIn rows := by
  intro i listed j
  rw [pinned_apply, if_pos listed]
  simp [Fin.ext_iff, eq_comm]

/-- Replacing rows one after the other. -/
theorem foldlM_setIdentityRow (fits : ∀ i ∈ rows, i < n) (A : Mat α n n) :
    rows.foldlM (fun A i ↦ A.setIdentityRow i) A = .ok (A.pinned rows) := by
  induction rows generalizing A with
  | nil => exact congrArg Except.ok A.pinned_nil.symm
  | cons k rest ih =>
    obtain ⟨bound, fits⟩ := List.forall_mem_cons.1 fits
    have row : A.setIdentityRow k =
        .ok (A.setRow ⟨k, bound⟩ fun j ↦ if (j : Nat) = k then 1 else 0) := dif_pos ⟨bound, bound⟩
    rw [List.foldlM_cons, row]
    refine (ih fits _).trans (congrArg Except.ok (Mat.ext fun i j ↦ ?_))
    simp only [pinned_apply, setRow_apply, List.mem_cons, Fin.ext_iff]
    by_cases own : k = i.val
    · subst own
      simp [eq_comm]
    · simp [own, Ne.symm own]

end Mat

/-! ## One change -/

namespace Shift

variable {s : Shift α} {A : Mat α n n} {indices : List Nat} {load : Nat} {amount : Nat → α}

theorem applyAll_map (amount : Nat → α) (old : Nat → Option α) (distinct : indices.Nodup)
    (fits : ∀ i ∈ indices, i < n) (A : Mat α n n) :
    applyAll amount (indices.map fun i ↦ (i, old i)) A =
      .ok (A.onDiagonal indices fun i d ↦ shifted d (amount i) (old i)) := by
  induction indices generalizing A with
  | nil => exact congrArg Except.ok (A.onDiagonal_nil _).symm
  | cons k rest ih =>
    obtain ⟨foreign, distinct⟩ := List.nodup_cons.1 distinct
    obtain ⟨bound, fits⟩ := List.forall_mem_cons.1 fits
    have read : A.diagonalEntry k = .ok (A ⟨k, bound⟩ ⟨k, bound⟩) := dif_pos ⟨bound, bound⟩
    have written : ∀ v, A.setDiagonalEntry k v = .ok (A.set ⟨k, bound⟩ ⟨k, bound⟩ v) :=
      fun v ↦ dif_pos ⟨bound, bound⟩
    refine bind_eq_ok.2 ⟨_, read, bind_eq_ok.2 ⟨_, written _, (ih distinct fits _).trans ?_⟩⟩
    refine congrArg Except.ok (Mat.ext fun i j ↦ ?_)
    simp only [Mat.onDiagonal_apply, Mat.set_apply, List.mem_cons, Fin.ext_iff]
    by_cases here : k = i.val
    · subst here
      by_cases diagonal : i.val = j.val
      · cases Fin.ext diagonal
        simp [foreign]
      · simp [diagonal]
    · simp [here, Ne.symm here]

/-- A fresh load is shifted in full. -/
theorem apply_fresh {put : Nat → α} (fresh : s.isFresh load = true) (distinct : indices.Nodup)
    (fits : ∀ i ∈ indices, i < n) (same : ∀ i ∈ indices, amount i = put i) :
    s.apply A indices load amount =
      .ok (A.shifted indices put, ⟨some load, indices.map put⟩) := by
  have run := applyAll_map amount (fun _ ↦ none) distinct fits A
  rw [Mat.onDiagonal_congr fun i member ↦ by rw [same i member]] at run
  rw [apply, fresh, List.map_congr_left same]
  exact bind_eq_ok.2 ⟨_, run, rfl⟩

/-- What is on the diagonal already is taken off before the new amounts go on. -/
theorem apply_again {put onIt : Nat → α} (distinct : indices.Nodup)
    (fits : ∀ i ∈ indices, i < n) (same : ∀ i ∈ indices, amount i = put i) :
    apply ⟨some load, indices.map onIt⟩ A indices load amount =
      .ok (A.onDiagonal indices fun i d ↦ shifted d (put i) (some (onIt i)),
        ⟨some load, indices.map put⟩) := by
  have run := applyAll_map amount (fun i ↦ some (onIt i)) distinct fits A
  rw [Mat.onDiagonal_congr fun i member ↦ by rw [same i member], List.map_prod_left_eq_zip,
    show (indices.map fun i ↦ some (onIt i)) = (indices.map onIt).map some from
      List.map_map.symm] at run
  have stale : isFresh ⟨some load, indices.map onIt⟩ load = false := by simp [isFresh]
  rw [apply, stale, List.length_map, List.map_congr_left same]
  refine bind_eq_ok.2 ⟨_, ?_, rfl⟩
  rwa [if_pos (by simp)]

end Shift

theorem Partition.nodup_indices (p : Partition) : p.indices.Nodup :=
  p.members.increasing.imp Nat.ne_of_lt

/-! ## The strategies that shift a diagonal -/

namespace Gmin

variable {g : Gmin α} {A B : Mat α n n} {load : Nat} {onIt : Nat → α}

/-- What goes onto the diagonal of a fresh load: more where no element is attached. -/
def amountOn (g : Gmin α) (B : Mat α n n) (i : Nat) : α :=
  if rowIsEmpty B i then Scalar.max g.conductance (Scalar.exp10 g.stop) else g.conductance

/-- The conductances once they have seen a load, with given amounts on its diagonal. -/
def bearing (g : Gmin α) (B : Mat α n n) (load : Nat) (onIt : Nat → α) : Gmin α :=
  { g with
    floating := g.partition.members.filter (rowIsEmpty B)
    shift := ⟨some load, g.partition.indices.map onIt⟩ }

theorem tie_eq (floating : g.floating = g.partition.members.filter (rowIsEmpty B)) {i : Nat}
    (member : i ∈ g.partition.indices) : g.tie i = g.amountOn B i := by
  have empty : g.floating.contains i = true ↔ rowIsEmpty B i = true := by
    rw [floating, IndexSet.contains_iff, IndexSet.mem_filter]
    exact and_iff_right member
  simp only [tie, amountOn, empty]

theorem augmentJacobian_fresh (fresh : g.shift.isFresh load = true)
    (fits : ∀ i ∈ g.partition.indices, i < n) :
    g.augmentJacobian B load =
      .ok (g.bearing B load (g.amountOn B), B.shifted g.partition.indices (g.amountOn B)) := by
  rw [augmentJacobian, if_pos fresh]
  exact bind_eq_ok.2 ⟨_, Shift.apply_fresh fresh g.partition.nodup_indices fits
    fun _ ↦ tie_eq rfl, rfl⟩

theorem augmentJacobian_again (fits : ∀ i ∈ g.partition.indices, i < n) :
    (g.bearing B load onIt).augmentJacobian A load =
      .ok (g.bearing B load (g.amountOn B),
        A.onDiagonal g.partition.indices fun i d ↦
          Shift.shifted d (g.amountOn B i) (some (onIt i))) := by
  have stale : (g.bearing B load onIt).shift.isFresh load = false := by
    simp [bearing, Shift.isFresh]
  have tie : ∀ i ∈ g.partition.indices, (g.bearing B load onIt).tie i = g.amountOn B i :=
    fun _ ↦ tie_eq (g := g.bearing B load onIt) rfl
  rw [augmentJacobian, if_neg (Bool.eq_false_iff.1 stale)]
  exact bind_eq_ok.2 ⟨_, Shift.apply_again g.partition.nodup_indices fits tie, rfl⟩

end Gmin

namespace PseudoTime

variable {p : PseudoTime α} {A B : Mat α n n} {load : Nat} {onIt : Nat → α}

/-- The term once it has seen a load, with given amounts on its diagonal. -/
def bearing {α : Type} [LE α] (p : PseudoTime α) (load : Nat) (onIt : Nat → α) : PseudoTime α :=
  { p with shift := ⟨some load, p.all.indices.map onIt⟩ }

theorem augmentJacobian_fresh (fresh : p.shift.isFresh load = true)
    (fits : ∀ i ∈ p.all.indices, i < n) :
    p.augmentJacobian B load = .ok (p.bearing load p.amount, B.shifted p.all.indices p.amount) :=
  bind_eq_ok.2 ⟨_, Shift.apply_fresh fresh p.all.nodup_indices fits fun _ _ ↦ rfl, rfl⟩

theorem augmentJacobian_again (fits : ∀ i ∈ p.all.indices, i < n) :
    (p.bearing load onIt).augmentJacobian A load =
      .ok (p.bearing load p.amount,
        A.onDiagonal p.all.indices fun i d ↦ Shift.shifted d (p.amount i) (some (onIt i))) :=
  bind_eq_ok.2 ⟨_, Shift.apply_again p.all.nodup_indices fits fun _ _ ↦ rfl, rfl⟩

end PseudoTime

theorem Clamp.augmentJacobian_eq {c : Clamp α} (fits : ∀ i ∈ c.rows, i < n) (A : Mat α n n) :
    c.augmentJacobian A = .ok (A.pinned c.rows) :=
  Mat.foldlM_setIdentityRow fits A

/-! ## Calls on one load -/

namespace Augmentation

variable {a a' : Augmentation α} {s : Shift α} {A B : Mat α n n} {load : Nat} {onIt : Nat → α}

/-- The shift of those strategies that have one. -/
def shift? : Augmentation α → Option (Shift α)
  | gmin g => some g.shift
  | pseudoTransient p => some p.shift
  | clampWithGmin g _ => some g.shift
  | _ => none

/-- The unknowns whose diagonal entries are shifted. -/
def shiftedRows : Augmentation α → List Nat
  | gmin g => g.partition.indices
  | pseudoTransient p => p.all.indices
  | clampWithGmin g _ => g.partition.indices
  | _ => []

/-- The unknowns whose rows become those of the identity. -/
def pinnedRows : Augmentation α → List Nat
  | clamp c => c.rows
  | clampWithGmin _ c => c.rows
  | _ => []

/-- What goes onto the diagonal of a fresh load at an unknown. -/
def amountOn (B : Mat α n n) : Augmentation α → Nat → α
  | gmin g => g.amountOn B
  | pseudoTransient p => p.amount
  | clampWithGmin g _ => g.amountOn B
  | _ => 0

/-- A Jacobian with the shift of a strategy on its diagonal and the rows of the identity at the
unknowns that the strategy holds. -/
def augmented (B : Mat α n n) (a : Augmentation α) : Mat α n n :=
  (B.shifted a.shiftedRows (a.amountOn B)).pinned a.pinnedRows

theorem augmented_apply (a : Augmentation α) (B : Mat α n n) (i j : Fin n) :
    a.augmented B i j =
      if i.val ∈ a.pinnedRows then if i = j then 1 else 0
      else if i = j ∧ i.val ∈ a.shiftedRows then B i j + a.amountOn B i
      else B i j := by
  rw [augmented, Mat.pinned_apply, Mat.shifted_apply]

/-- A strategy once it has seen a load, with given amounts on its diagonal. -/
def bearing (B : Mat α n n) (load : Nat) (onIt : Nat → α) : Augmentation α → Augmentation α
  | gmin g => gmin (g.bearing B load onIt)
  | pseudoTransient p => pseudoTransient (p.bearing load onIt)
  | clampWithGmin g c => clampWithGmin (g.bearing B load onIt) c
  | a => a

theorem augmented_unpinned (unpinned : a.pinnedRows = []) :
    a.augmented B = B.shifted a.shiftedRows (a.amountOn B) := by
  rw [augmented, unpinned, Mat.pinned_nil]

/-- A fresh load is augmented in full, whatever was done to earlier loads. -/
theorem augmentJacobian_fresh (shifts : a.shift? = some s) (fresh : s.isFresh load = true)
    (fits : a.Fits n) :
    a.augmentJacobian B load = .ok (a.bearing B load (a.amountOn B), a.augmented B) := by
  cases a with
  | gmin g =>
    cases shifts
    refine bind_eq_ok.2 ⟨_, Gmin.augmentJacobian_fresh fresh (fits _ (.head _)), ?_⟩
    rw [augmented_unpinned rfl]
    rfl
  | pseudoTransient p =>
    cases shifts
    refine bind_eq_ok.2 ⟨_, PseudoTime.augmentJacobian_fresh fresh (fits _ (.head _)), ?_⟩
    rw [augmented_unpinned rfl]
    rfl
  | clampWithGmin g c =>
    cases shifts
    refine bind_eq_ok.2 ⟨_, Gmin.augmentJacobian_fresh fresh (fits _ (.head _)), ?_⟩
    exact bind_eq_ok.2 ⟨_, Clamp.augmentJacobian_eq (fits _ (.tail _ (.head _))) _, rfl⟩
  | clamp | seed => cases shifts

theorem setProgress_bearing {value : α} (told : a.setProgress value = .ok a') :
    (a.bearing B load onIt).setProgress value = .ok (a'.bearing B load onIt) := by
  cases a <;> cases told <;> rfl

section

variable {K : Type} [Field K] [LinearOrder K] [IsStrictOrderedRing K] (line : Scalar.Line K α)

include line

/-- Old amounts come off again, as numbers. -/
theorem shifted_again {d old amount : α} (number : Scalar.isFinite d = true)
    (before : Scalar.isFinite old = true) (after : Scalar.isFinite amount = true) :
    Shift.shifted (d + old) amount (some old) = d + amount := by
  obtain ⟨d, rfl⟩ := line.finite_iff.1 number
  obtain ⟨old, rfl⟩ := line.finite_iff.1 before
  obtain ⟨amount, rfl⟩ := line.finite_iff.1 after
  by_cases same : amount = old
  · refine (if_pos (line.beq_iff.2 same)).trans ?_
    rw [same]
  · refine (if_neg (line.beq_iff.not.2 same)).trans ?_
    rw [← line.add, ← line.sub, add_sub_cancel_right, ← line.add]

theorem shifted_pinned_again {indices rows : List Nat} {amount : Nat → α}
    (diagonal : ∀ i, Scalar.isFinite (B i i) = true)
    (before : ∀ i ∈ indices, Scalar.isFinite (onIt i) = true)
    (after : ∀ i ∈ indices, Scalar.isFinite (amount i) = true) :
    (((B.shifted indices onIt).pinned rows).onDiagonal indices fun i d ↦
      Shift.shifted d (amount i) (some (onIt i))).pinned rows =
        (B.shifted indices amount).pinned rows := by
  ext i j
  simp only [Mat.pinned_apply, Mat.onDiagonal_apply, Mat.shifted_apply]
  by_cases pinned : i.val ∈ rows
  · simp only [if_pos pinned]
  · simp only [if_neg pinned]
    by_cases here : i = j ∧ i.val ∈ indices
    · obtain ⟨rfl, member⟩ := here
      simp only [true_and, if_pos member]
      exact shifted_again line (diagonal i) (before i member) (after i member)
    · simp only [if_neg here]

/-- A load that is augmented already comes to be as if it had been augmented with the last amounts
only. -/
theorem augmentJacobian_again (shifts : a.shift? = some s) (fits : a.Fits n)
    (diagonal : ∀ i, Scalar.isFinite (B i i) = true)
    (before : ∀ i ∈ a.shiftedRows, Scalar.isFinite (onIt i) = true)
    (after : ∀ i ∈ a.shiftedRows, Scalar.isFinite (a.amountOn B i) = true) :
    (a.bearing B load onIt).augmentJacobian
        ((B.shifted a.shiftedRows onIt).pinned a.pinnedRows) load =
      .ok (a.bearing B load (a.amountOn B), a.augmented B) := by
  rw [augmented, ← shifted_pinned_again line diagonal before after]
  cases a with
  | gmin g =>
    refine bind_eq_ok.2 ⟨_, Gmin.augmentJacobian_again (fits _ (.head _)), ?_⟩
    exact congrArg (fun J ↦ Except.ok (_, J)) (Mat.pinned_nil _).symm
  | pseudoTransient p =>
    refine bind_eq_ok.2 ⟨_, PseudoTime.augmentJacobian_again (fits _ (.head _)), ?_⟩
    exact congrArg (fun J ↦ Except.ok (_, J)) (Mat.pinned_nil _).symm
  | clampWithGmin g c =>
    refine bind_eq_ok.2 ⟨_, Gmin.augmentJacobian_again (fits _ (.head _)), ?_⟩
    exact bind_eq_ok.2 ⟨_, Clamp.augmentJacobian_eq (fits _ (.tail _ (.head _))) _, rfl⟩
  | clamp | seed => cases shifts

end

end Augmentation

/-! ## Numbers -/

/-- All that a conductance is calculated from is a number. -/
structure Gmin.Numeric (g : Gmin α) : Prop where
  progress : Scalar.isFinite g.progress = true
  stop : Scalar.isFinite g.stop = true
  floor : Scalar.isFinite g.floor = true

/-- The scales of a term in pseudo-time are numbers, and its step is one that can be divided by. -/
structure PseudoTime.Numeric (p : PseudoTime α) : Prop where
  step : Scalar.isFinite p.step = true
  nonzero : p.step ≠ 0
  voltageScale : Scalar.isFinite p.voltageScale = true
  otherScale : Scalar.isFinite p.otherScale = true

/-- The amounts of a strategy are calculated from numbers. -/
def Augmentation.Numeric : Augmentation α → Prop
  | gmin g => g.Numeric
  | pseudoTransient p => p.Numeric
  | clampWithGmin g _ => g.Numeric
  | _ => True

section

variable {K : Type} [Field K] [LinearOrder K] [IsStrictOrderedRing K] {line : Scalar.Line K α}

theorem Gmin.Numeric.amountOn {g : Gmin α} (h : g.Numeric) (powers : line.Powers) (B : Mat α n n)
    (i : Nat) : Scalar.isFinite (g.amountOn B i) = true := by
  obtain ⟨progress, ofProgress⟩ := line.finite_iff.1 h.progress
  obtain ⟨stop, ofStop⟩ := line.finite_iff.1 h.stop
  obtain ⟨floor, ofFloor⟩ := line.finite_iff.1 h.floor
  obtain ⟨now, powerNow⟩ := powers.exp10 progress
  obtain ⟨last, powerLast⟩ := powers.exp10 stop
  have conductance : g.conductance = line.of (max (now - last + floor) floor) := by
    rw [Gmin.conductance, conductanceAt, ofProgress, ofStop, ofFloor, powerNow, powerLast,
      ← line.sub, ← line.add, line.max]
  rw [Gmin.amountOn, conductance, ofStop, powerLast, line.max]
  split
  · exact line.finite _
  · exact line.finite _

theorem PseudoTime.Numeric.amount {p : PseudoTime α} (h : p.Numeric) (line : Scalar.Line K α)
    (i : Nat) : Scalar.isFinite (p.amount i) = true := by
  obtain ⟨step, ofStep⟩ := line.finite_iff.1 h.step
  obtain ⟨voltage, ofVoltage⟩ := line.finite_iff.1 h.voltageScale
  obtain ⟨other, ofOther⟩ := line.finite_iff.1 h.otherScale
  have nonzero : step ≠ 0 := by
    rintro rfl
    exact h.nonzero (ofStep.trans line.zero)
  have inverse : 1 / p.step = line.of (1 / step) := by
    rw [ofStep, ← line.one, line.div 1 nonzero]
  simp only [PseudoTime.amount, inverse, ofVoltage, ofOther, ← line.mul]
  split
  · exact line.finite _
  · exact line.finite _

theorem Augmentation.Numeric.amountOn {a : Augmentation α} (h : a.Numeric) (powers : line.Powers)
    (B : Mat α n n) (i : Nat) : Scalar.isFinite (a.amountOn B i) = true := by
  cases a with
  | gmin g => exact Gmin.Numeric.amountOn h powers B i
  | pseudoTransient p => exact PseudoTime.Numeric.amount h line i
  | clampWithGmin g c => exact Gmin.Numeric.amountOn h powers B i
  | clamp | seed => exact line.finite_iff.2 ⟨0, line.zero.symm⟩

end

/-! ## Series of calls -/

namespace Augmentation

/-- A call to a strategy that is laid over a load. -/
inductive Call (α : Type) where
  | progress (value : α)
  | augment

/-- What a call makes of a strategy and of the Jacobian of the load. -/
def Call.perform (load : Nat) (state : Augmentation α × Mat α n n) :
    Call α → Except Stop (Augmentation α × Mat α n n)
  | .progress value => do return (← Stop.ofFault (state.1.setProgress value), state.2)
  | .augment => state.1.augmentJacobian state.2 load

/-- What a call makes of a strategy that does not see the load. -/
def Call.tell (a : Augmentation α) : Call α → Augmentation α
  | .progress value =>
    match a.setProgress value with
    | .ok a' => a'
    | .error _ => a
  | .augment => a

/-- A strategy with the last progress value of a series of calls. -/
def progressed (calls : List (Call α)) (a : Augmentation α) : Augmentation α :=
  calls.foldl Call.tell a

/-- A strategy and a Jacobian after some calls, where `a` is what the calls alone make of the
strategy: either the load is still fresh, or amounts that are numbers are on it. -/
inductive Stands (B : Mat α n n) (load : Nat) (a : Augmentation α) :
    Augmentation α × Mat α n n → Prop
  | fresh {s : Shift α} (shifts : a.shift? = some s) (unseen : s.isFresh load = true) :
    Stands B load a (a, B)
  | seen (onIt : Nat → α) (numbers : ∀ i ∈ a.shiftedRows, Scalar.isFinite (onIt i) = true) :
    Stands B load a (a.bearing B load onIt, (B.shifted a.shiftedRows onIt).pinned a.pinnedRows)

variable {a : Augmentation α} {s : Shift α} {B : Mat α n n} {load : Nat}
  {state : Augmentation α × Mat α n n}

theorem tell_shift? (a : Augmentation α) (call : Call α) : (call.tell a).shift? = a.shift? := by
  cases call <;> cases a <;> rfl

theorem tell_partitions (a : Augmentation α) (call : Call α) :
    (call.tell a).partitions = a.partitions := by
  cases call <;> cases a <;> rfl

theorem tell_shiftedRows (a : Augmentation α) (call : Call α) :
    (call.tell a).shiftedRows = a.shiftedRows := by
  cases call <;> cases a <;> rfl

theorem tell_pinnedRows (a : Augmentation α) (call : Call α) :
    (call.tell a).pinnedRows = a.pinnedRows := by
  cases call <;> cases a <;> rfl

theorem setProgress_eq (shifts : a.shift? = some s) (value : α) :
    a.setProgress value = .ok (Call.tell a (.progress value)) := by
  cases a with
  | gmin | pseudoTransient | clampWithGmin => rfl
  | clamp | seed => cases shifts

theorem Stands.progress (h : Stands B load a state) (shifts : a.shift? = some s) (value : α) :
    ∃ state', Call.perform load state (.progress value) = .ok state' ∧
      Stands B load (Call.tell a (.progress value)) state' := by
  have told := setProgress_eq shifts value
  cases h with
  | fresh shifts unseen =>
    refine ⟨_, bind_eq_ok.2 ⟨_, congrArg Stop.ofFault told, rfl⟩, .fresh ?_ unseen⟩
    exact (tell_shift? ..).trans shifts
  | seen onIt numbers =>
    refine ⟨_, bind_eq_ok.2 ⟨_, congrArg Stop.ofFault (setProgress_bearing told), rfl⟩, ?_⟩
    rw [← tell_shiftedRows a (.progress value)] at numbers ⊢
    rw [← tell_pinnedRows a (.progress value)]
    exact .seen onIt numbers

section

variable {K : Type} [Field K] [LinearOrder K] [IsStrictOrderedRing K] {line : Scalar.Line K α}

/-- An augment leaves the same strategy and the same Jacobian as on the fresh load. -/
theorem Stands.augment (powers : line.Powers) (h : Stands B load a state)
    (shifts : a.shift? = some s) (fits : a.Fits n)
    (diagonal : ∀ i, Scalar.isFinite (B i i) = true) (numeric : a.Numeric) :
    Call.perform load state .augment =
      .ok (a.bearing B load (a.amountOn B), a.augmented B) := by
  cases h with
  | fresh shifts unseen => exact augmentJacobian_fresh shifts unseen fits
  | seen onIt numbers =>
    exact augmentJacobian_again line shifts fits diagonal numbers
      fun i _ ↦ numeric.amountOn powers B i

/-- A series of calls, in which the amounts are numbers whenever they are put on the diagonal. -/
theorem Stands.run (powers : line.Powers) (diagonal : ∀ i, Scalar.isFinite (B i i) = true)
    {calls : List (Call α)} (h : Stands B load a state) (shifts : a.shift? = some s)
    (fits : a.Fits n)
    (numeric : ∀ done, done ++ [Call.augment] <+: calls → (a.progressed done).Numeric) :
    ∃ state', calls.foldlM (Call.perform load) state = .ok state' ∧
      Stands B load (a.progressed calls) state' := by
  induction calls generalizing a state with
  | nil => exact ⟨state, rfl, h⟩
  | cons call rest ih =>
    have next : ∃ state', Call.perform load state call = .ok state' ∧
        Stands B load (call.tell a) state' := by
      cases call with
      | progress value => exact h.progress shifts value
      | augment =>
        have now : a.Numeric := numeric [] (List.prefix_append [Call.augment] rest)
        exact ⟨_, h.augment powers shifts fits diagonal now,
          .seen _ fun i _ ↦ now.amountOn powers B i⟩
    obtain ⟨state', performed, stands⟩ := next
    obtain ⟨last, ran, stands⟩ := ih stands ((tell_shift? a call).trans shifts)
      (by rw [Fits, tell_partitions]; exact fits)
      fun done early ↦ numeric (call :: done) (List.cons_prefix_cons.2 ⟨rfl, early⟩)
    refine ⟨last, ?_, stands⟩
    rw [List.foldlM_cons]
    exact bind_eq_ok.2 ⟨state', performed, ran⟩

theorem progressed_shift? (calls : List (Call α)) (a : Augmentation α) :
    (a.progressed calls).shift? = a.shift? := by
  induction calls generalizing a with
  | nil => rfl
  | cons call rest ih => exact (ih _).trans (tell_shift? a call)

theorem progressed_partitions (calls : List (Call α)) (a : Augmentation α) :
    (a.progressed calls).partitions = a.partitions := by
  induction calls generalizing a with
  | nil => rfl
  | cons call rest ih => exact (ih _).trans (tell_partitions a call)

theorem bearing_shift? (shifts : a.shift? = some s) (B : Mat α n n) (load : Nat)
    (onIt : Nat → α) :
    (a.bearing B load onIt).shift? = some ⟨some load, a.shiftedRows.map onIt⟩ := by
  cases a with
  | gmin | pseudoTransient | clampWithGmin => rfl
  | clamp | seed => cases shifts

theorem bearing_partitions (onIt : Nat → α) :
    (a.bearing B load onIt).partitions = a.partitions := by
  cases a <;> rfl

theorem bearing_augmented (onIt : Nat → α) (B' : Mat α n n) :
    (a.bearing B load onIt).augmented B' = a.augmented B' := by
  cases a <;> rfl

/-- Shifts do not depend on what was done before.  Whatever state earlier loads left a strategy in,
and however often its progress variable is moved and a new load augmented, the last augment leaves
the Jacobian of the load with the last shift on its diagonal and the rows of the identity where the
strategy holds the unknowns, and the strategy as if this had been the only augment.  Once more
changes nothing, and any other load is augmented in full. -/
theorem augment_independent (powers : line.Powers) (shifts : a.shift? = some s)
    (unseen : s.isFresh load = true) (fits : a.Fits n)
    (diagonal : ∀ i, Scalar.isFinite (B i i) = true) (calls : List (Call α))
    (numeric : ∀ done, done ++ [Call.augment] <+: calls ++ [Call.augment] →
      (a.progressed done).Numeric) :
    ∃ after,
      (calls ++ [Call.augment]).foldlM (Call.perform load) (a, B) =
        .ok (after, (a.progressed calls).augmented B) ∧
      (a.progressed calls).augmentJacobian B load =
        .ok (after, (a.progressed calls).augmented B) ∧
      after.augmentJacobian ((a.progressed calls).augmented B) load =
        .ok (after, (a.progressed calls).augmented B) ∧
      ∀ load' ≠ load, ∀ B' : Mat α n n, ∃ later,
        after.augmentJacobian B' load' = .ok (later, (a.progressed calls).augmented B') := by
  have shifts' : (a.progressed calls).shift? = some s := (progressed_shift? calls a).trans shifts
  have fits' : (a.progressed calls).Fits n := by
    rw [Fits, progressed_partitions]
    exact fits
  have last : (a.progressed calls).Numeric := numeric calls (List.prefix_refl _)
  have amounts : ∀ i ∈ (a.progressed calls).shiftedRows,
      Scalar.isFinite ((a.progressed calls).amountOn B i) = true :=
    fun i _ ↦ last.amountOn powers B i
  obtain ⟨state, ran, stands⟩ := Stands.run powers diagonal (.fresh shifts unseen) shifts fits
    fun done early ↦ numeric done (early.trans (List.prefix_append ..))
  refine ⟨_, ?_, augmentJacobian_fresh shifts' unseen fits',
    augmentJacobian_again line shifts' fits' diagonal amounts amounts, fun load' other B' ↦ ?_⟩
  · rw [List.foldlM_append, ran]
    have once := stands.augment powers shifts' fits' diagonal last
    exact bind_eq_ok.2 ⟨state, rfl, bind_eq_ok.2 ⟨_, once, rfl⟩⟩
  · have full := augmentJacobian_fresh (B := B')
      (bearing_shift? shifts' B load ((a.progressed calls).amountOn B))
      (by simpa [Shift.isFresh] using other.symm)
      (by rw [Fits, bearing_partitions]; exact fits')
    rw [bearing_augmented] at full
    exact ⟨_, full⟩

end

/-- Conductances on two unknowns of which the second is clamped, left over from an earlier load.
The progress variable moves twice while the load is new, and the first unknown is without an
element. -/
theorem augment_independent_overlapping :
    let g : Gmin ExtendedRat :=
      { partition := .full 2, progress := .number 3, stop := .number (-1), floor := 0
        shift := ⟨some 6, [.undefined]⟩ }
    let c : Clamp ExtendedRat := ⟨⟨.ofList [1], 2, by decide⟩, [.number 5], rfl⟩
    let a := clampWithGmin g c
    let B : Mat ExtendedRat 2 2 := ⟨#v[#v[0, 0], #v[.number 4, .number 7]]⟩
    let calls : List (Call ExtendedRat) :=
      [.augment, .progress (.number 2), .augment, .progress (.number (-1))]
    ∃ after,
      (calls ++ [Call.augment]).foldlM (Call.perform 7) (a, B) =
        .ok (after, ⟨#v[#v[.number (1 / 10), 0], #v[0, 1]]⟩) := by
  intro g c a B calls
  have numeric : ∀ done, done ++ [Call.augment] <+: calls ++ [Call.augment] →
      (a.progressed done).Numeric := by
    intro done early
    have among : done ∈ calls.inits := (List.mem_inits ..).2 (List.prefix_of_prefix_length_le
      ((List.prefix_append ..).trans early) (List.prefix_append ..)
      (by simpa using early.length_le))
    simp only [calls, List.inits, List.map_cons, List.map_nil, List.mem_cons, List.not_mem_nil,
      or_false] at among
    rcases among with rfl | rfl | rfl | rfl | rfl <;> exact ⟨rfl, rfl, rfl⟩
  have unseen : g.shift.isFresh 7 = true := by decide
  have fits : a.Fits 2 := by
    show ∀ p ∈ [g.partition, c.partition], ∀ i ∈ p.indices, i < 2
    decide
  obtain ⟨after, ran, -⟩ := augment_independent ExtendedRat.line_powers (a := a) rfl unseen fits
    (B := B) (by decide) calls numeric
  refine ⟨after, ran.trans (congrArg (fun J ↦ Except.ok (after, J)) ?_)⟩
  ext i j
  revert i j
  decide +kernel

end Augmentation

end OperatingPoint
