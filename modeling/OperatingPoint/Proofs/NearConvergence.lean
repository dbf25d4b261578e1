import OperatingPoint.Proofs.CheckHistories
import OperatingPoint.Proofs.MarchEnds

/-!
# What near convergence stands for

A transient is accepted as nearly converged for its rates: the norm of the residual over that of the
first residual on record, and, at the end of the budget, over that of the residual recorded before.
In exact arithmetic a bound on a rate is a bound on the norm, as long as the norm that it is taken
over is positive: `Rated`.

Where that norm is zero, a rate is a convention.  The rate over the first norm is then zero and the
rate over the last norm one, so that acceptance says something about the bounds and nothing about
the residual.
-/

set_option autoImplicit false

namespace OperatingPoint

namespace Battery

variable {α K : Type} [Scalar α] [Field K] [LinearOrder K] [IsStrictOrderedRing K]
  {b : Battery α} {snap : Snapshot α} {direction : Except Stop (Option (Array α))}
  {iteration : Nat} {w : α}

/-! ## Rates that are accepted -/

/-- The last tests find near convergence in the rates. -/
theorem near_of_conclude (transient : b.transient = true)
    (near : (b.conclude iteration).2 = .converged .nearConvergence) :
    b.relativeRate ≤ b.options.maxRelativeConvergenceRate ∧
      (b.options.maxSteps ≤ iteration → b.rate ≤ b.options.maxConvergenceRate) := by
  have run := conclude_run b iteration
  generalize b.conclude iteration = p at run near
  cases run with
  | near _ _ rates => exact ⟨rates.2, fun _ ↦ rates.1⟩
  | stagnated _ _ early =>
    dsimp only at near
    split at near
    · rename_i rate
      exact ⟨rate, fun spent ↦ absurd early (Nat.not_lt.2 spent)⟩
    · cases near
  | small =>
    dsimp only at near
    split at near <;> cases near
  | late | spent | grown | counted | uncounted => cases near

/-- The end of a budget is a failure for one of the rates. -/
theorem late_of_conclude (transient : b.transient = true)
    (late : (b.conclude iteration).2 = .failed .tooManySteps) :
    ¬(b.relativeRate ≤ b.options.maxRelativeConvergenceRate ∧
      b.rate ≤ b.options.maxConvergenceRate) := by
  have run := conclude_run b iteration
  generalize b.conclude iteration = p at run late
  cases run with
  | late _ _ rates => exact fun small ↦ rates small.symm
  | spent steady => cases steady.symm.trans transient
  | small =>
    dsimp only at late
    split at late <;> cases late
  | stagnated =>
    dsimp only at late
    split at late <;> cases late
  | near | grown | counted | uncounted => cases late

/-! ## Rates in exact arithmetic -/

/-- What it says of a norm that its rate over another is within a bound: where the other is positive
it is a bound on the norm.  Where it is not, or there is none, the rate is a convention. -/
def Rated (convention bound two : K) (base : Option K) : Prop :=
  (∀ p, base = some p → 0 < p → two ≤ bound * p) ∧
    ((∀ p, base = some p → p ≤ 0) → convention ≤ bound)

omit [IsStrictOrderedRing K] in
theorem rated_none {convention bound two : K} :
    Rated convention bound two none ↔ convention ≤ bound := by
  refine ⟨fun rated ↦ rated.2 fun _ none ↦ (by cases none), fun small ↦ ⟨?_, fun _ ↦ small⟩⟩
  rintro _ ⟨⟩

omit [IsStrictOrderedRing K] in
theorem rated_some {convention bound two base : K} :
    Rated convention bound two (some base) ↔
      if 0 < base then two ≤ bound * base else convention ≤ bound := by
  unfold Rated
  by_cases pos : 0 < base
  · rw [if_pos pos]
    refine ⟨fun rated ↦ rated.1 base rfl pos, fun small ↦ ⟨?_, ?_⟩⟩
    · rintro _ ⟨⟩ -
      exact small
    · intro none
      exact absurd pos (none base rfl).not_gt
  · rw [if_neg pos]
    refine ⟨fun rated ↦ rated.2 ?_, fun small ↦ ⟨?_, fun _ ↦ small⟩⟩
    · rintro _ ⟨⟩
      exact not_lt.1 pos
    · rintro _ ⟨⟩ pos'
      exact absurd pos' pos

section
variable (line : Scalar.Line K α)

/-- A rate as it is stored, against its bound. -/
theorem rate_le_iff {convention bound two base : K} :
    (if 0 < line.of base then line.of two / line.of base else line.of convention) ≤
        line.of bound ↔
      Rated convention bound two (some base) := by
  have sign : 0 < line.of base ↔ 0 < base := by rw [← line.zero, line.lt_iff]
  rw [rated_some]
  by_cases pos : 0 < base
  · rw [if_pos pos, if_pos (sign.2 pos), ← line.div two pos.ne', line.le_iff, div_le_iff₀ pos]
  · rw [if_neg pos, if_neg (sign.not.2 pos), line.le_iff]

variable {residuals : List (Array α)} {norm : Array α → K} {bound : K}

/-- A bound on the relative rate bounds the norm of the residual by that of the first on record. -/
theorem relativeRate_le_iff (remembers : b.Remembers residuals)
    (norms : ∀ f ∈ residuals ++ [snap.residual], b.communicator.norm2 f = line.of (norm f)) :
    (b.record snap.residual).relativeRate ≤ line.of bound ↔
      Rated 0 bound (norm snap.residual) ((residuals ++ [snap.residual]).head?.map norm) := by
  obtain ⟨first, here⟩ : ∃ first, (residuals ++ [snap.residual]).head? = some first :=
    ⟨_, List.head?_eq_some_head (by simp)⟩
  have rate := record_relativeRate remembers here
  rw [here, Option.map_some, ← rate_le_iff line, line.zero,
    ← norms first (List.mem_of_mem_head? here), ← norms snap.residual (by simp), ← rate]

/-- A bound on the rate bounds the norm of the residual by that of the last on record. -/
theorem rate_le_iff_last (remembers : b.Remembers residuals)
    (norms : ∀ f ∈ residuals ++ [snap.residual], b.communicator.norm2 f = line.of (norm f)) :
    (b.record snap.residual).rate ≤ line.of bound ↔
      Rated 1 bound (norm snap.residual) (residuals.getLast?.map norm) := by
  rw [record_rate remembers]
  cases here : residuals.getLast? with
  | none =>
    rw [Communicator.rate, ← line.one, line.le_iff]
    exact rated_none.symm
  | some last =>
    rw [Option.map_some, ← rate_le_iff line, line.one,
      ← norms last (by simp [List.mem_of_getLast? here]), ← norms snap.residual (by simp)]
    rfl

end

/-- **Near convergence in exact arithmetic.**  Let a transient be checked after any use of its
battery.  If it is found nearly converged, the norm of the residual is at most the greatest relative
rate times the norm of the first residual on record since the last reset, which may be this one, and
at the end of the budget it is at most the greatest rate times the norm of the residual recorded
before.  If the end of the budget is a failure, one of the two is not so.

All this is as said where the norm that a rate is taken over is positive.  Where it is zero, or
there is none, the norm of the residual has no part in it, and it is only asked whether the greatest
relative rate is at least zero, or the greatest rate at least one. -/
theorem near_convergence_rated (line : Scalar.Line K α) (c : Communicator α) (o : NewtonOptions α)
    (codes : CodeTable) {rate relative : K} (rates : o.maxConvergenceRate = line.of rate)
    (relatives : o.maxRelativeConvergenceRate = line.of relative) (norm : Array α → K)
    (norms : ∀ f, c.allFinite f = true → c.norm2 f = line.of (norm f)) (uses : List (Use α))
    (snap : Snapshot α) (direction : Except Stop (Option (Array α))) :
    let b := new c o codes true
    let answer := ((b.after uses).check snap direction).2
    let residuals := b.recorded uses
    let overFirst := Rated 0 relative (norm snap.residual)
      ((residuals ++ [snap.residual]).head?.map norm)
    let overLast := Rated 1 rate (norm snap.residual) (residuals.getLast?.map norm)
    (answer = .ok (.converged .nearConvergence) →
      overFirst ∧ (o.maxSteps ≤ snap.iteration → overLast)) ∧
    (answer = .ok (.failed .tooManySteps) → ¬(overFirst ∧ overLast)) := by
  intro b answer residuals overFirst overLast
  have alike := b.after_alike uses
  have remembers : (b.after uses).Remembers residuals :=
    after_remembers (remembers_new c o codes true) uses
  have norms' (recorded : (b.after uses).records snap = true) :
      ∀ f ∈ residuals ++ [snap.residual],
        (b.after uses).communicator.norm2 f = line.of (norm f) := by
    rw [alike.communicator]
    intro f here
    refine norms f ?_
    obtain old | this := List.mem_append.1 here
    · exact b.finite_of_recorded uses f old
    · rw [List.mem_singleton.1 this]
      have finite := finite_of_records recorded
      rw [alike.communicator] at finite
      exact finite
  have first_iff (recorded : (b.after uses).records snap = true) :
      ((b.after uses).record snap.residual).relativeRate ≤ o.maxRelativeConvergenceRate ↔
        overFirst := by
    rw [relatives]
    exact relativeRate_le_iff line remembers (norms' recorded)
  have last_iff (recorded : (b.after uses).records snap = true) :
      ((b.after uses).record snap.residual).rate ≤ o.maxConvergenceRate ↔ overLast := by
    rw [rates]
    exact rate_le_iff_last line remembers (norms' recorded)
  have options (w : α) : (((b.after uses).record snap.residual).weighed w).options = o :=
    alike.options
  have transient (w : α) : (((b.after uses).record snap.residual).weighed w).transient = true :=
    alike.transient
  refine ⟨fun near ↦ ?_, fun late ↦ ?_⟩
  · obtain ⟨recorded, w, concluded⟩ := concluded_of_check near rfl
    have small := near_of_conclude (transient w) concluded.symm
    rw [options] at small
    exact ⟨(first_iff recorded).1 small.1, fun spent ↦ (last_iff recorded).1 (small.2 spent)⟩
  · obtain ⟨recorded, w, concluded⟩ := concluded_of_check late rfl
    have large := late_of_conclude (transient w) concluded.symm
    rw [options] at large
    rw [← first_iff recorded, ← last_iff recorded]
    exact large

/-! ## A transient of exact numbers -/

/-- A budget of a single iteration. -/
def oneStep : NewtonOptions ExtendedRat := { NewtonOptions.standard with maxSteps := 1 }

/-- An iterate of one unknown that follows another. -/
def scalarSnapshot (iteration : Nat) (x previous residual : ExtendedRat) :
    Snapshot ExtendedRat where
  iteration := iteration
  x := #[x]
  previousIterate := #[previous]
  previousPoint := #[0]
  residual := #[residual]
  devicesConverged := true
  innerSolveFailed := false

theorem serial_norm2 (f : Array ExtendedRat)
    (finite : (Communicator.serial : Communicator ExtendedRat).allFinite f = true) :
    (Communicator.serial : Communicator ExtendedRat).norm2 f =
      ExtendedRat.line.of (Communicator.serial.norm2 f).toRat := by
  obtain ⟨q, norm⟩ := ExtendedRat.exists_of_finite (ExtendedRat.serial_measures f finite)
  rw [norm]
  rfl

/-- A residual of 1000 comes down to 5 in the only iteration. -/
theorem near_convergence_rated_thousand :
    let b : Battery ExtendedRat := new .serial oneStep {} true
    let uses := [Use.check (scalarSnapshot 0 1 1 1000) (.ok none)]
    let snap := scalarSnapshot 1 2 1 5
    ((b.after uses).check snap (.ok none)).2 = .ok (.converged .nearConvergence) ∧
      Rated (0 : ℚ) (1 / 100) 5 (some 1000) ∧ Rated (1 : ℚ) 1 5 (some 1000) := by
  intro b uses snap
  have near : ((b.after uses).check snap (.ok none)).2 = .ok (.converged .nearConvergence) := by
    decide +kernel
  have rate : oneStep.maxConvergenceRate = ExtendedRat.line.of 1 := by decide +kernel
  have relative : oneStep.maxRelativeConvergenceRate = ExtendedRat.line.of (1 / 100) := by
    decide +kernel
  have rated := (near_convergence_rated ExtendedRat.line .serial oneStep {} rate relative
    (fun f ↦ (Communicator.serial.norm2 f).toRat) serial_norm2 uses snap (.ok none)).1 near
  have five : (Communicator.serial.norm2 snap.residual).toRat = 5 := by decide +kernel
  have first : ((b.recorded uses ++ [snap.residual]).head?.map
      fun f ↦ (Communicator.serial.norm2 f).toRat) = some 1000 := by decide +kernel
  have last : ((b.recorded uses).getLast?.map
      fun f ↦ (Communicator.serial.norm2 f).toRat) = some 1000 := by decide +kernel
  refine ⟨near, ?_, ?_⟩
  · rw [← five, ← first]
    exact rated.1
  · rw [← five, ← last]
    exact rated.2 (by decide +kernel)

/-- After a first residual of zero any residual is as good as converged. -/
example :
    let b : Battery ExtendedRat := new .serial { oneStep with rhsTol := 0 } {} true
    let first := b.after [.check (scalarSnapshot 0 1 1 0) (.ok none)]
    (first.check (scalarSnapshot 1 2 1 1000000) (.ok none)).2 =
      .ok (.converged .nearConvergence) := by
  decide +kernel

end Battery

end OperatingPoint
