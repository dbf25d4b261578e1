import OperatingPoint.Proofs.ExactScalars
import OperatingPoint.Proofs.MarchRun

/-!
# Strategies that were accepted for a system

A strategy carries the sets of the unknowns that it acts on, and is accepted for a system of `n`
unknowns by the sizes that its sets were built for.  What a strategy does after that keeps the sets,
so that an accepted strategy which acts on no other unknowns can be used in any way, any number of
times, without leaving the system.

The term in pseudo-time acts on more than it is accepted for: what counts is the size of its voltage
partition, and what is shifted are all the unknowns of the number it was built with.  If that number
is too large the first Jacobian runs out of the matrix.
-/

set_option autoImplicit false

namespace OperatingPoint

variable {α : Type} {n : Nat}

/-! ## Sets of unknowns -/

namespace Partition

variable {p : Partition}

theorem mem_full {i k : Nat} : i ∈ (full k).indices ↔ i < k := by
  simp [full, indices, IndexSet.below, IndexSet.toList]

theorem check_iff {what : String} : p.check n what = .ok () ↔ p.bound = n := by
  unfold check
  split
  · rename_i same
    exact iff_of_true rfl same
  · rename_i other
    exact iff_of_false nofun other

/-- The members of a set that was accepted for a system are unknowns of it. -/
theorem lt_of_check {what : String} (accepted : p.check n what = .ok ()) :
    ∀ i ∈ p.indices, i < n := check_iff.1 accepted ▸ p.below_bound

end Partition

variable [Scalar α]

/-! ## What is shifted is there -/

namespace Shift

variable {m : Nat} {amount : Nat → α} {A : Mat α m n}

theorem exists_applyAll_iff {entries : List (Nat × Option α)} :
    (∃ A', applyAll amount entries A = .ok A') ↔ ∀ entry ∈ entries, entry.1 < m ∧ entry.1 < n := by
  induction entries generalizing A with
  | nil => exact iff_of_true ⟨A, rfl⟩ nofun
  | cons entry rest ih =>
    obtain ⟨i, old⟩ := entry
    rw [List.forall_mem_cons]
    by_cases inside : i < m ∧ i < n
    · have read : A.diagonalEntry i = .ok (A ⟨i, inside.1⟩ ⟨i, inside.2⟩) := dif_pos inside
      have written : ∀ v, A.setDiagonalEntry i v = .ok (A.set ⟨i, inside.1⟩ ⟨i, inside.2⟩ v) :=
        fun v ↦ dif_pos inside
      simp only [applyAll, read, written, and_iff_right inside]
      exact ih
    · have read : A.diagonalEntry i = .error .breach := dif_neg inside
      refine iff_of_false (fun ⟨A', run⟩ ↦ ?_) fun fits ↦ inside fits.1
      obtain ⟨_, there, -⟩ := bind_eq_ok.1 run
      rw [read] at there
      cases there

theorem exists_apply_iff {s : Shift α} {indices : List Nat} {load : Nat} :
    (∃ r, s.apply A indices load amount = .ok r) ↔ ∀ i ∈ indices, i < m ∧ i < n := by
  unfold apply
  dsimp only
  generalize listed : (if (!s.isFresh load && s.applied.length == indices.length) = true then
    indices.zip (s.applied.map some) else indices.map fun i ↦ (i, none)) = entries
  -- Whether the load is fresh or not, the entries stand at the places of the partition.
  have places : entries.map Prod.fst = indices := by
    rw [← listed]
    split
    · rename_i again
      refine List.map_fst_zip (Nat.le_of_eq ?_)
      rw [List.length_map]
      exact (beq_iff_eq.1 (Bool.and_eq_true_iff.1 again).2).symm
    · rw [List.map_map]
      exact List.map_id _
  have ends : (∃ A', applyAll amount entries A = .ok A') ↔ _ := exists_applyAll_iff
  rw [← places, List.forall_mem_map, ← ends]
  constructor
  · rintro ⟨r, run⟩
    obtain ⟨A', run, -⟩ := bind_eq_ok.1 run
    exact ⟨A', run⟩
  · rintro ⟨A', run⟩
    exact ⟨_, bind_eq_ok.2 ⟨A', run, rfl⟩⟩

end Shift

/-! ## Uses -/

/-- One use of a strategy for a system of `n` unknowns. -/
inductive Augmentation.Use (α : Type) (n : Nat) where
  | residual (x f : Vector α n)
  | jacobian (A : Mat α n n) (load : Nat)
  | progress (value : α)
  /-- The end of a step in pseudo-time. -/
  | accept (norm : α)
  /-- A cut of the step in pseudo-time. -/
  | halve

namespace Augmentation

/-- The strategy with its term in pseudo-time changed, if it is one. -/
def onPseudoTime (change : PseudoTime α → PseudoTime α) : Augmentation α → Augmentation α
  | pseudoTransient p => pseudoTransient (change p)
  | a => a

/-- The strategy after one use.  What it refuses leaves it as it is. -/
def use (a : Augmentation α) : Use α n → Except Stop (Augmentation α)
  | .residual x f => (a.augmentResidual x f).map Prod.fst
  | .jacobian A load => (a.augmentJacobian A load).map Prod.fst
  | .progress value => .ok ((a.setProgress value).toOption.getD a)
  | .accept norm => .ok (a.onPseudoTime (·.accept norm))
  | .halve => .ok (a.onPseudoTime fun p ↦ p.halve.getD p)

/-- The strategy after some uses in turn. -/
def useAll (a : Augmentation α) (uses : List (Use α n)) : Except Stop (Augmentation α) :=
  uses.foldlM use a

variable {a a' : Augmentation α} {uses : List (Use α n)}

theorem useAll_cons (a : Augmentation α) (u : Use α n) (uses : List (Use α n)) :
    a.useAll (u :: uses) = a.use u >>= fun a' ↦ a'.useAll uses := List.foldlM_cons

theorem onPseudoTime_frame {change : PseudoTime α → PseudoTime α}
    (keeps : ∀ p, (pseudoTransient (change p)).frame = (pseudoTransient p).frame) :
    (a.onPseudoTime change).frame = a.frame := by
  cases a with
  | pseudoTransient p => exact keeps p
  | _ => rfl

theorem getD_halve_frame (p : PseudoTime α) :
    (pseudoTransient (p.halve.getD p)).frame = (pseudoTransient p).frame := by
  cases halved : p.halve with
  | some p' => exact PseudoTime.halve_frame halved
  | none => rfl

/-- What a strategy acts on does not change in use. -/
theorem use_frame {u : Use α n} (run : a.use u = .ok a') : a'.frame = a.frame := by
  cases u with
  | residual x f =>
    obtain ⟨⟨_, _⟩, changed, rfl⟩ := map_eq_ok.1 run
    exact augmentResidual_frame changed
  | jacobian A load =>
    obtain ⟨⟨_, _⟩, changed, rfl⟩ := map_eq_ok.1 run
    exact augmentJacobian_frame changed
  | progress value =>
    cases run
    cases told : a.setProgress value with
    | ok a' => exact setProgress_frame told
    | error cause => rfl
  | accept norm =>
    cases run
    exact onPseudoTime_frame fun p ↦ p.accept_frame norm
  | halve =>
    cases run
    exact onPseudoTime_frame getD_halve_frame

theorem fits_congr (same : a'.frame = a.frame) : a'.Fits n ↔ a.Fits n := by
  rw [Fits, Fits, ← partitions_frame, same, partitions_frame]

/-- A strategy can be used unless it acts on an unknown that is not there, and then it is only the
change of a residual or of a Jacobian that stops. -/
theorem use_stops (a : Augmentation α) (u : Use α n) :
    StopsOnly (fun e ↦ e = .breach ∧ ¬ a.Fits n) (a.use u) := by
  cases u with
  | residual x f => exact (a.augmentResidual_stops (fun unfit ↦ ⟨rfl, unfit⟩) x f).map _
  | jacobian A load => exact (a.augmentJacobian_stops (fun unfit ↦ ⟨rfl, unfit⟩) A load).map _
  | progress value => exact .ok _
  | accept norm => exact .ok _
  | halve => exact .ok _

theorem useAll_stops (a : Augmentation α) (uses : List (Use α n)) :
    StopsOnly (fun e ↦ e = .breach ∧ ¬ a.Fits n) (a.useAll uses) := by
  induction uses generalizing a with
  | nil => exact .ok a
  | cons u uses ih =>
    rw [useAll_cons]
    refine .bind (a.use_stops u) fun a' run ↦ ?_
    exact fun e stopped ↦ (ih a' e stopped).imp_right (mt (fits_congr (use_frame run)).2)

/-! ## Strategies that were accepted -/

/-- An accepted strategy acts on unknowns of the system, but for what a term in pseudo-time
shifts. -/
theorem fits_of_validate (accepted : a.validate n = .ok ())
    (whole : ∀ p, a = pseudoTransient p → ∀ i ∈ p.all.indices, i < n) : a.Fits n := by
  intro p member
  cases a with
  | gmin g =>
    cases List.mem_singleton.1 member
    exact Partition.lt_of_check accepted
  | pseudoTransient q =>
    cases List.mem_singleton.1 member
    exact whole q rfl
  | clamp c =>
    cases List.mem_singleton.1 member
    exact Partition.lt_of_check accepted
  | clampWithGmin g c =>
    obtain ⟨_, conducted, clamped⟩ := bind_eq_ok.1 accepted
    rcases List.mem_cons.1 member with rfl | member
    · exact Partition.lt_of_check conducted
    · cases List.mem_singleton.1 member
      exact Partition.lt_of_check clamped
  | seed s =>
    cases List.mem_singleton.1 member
    exact Partition.lt_of_check accepted

/-- All that is done with a term in pseudo-time but to change a Jacobian leaves it a term that
shifts the same unknowns. -/
theorem use_pseudoTransient (p : PseudoTime α) {u : Use α n}
    (other : ∀ A load, u ≠ .jacobian A load) :
    ∃ p' : PseudoTime α, p'.all = p.all ∧ (pseudoTransient p).use u = .ok (pseudoTransient p') := by
  have all : ∀ {p' : PseudoTime α},
      (pseudoTransient p').frame = (pseudoTransient p).frame → p'.all = p.all := by
    intro p' same
    have frames : p'.frame = p.frame := pseudoTransient.inj same
    show p'.frame.all = p.frame.all
    rw [frames]
  cases u with
  | residual x f => exact ⟨p, rfl, rfl⟩
  | jacobian A load => exact absurd rfl (other A load)
  | progress value => exact ⟨p.setStep value, rfl, rfl⟩
  | accept norm => exact ⟨p.accept norm, all (p.accept_frame norm), rfl⟩
  | halve => exact ⟨p.halve.getD p, all (getD_halve_frame p), rfl⟩

/-- A term in pseudo-time that shifts too much stops at the first Jacobian. -/
theorem useAll_pseudoTransient {p : PseudoTime α} (outside : ∃ i ∈ p.all.indices, n ≤ i) :
    (∃ a', (pseudoTransient p).useAll uses = .ok a') ↔ ∀ A load, .jacobian A load ∉ uses := by
  induction uses generalizing p with
  | nil => exact iff_of_true ⟨_, rfl⟩ fun _ _ ↦ List.not_mem_nil
  | cons u uses ih =>
    rw [useAll_cons]
    by_cases other : ∀ A load, u ≠ .jacobian A load
    · obtain ⟨p', same, run⟩ := use_pseudoTransient p other
      rw [run]
      refine (ih (same ▸ outside)).trans (forall₂_congr fun A load ↦ not_congr ?_)
      rw [List.mem_cons, or_iff_right (other A load).symm]
    · simp only [Classical.not_forall, Classical.not_not] at other
      obtain ⟨A, load, rfl⟩ := other
      refine iff_of_false (fun ⟨a', run⟩ ↦ ?_) fun without ↦ without A load (.head _)
      obtain ⟨_, run, _⟩ := bind_eq_ok.1 run
      obtain ⟨_, run, _⟩ := map_eq_ok.1 run
      obtain ⟨_, run, _⟩ := bind_eq_ok.1 run
      obtain ⟨_, run, _⟩ := bind_eq_ok.1 run
      obtain ⟨i, member, beyond⟩ := outside
      exact absurd (Shift.exists_apply_iff.1 ⟨_, run⟩ i member).1 (Nat.not_lt.2 beyond)

/-- **What an accepted strategy may be used for.**  A strategy that was accepted for a system of `n`
unknowns can be used in any way, in any order and any number of times, unless it is a term in
pseudo-time that was built for more than `n` unknowns.  Such a term is accepted too, since what
counts is its voltage partition; it stops at the first Jacobian, which is too small for it. -/
theorem useAll_of_validate (accepted : a.validate n = .ok ()) (uses : List (Use α n)) :
    ((∀ p, a ≠ pseudoTransient p) → ∃ a', a.useAll uses = .ok a') ∧
      ∀ voltage k step minStep maxStep voltageScale otherScale p,
        PseudoTime.ofStep voltage k step minStep maxStep voltageScale otherScale = .ok p →
        a = pseudoTransient p →
        ((∃ a', a.useAll uses = .ok a') ↔ k ≤ n ∨ ∀ A load, .jacobian A load ∉ uses) ∧
        (a.useAll uses = .error .breach ↔ n < k ∧ ∃ A load, .jacobian A load ∈ uses) := by
  have ends : a.Fits n → ∃ a', a.useAll uses = .ok a' := by
    intro fits
    cases run : a.useAll uses with
    | ok a' => exact ⟨a', rfl⟩
    | error e => exact absurd fits (a.useAll_stops uses e run).2
  refine ⟨fun other ↦ ends (fits_of_validate accepted fun p same ↦ absurd same (other p)), ?_⟩
  rintro voltage k step minStep maxStep voltageScale otherScale p built rfl
  have all : p.all = Partition.full k := by
    obtain ⟨all, full, built⟩ := bind_eq_ok.1 built
    obtain ⟨_, _, same⟩ := bind_eq_ok.1 full
    cases same
    split at built
    · cases built
      rfl
    · cases built
  have ended : (∃ a', (pseudoTransient p).useAll uses = .ok a') ↔
      k ≤ n ∨ ∀ A load, .jacobian A load ∉ uses := by
    by_cases small : k ≤ n
    · refine iff_of_true (ends (fits_of_validate accepted fun q same i member ↦ ?_)) (.inl small)
      cases same
      rw [all, Partition.mem_full] at member
      exact Nat.lt_of_lt_of_le member small
    · refine (useAll_pseudoTransient ⟨n, ?_, Nat.le_refl n⟩).trans (or_iff_right small).symm
      rw [all, Partition.mem_full]
      exact Nat.lt_of_not_le small
  refine ⟨ended, ?_⟩
  have stopped : (pseudoTransient p).useAll uses = .error .breach ↔
      ¬ ∃ a', (pseudoTransient p).useAll uses = .ok a' := by
    cases run : (pseudoTransient p).useAll uses with
    | ok a' => simp
    | error e =>
      cases ((pseudoTransient p).useAll_stops uses e run).1
      simp
  rw [stopped, ended]
  simp only [not_or, Nat.not_le, Classical.not_forall, Classical.not_not]

/-- A term in pseudo-time for two unknowns, accepted for a system of one: its residuals can be
changed and its step can be moved, but no Jacobian can be changed. -/
theorem useAll_of_validate_larger :
    ∃ p : PseudoTime ExtendedRat,
      PseudoTime.ofStep (.full 1) 2 1 (.number (1 / 10)) (.number 10) 1 1 = .ok p ∧
      (pseudoTransient p).validate 1 = .ok () ∧
      (∃ a', (pseudoTransient p).useAll (n := 1)
        [.residual #v[1] #v[1], .progress (.number 5), .accept 1, .halve] = .ok a') ∧
      ∀ A : Mat ExtendedRat 1 1, (pseudoTransient p).useAll [.jacobian A 1] = .error .breach := by
  have built : Yields (PseudoTime.ofStep (.full 1) 2 (1 : ExtendedRat) (.number (1 / 10))
      (.number 10) 1 1) fun p ↦ p.voltage.bound = 1 := by decide +kernel
  obtain ⟨p, built, size⟩ := built.exists
  have accepted : (pseudoTransient p).validate 1 = .ok () := Partition.check_iff.2 size
  refine ⟨p, built, accepted, ?_, fun A ↦ ?_⟩
  · refine ((useAll_of_validate accepted _).2 _ _ _ _ _ _ _ p built rfl).1.2 (.inr ?_)
    simp
  · refine ((useAll_of_validate accepted _).2 _ _ _ _ _ _ _ p built rfl).2.2 ⟨by decide, A, 1, ?_⟩
    exact .head _

end Augmentation

end OperatingPoint
