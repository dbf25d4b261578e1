import OperatingPoint.Proofs.Equations

/-!
# At the end of a way

At the end of its way a continuation has let go of what it laid over the equations: the conductance
to reference is zero, or the blend is all device equations.  The residual is not the same for all
that, since an entry with nothing added to it need not be the entry.  But where it is finite it has
the absolute values of the residual of the device equations, so that the verdict is about those.

Scalars are numbers of a machine, and what is needed of their arithmetic is said in
`Scalar.ZeroLaws`.
-/

set_option autoImplicit false

namespace OperatingPoint

open Step

/-- What a continuation relies on at the end of its way: what is added there is nothing. -/
structure Scalar.ZeroLaws (α : Type) [Scalar α] : Prop where
  beq_trans : ∀ {a b c : α}, (a == b) = true → (b == c) = true → (a == c) = true
  eq_one : ∀ {a : α}, (a == 1) = true → a = 1
  /-- A difference of equals is zero, unless they are infinite. -/
  cancel : ∀ a : α, isUndefined (a - a + 0) = true ∨ a - a + 0 = 0
  /-- A zero may have a sign, which is lost with nothing added to it. -/
  absorb : ∀ a b : α, isFinite (a + 0 * b) = true → isFinite a = true ∧ abs (a + 0 * b) = abs a
  one_mul : ∀ a : α, 1 * a = a
  one_sub_one : (1 : α) - 1 = 0
  not_one_lt_zero : ¬ (1 : α) < 0

variable {α : Type} [Scalar α] {n : Nat}

/-! ## Residuals with nothing added -/

/-- Where `g` is finite, it is as far from zero as `f`. -/
def Blurs (f g : Vector α n) : Prop :=
  ∀ i (h : i < n), Scalar.isFinite g[i] = true →
    Scalar.isFinite f[i] = true ∧ Scalar.abs g[i] = Scalar.abs f[i]

theorem Blurs.refl (f : Vector α n) : Blurs f f := fun _ _ finite ↦ ⟨finite, rfl⟩

theorem Blurs.trans {f g h : Vector α n} (fg : Blurs f g) (gh : Blurs g h) : Blurs f h := by
  intro i hi finite
  obtain ⟨finite', same'⟩ := gh i hi finite
  obtain ⟨finite'', same⟩ := fg i hi finite'
  exact ⟨finite'', same'.trans same⟩

namespace Communicator

variable (c : Communicator α)

/-- The greatest entry is found among the absolute values. -/
theorem localMax_eq (x : Array α) :
    localMax x = (x.map Scalar.abs).zipIdx.foldl
      (fun best entry ↦ if best.2 < entry.1 then (entry.2, entry.1) else best) (0, 0) := by
  rw [localMax, Array.zipIdx_map, Array.foldl_map]
  rfl

theorem normInf_congr {x y : Array α} (h : x.map Scalar.abs = y.map Scalar.abs) :
    c.normInf x = c.normInf y := by
  show c.max 0 (localMax x).2 = c.max 0 (localMax y).2
  rw [localMax_eq, localMax_eq, h]

/-- A rank that holds an entry which is not finite is heard of. -/
def Reports (c : Communicator α) : Prop := (c.max 0 1 == (0 : α)) = false

theorem all_of_allFinite {c : Communicator α} (reports : c.Reports) {x : Array α}
    (h : c.allFinite x = true) : x.all Scalar.isFinite = true := by
  unfold allFinite at h
  split at h
  · rename_i finite
    exact finite
  · rw [reports] at h
    cases h

/-- What is finite with nothing added is so without, and no greater. -/
theorem small_of_blurs {c : Communicator α} (reports : c.Reports) {f g : Vector α n}
    (blurs : Blurs f g) (finite : c.allFinite g.toArray = true) :
    c.allFinite f.toArray = true ∧ c.normInf f.toArray = c.normInf g.toArray := by
  have entries : ∀ i (h : i < n), Scalar.isFinite g[i] = true := by
    intro i h
    have all := all_of_allFinite reports finite
    rw [Array.all_eq_true] at all
    exact all i (by simpa using h)
  have all : f.toArray.all Scalar.isFinite = g.toArray.all Scalar.isFinite := by
    rw [all_of_allFinite reports finite, Array.all_eq_true]
    intro i h
    have h : i < n := by simpa using h
    exact (blurs i h (entries i h)).1
  refine ⟨?_, normInf_congr c (Array.ext (by simp) fun i h _ ↦ ?_)⟩
  · rw [allFinite, all]
    exact finite
  · have h : i < n := by simpa using h
    simp only [Array.getElem_map, Vector.getElem_toArray]
    exact (blurs i h (entries i h)).2.symm

end Communicator

/-! ## What is left over at the end -/

section

variable (laws : Scalar.ZeroLaws α)

include laws

/-- The conductance at the end of a sweep that leaves none. -/
theorem Gmin.conductanceAt_end {progress stop : α}
    (power : Scalar.exp10 progress = Scalar.exp10 stop) : conductanceAt progress stop 0 = 0 := by
  rw [conductanceAt, power, Scalar.max]
  split
  · rfl
  · rename_i defined
    rw [(laws.cancel (Scalar.exp10 stop)).resolve_left defined]
    split
    · rfl
    · split <;> rfl

/-- A conductance of zero adds nothing. -/
theorem Gmin.augmentResidual_blurs {g : Gmin α} (tie : ∀ i, g.tie i = 0) {x f f' : Vector α n}
    (run : g.augmentResidual x f = .ok f') : Blurs f f' := by
  unfold augmentResidual at run
  generalize g.partition.indices = indices at run
  induction indices generalizing f with
  | nil =>
    cases run
    exact .refl _
  | cons i rest ih =>
    rw [List.foldlM_cons] at run
    obtain ⟨f₁, written, run⟩ := bind_eq_ok.1 run
    refine .trans ?_ (ih run)
    obtain ⟨v, read, written⟩ := bind_eq_ok.1 written
    obtain ⟨y, _, written⟩ := bind_eq_ok.1 written
    unfold readAt at read
    split at read
    · rename_i inside
      cases read
      rw [writeAt, dif_pos inside, tie] at written
      cases written
      intro j hj finite
      rw [Vector.getElem_set] at finite ⊢
      split at finite
      · rename_i here
        subst here
        rw [if_pos rfl]
        exact laws.absorb _ _ finite
      · rename_i elsewhere
        rw [if_neg elsewhere]
        exact ⟨finite, rfl⟩
    · cases read

/-- A blend that is all device equations adds nothing. -/
theorem Blend.augmentResidual_blurs {b : Blend α} (one : b.lambda = 1) (x f : Vector α n) :
    Blurs f (b.augmentResidual x f) := by
  intro i hi finite
  unfold augmentResidual at finite ⊢
  rw [Vector.getElem_ofFn] at finite ⊢
  split at finite
  · rename_i inside
    rw [dif_pos inside]
    rw [one, laws.one_mul, laws.one_sub_one] at finite ⊢
    exact laws.absorb _ _ finite
  · rename_i outside
    rw [dif_neg outside]
    exact ⟨finite, rfl⟩

theorem Scalar.clamp_end {a : α} (there : (a == 1) = true) : clamp a 0 1 = 1 := by
  rw [laws.eq_one there, clamp, if_neg laws.not_one_lt_zero]
  split <;> rfl

end

end OperatingPoint
