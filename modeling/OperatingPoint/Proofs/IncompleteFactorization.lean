import OperatingPoint.Linear.Preconditioner
import OperatingPoint.Proofs.Endings
import OperatingPoint.Proofs.TriangularSolves

/-!
# What incomplete factors are factors of

Where arithmetic is that of a field, the product of incomplete factors agrees with the matrix wherever
the matrix has an entry, and neither factor has one elsewhere.  A factorization that stops does so
at the first row whose pivot vanishes, and leaves what was there before.

`Factored` says of a row that it is a row of incomplete factors.  Rows above it have a say in that,
rows below it have not, so that the rows are determined from the first one on as long as no pivot
vanishes: `Factored.unique`.

The elimination of a row is an induction on the rows that are still to be eliminated from it.  What
it makes of the row, together with the multiples that it leaves behind, is the row it began with,
on the pattern: `eliminateAll_vector`.
-/

set_option autoImplicit false

namespace OperatingPoint

open Matrix Step

variable {K α : Type} [Field K] [Scalar α] {n : Nat}

/-! ## Rows of incomplete factors -/

/-- Row `i` of `f` belongs to incomplete factors of `a`. -/
structure Factored (a f : Matrix (Fin n) (Fin n) K) (i : Fin n) : Prop where
  pattern : ∀ j, a i j = 0 → f i j = 0
  product : ∀ j, a i j ≠ 0 → (unitLower f * upper f) i j = a i j

/-- The rows before `i` belong to incomplete factors, and none of their pivots vanishes. -/
def FactoredBefore (a f : Matrix (Fin n) (Fin n) K) (i : Fin n) : Prop :=
  ∀ k < i, Factored a f k ∧ f k k ≠ 0

section

variable {a f f' : Matrix (Fin n) (Fin n) K} {i j : Fin n}

theorem mul_apply_factors (f : Matrix (Fin n) (Fin n) K) (i j : Fin n) :
    (unitLower f * upper f) i j = ∑ k with k < i, f i k * upper f k j + upper f i j := by
  rw [Matrix.mul_apply, sum_unitLower]

/-- Rows below do not matter. -/
theorem Factored.congr (h : Factored a f i) (same : ∀ k ≤ i, f k = f' k) : Factored a f' i := by
  have rows : ∀ k ≤ i, upper f k = upper f' k := fun k above ↦ by
    funext j
    rw [upper, upper, same k above]
  refine ⟨fun j none ↦ same i le_rfl ▸ h.pattern j none, fun j entry ↦ ?_⟩
  rw [← h.product j entry, mul_apply_factors, mul_apply_factors, rows i le_rfl, same i le_rfl]
  congr 1
  refine Finset.sum_congr rfl fun k before ↦ ?_
  rw [rows k (Finset.mem_filter.1 before).2.le]

/-- Below rows whose pivots do not vanish there is one row only. -/
theorem Factored.unique (h : Factored a f i) (h' : Factored a f' i) (same : ∀ k < i, f k = f' k)
    (pivots : ∀ k < i, f k k ≠ 0) : f i = f' i := by
  have rows : ∀ k < i, upper f k = upper f' k := fun k above ↦ by
    funext j
    rw [upper, upper, same k above]
  funext j
  induction j using WellFoundedLT.induction with
  | ind j ih =>
    by_cases entry : a i j = 0
    · rw [h.pattern j entry, h'.pattern j entry]
    · have product := (h.product j entry).trans (h'.product j entry).symm
      rw [mul_apply_factors, mul_apply_factors] at product
      have terms : ∑ k with k < i, f' i k * upper f' k j = ∑ k with k < i, f' i k * upper f k j :=
        Finset.sum_congr rfl fun k before ↦ by rw [rows k (Finset.mem_filter.1 before).2]
      rw [terms] at product
      rcases lt_or_ge j i with left | right
      · -- To the left of the diagonal the entry is a factor of the pivot above.
        rw [upper, upper, if_neg (not_le_of_gt left), if_neg (not_le_of_gt left), add_zero,
          add_zero, ← sub_eq_zero, ← Finset.sum_sub_distrib] at product
        rw [Finset.sum_eq_single_of_mem j (by simpa using left)] at product
        · rw [← sub_mul, mul_eq_zero, upper, if_pos le_rfl] at product
          exact sub_eq_zero.1 (product.resolve_right (pivots j left))
        · intro k before other
          rcases lt_or_gt_of_ne other with known | beyond
          · rw [ih k known, sub_self]
          · rw [upper, if_neg (not_le_of_gt beyond), mul_zero, mul_zero, sub_self]
      · have known : ∑ k with k < i, f i k * upper f k j = ∑ k with k < i, f' i k * upper f k j :=
          Finset.sum_congr rfl fun k before ↦ by
            rw [ih k (lt_of_lt_of_le (Finset.mem_filter.1 before).2 right)]
        rw [known, add_right_inj, upper, upper, if_pos right, if_pos right] at product
        exact product

theorem FactoredBefore.unique (h : FactoredBefore a f i) (h' : FactoredBefore a f' i) :
    ∀ k < i, f k = f' k := by
  intro k
  induction k using WellFoundedLT.induction with
  | ind k ih =>
    intro before
    exact (h k before).1.unique (h' k before).1 (fun l above ↦ ih l above (above.trans before))
      fun l above ↦ (h l (above.trans before)).2

end

/-! ## The elimination of a row -/

namespace Scalar.Arithmetic

variable (s : Scalar.Arithmetic K α)

/-- A row, which began as `a`, with a finished row eliminated. -/
theorem eliminate_vector (a above ρ : Fin n → K) (k : Fin n) (pivot : above k ≠ 0) :
    ∃ ρ' : Fin n → K, eliminate (s.vector a) (s.vector above) k (s.vector ρ) = .ok (s.vector ρ') ∧
      (∀ j, j < k → ρ' j = ρ j) ∧ (a k = 0 → ρ' = ρ) ∧ (∀ j, a j = 0 → ρ j = 0 → ρ' j = 0) ∧
      (a k ≠ 0 → ρ' k * above k = ρ k ∧
        ∀ j, k < j → a j ≠ 0 → ρ' k * above j + ρ' j = ρ j) := by
  classical
  unfold eliminate
  simp only [get_vector]
  by_cases entry : a k = 0
  · rw [if_pos (s.beq_zero_iff.2 entry)]
    exact ⟨ρ, rfl, fun _ _ ↦ rfl, fun _ ↦ rfl, fun _ _ none ↦ none, fun h ↦ absurd entry h⟩
  · rw [if_neg (s.beq_zero_iff.not.2 entry), if_neg (s.beq_zero_iff.not.2 pivot)]
    have factor : s.of (ρ k) / s.of (above k) = s.of (ρ k / above k) := (s.div _ pivot).symm
    refine ⟨fun j ↦ if j < k then ρ j else if j = k then ρ k / above k
        else if a j = 0 then ρ j else ρ j - ρ k / above k * above j,
      congrArg Except.ok (ext_get fun j ↦ ?_), fun j before ↦ if_pos before,
      fun h ↦ absurd h entry, fun j none zero ↦ ?_, fun _ ↦ ⟨?_, fun j after present ↦ ?_⟩⟩
    · simp only [get_ofFn, get_vector, s.beq_zero_iff, factor, ← s.mul, ← s.sub, apply_ite s.of]
    · have other : j ≠ k := fun same ↦ entry (same ▸ none)
      simp only [if_neg other, none, zero, if_true, ite_self]
    · simp only [lt_irrefl, if_false, if_true]
      exact div_mul_cancel₀ _ pivot
    · simp only [lt_irrefl, after.not_gt, ne_of_gt after, present, if_false, if_true]
      exact add_sub_cancel _ _

/-- The listed finished rows eliminated from a row in turn.  On the pattern, the multiples of the
finished rows and what is left of the row make up the row before. -/
theorem eliminateAll_vector {a : Fin n → K} {f : Matrix (Fin n) (Fin n) K} {l : List (Fin n)}
    (ordered : l.Pairwise (· < ·)) (pivots : ∀ k ∈ l, f k k ≠ 0) {ρ : Fin n → K}
    (pattern : ∀ j, a j = 0 → ρ j = 0) :
    ∃ ρ' : Fin n → K, l.foldlM (fun r k ↦ eliminate (s.vector a) ((s.matrix f).rows.get k) k r)
        (s.vector ρ) = .ok (s.vector ρ') ∧
      (∀ j, a j = 0 → ρ' j = 0) ∧
      ∀ j, a j ≠ 0 →
        (l.map fun k ↦ ρ' k * upper f k j).sum + (if j ∈ l then 0 else ρ' j) = ρ j := by
  induction l generalizing ρ with
  | nil => exact ⟨ρ, rfl, pattern, fun j _ ↦ by simp⟩
  | cons k rest ih =>
    rw [List.pairwise_cons] at ordered
    rw [List.forall_mem_cons] at pivots
    obtain ⟨ρ₁, run, before, skipped, pattern₁, eliminated⟩ :=
      s.eliminate_vector a (f k) ρ k pivots.1
    obtain ⟨ρ', runs, pattern', sums⟩ := ih ordered.2 pivots.2
      fun j none ↦ pattern₁ j none (pattern j none)
    have absent : ∀ j, j ≤ k → j ∉ rest := fun j low later ↦ (ordered.1 j later).not_ge low
    -- Rows further down have nothing in column `k`.
    have nothing : (rest.map fun l ↦ ρ' l * upper f l k).sum = 0 := by
      refine List.sum_eq_zero fun t mem ↦ ?_
      obtain ⟨l, later, rfl⟩ := List.mem_map.1 mem
      rw [upper, if_neg (not_le_of_gt (ordered.1 l later)), mul_zero]
    have multiple : ρ' k = ρ₁ k := by
      by_cases entry : a k = 0
      · rw [pattern' k entry, pattern₁ k entry (pattern k entry)]
      · have last := sums k entry
        rwa [nothing, if_neg (absent k le_rfl), zero_add] at last
    refine ⟨ρ', ?_, pattern', fun j entry ↦ ?_⟩
    · rw [List.foldlM_cons, rows_matrix, run]
      exact runs
    rw [List.map_cons, List.sum_cons, multiple, add_assoc]
    by_cases same : j = k
    · subst same
      rw [if_pos List.mem_cons_self, nothing, add_zero, add_zero, upper, if_pos le_rfl]
      exact (eliminated entry).1
    · simp only [List.mem_cons, same, false_or]
      rw [sums j entry]
      rcases lt_or_gt_of_ne same with left | right
      · rw [upper, if_neg (not_le_of_gt left), mul_zero, zero_add, before j left]
      · rw [upper, if_pos right.le]
        by_cases skip : a k = 0
        · rw [skipped skip, pattern k skip, zero_mul, zero_add]
        · exact (eliminated skip).2 j right entry

/-- A row with all the finished rows above it eliminated.  It is refused if its pivot vanishes. -/
theorem eliminateRow_matrix (a : Matrix (Fin n) (Fin n) K) {f : Matrix (Fin n) (Fin n) K}
    {i : Fin n} (pivots : ∀ k < i, f k k ≠ 0) :
    ∃ ρ : Fin n → K, Factored a (f.updateRow i ρ) i ∧
      (ρ i = 0 → eliminateRow (s.matrix a) (s.matrix f) i = .error (.fault (.zeroPivot i))) ∧
      (ρ i ≠ 0 → eliminateRow (s.matrix a) (s.matrix f) i = .ok (s.vector ρ)) := by
  obtain ⟨ρ, run, pattern, sums⟩ := s.eliminateAll_vector (a := a i) (f := f)
    (l := (List.finRange n).filter (· < i)) ((List.pairwise_lt_finRange n).filter _)
    (fun k mem ↦ pivots k (by simpa using mem)) fun j none ↦ none
  have tested : eliminateRow (s.matrix a) (s.matrix f) i =
      if s.of (ρ i) == 0 then .error (.fault (.zeroPivot i)) else .ok (s.vector ρ) := by
    rw [eliminateRow, rows_matrix, run, ← s.get_vector ρ i]
    rfl
  refine ⟨ρ, ⟨fun j none ↦ ?_, fun j entry ↦ ?_⟩, fun zero ↦ ?_, fun pivot ↦ ?_⟩
  · rw [updateRow_self, pattern j none]
  · have rows : ∀ k < i, upper (f.updateRow i ρ) k j = upper f k j := fun k above ↦ by
      rw [upper, upper, updateRow_ne (ne_of_lt above)]
    have summed := sums j entry
    rw [sum_filter_finRange (· < i)] at summed
    rw [mul_apply_factors, ← summed, updateRow_self]
    congr 1
    · refine Finset.sum_congr rfl fun k above ↦ ?_
      rw [rows k (Finset.mem_filter.1 above).2]
    · simp only [upper, updateRow_self, List.mem_filter, List.mem_finRange, true_and,
        decide_eq_true_eq]
      by_cases left : j < i
      · rw [if_neg (not_le_of_gt left), if_pos left]
      · rw [if_pos (not_lt.1 left), if_neg left]
  · rw [tested, if_pos (s.beq_zero_iff.2 zero)]
  · rw [tested, if_neg (s.beq_zero_iff.not.2 pivot)]

/-! ## The factors -/

/-- The listed rows are eliminated in turn, where all other rows come before them and are finished.
Either all rows are then finished, or the pivot of one of them vanishes below finished rows. -/
theorem eliminateRows_matrix (a : Matrix (Fin n) (Fin n) K) {l : List (Fin n)}
    (ordered : l.Pairwise (· < ·)) (last : ∀ k, k ∉ l → ∀ i ∈ l, k < i)
    {f : Matrix (Fin n) (Fin n) K} (finished : ∀ k, k ∉ l → Factored a f k ∧ f k k ≠ 0) :
    (∃ f', l.foldlM (fun done i ↦ do
          let r ← eliminateRow (s.matrix a) done i
          return ⟨done.rows.set i r i.isLt⟩) (s.matrix f) = .ok (s.matrix f') ∧
        ∀ k, Factored a f' k ∧ f' k k ≠ 0) ∨
      ∃ (i : Fin n) (f' : Matrix (Fin n) (Fin n) K), l.foldlM (fun done i ↦ do
          let r ← eliminateRow (s.matrix a) done i
          return ⟨done.rows.set i r i.isLt⟩) (s.matrix f) = .error (.fault (.zeroPivot i)) ∧
        FactoredBefore a f' i ∧ Factored a f' i ∧ f' i i = 0 := by
  induction l generalizing f with
  | nil => exact .inl ⟨f, rfl, fun k ↦ finished k List.not_mem_nil⟩
  | cons i rest ih =>
    rw [List.pairwise_cons] at ordered
    have above : ∀ k < i, k ∉ i :: rest := by
      intro k below mem
      rcases List.mem_cons.1 mem with rfl | later
      · exact lt_irrefl k below
      · exact (ordered.1 k later).not_gt below
    obtain ⟨ρ, factored, refused, run⟩ := s.eliminateRow_matrix a (f := f)
      fun k below ↦ (finished k (above k below)).2
    -- The rows above are still finished when row `i` is replaced.
    have kept : ∀ k, k ∉ i :: rest →
        Factored a (f.updateRow i ρ) k ∧ f.updateRow i ρ k k ≠ 0 := by
      intro k mem
      have below : k < i := last k mem i List.mem_cons_self
      refine ⟨(finished k mem).1.congr fun l up ↦ ?_, ?_⟩
      · exact (updateRow_ne (ne_of_lt (lt_of_le_of_lt up below))).symm
      · rw [updateRow_ne (ne_of_lt below)]
        exact (finished k mem).2
    rw [List.foldlM_cons]
    by_cases pivot : ρ i = 0
    · refine .inr ⟨i, f.updateRow i ρ, ?_, fun k below ↦ kept k (above k below), factored, ?_⟩
      · rw [refused pivot]
        rfl
      · rw [updateRow_self, pivot]
    · have step : (eliminateRow (s.matrix a) (s.matrix f) i >>= fun r ↦
          (pure ⟨(s.matrix f).rows.set i r i.isLt⟩ : Except Stop (Mat α n n))) =
          .ok (s.matrix (f.updateRow i ρ)) := by
        rw [run pivot]
        exact congrArg Except.ok (s.matrix_set f i ρ)
      rw [step]
      refine ih ordered.2 (fun k mem j later ↦ ?_) (f := f.updateRow i ρ) fun k mem ↦ ?_
      · by_cases same : k = i
        · exact same ▸ ordered.1 j later
        · exact last k (by simp [same, mem]) j (List.mem_cons_of_mem i later)
      · by_cases same : k = i
        · subst same
          refine ⟨factored, ?_⟩
          rw [updateRow_self]
          exact pivot
        · exact kept k (by simp [same, mem])

/-- Incomplete factors are there unless a pivot vanishes below finished rows. -/
theorem incompleteFactors_matrix (a : Matrix (Fin n) (Fin n) K) :
    (∃ f, incompleteFactors (s.matrix a) = .ok (s.matrix f) ∧
        ∀ k, Factored a f k ∧ f k k ≠ 0) ∨
      ∃ (i : Fin n) (f : Matrix (Fin n) (Fin n) K),
        incompleteFactors (s.matrix a) = .error (.fault (.zeroPivot i)) ∧
        FactoredBefore a f i ∧ Factored a f i ∧ f i i = 0 :=
  s.eliminateRows_matrix a (List.pairwise_lt_finRange n)
    (fun k absent ↦ absurd (List.mem_finRange k) absent)
    fun k absent ↦ absurd (List.mem_finRange k) absent

end Scalar.Arithmetic

/-! ## What solves -/

section

variable {a f : Matrix (Fin n) (Fin n) K}

/-- Where a row of incomplete factors has no pivot that vanishes, the matrix has a diagonal entry, so
that the ones on the diagonal of the lower triangle are on the pattern as well. -/
theorem Factored.off_pattern {i j : Fin n} (h : Factored a f i) (pivot : f i i ≠ 0)
    (none : a i j = 0) : unitLower f i j = 0 ∧ upper f i j = 0 := by
  have zero := h.pattern j none
  have other : i ≠ j := fun same ↦ pivot (by rw [← same] at zero; exact zero)
  constructor
  · rw [unitLower, zero, if_neg other, ite_self]
  · rw [upper, zero, ite_self]

/-- No entry arises in the elimination where the matrix has none. -/
def NoFill (a f : Matrix (Fin n) (Fin n) K) : Prop :=
  ∀ i k j, k < i → k < j → a i j = 0 → f i k * f k j = 0

/-- Without fill the factors are complete. -/
theorem NoFill.mul_eq (fill : NoFill a f) (rows : ∀ i, Factored a f i) :
    unitLower f * upper f = a := by
  ext i j
  by_cases entry : a i j = 0
  · have zero : f i j = 0 := (rows i).pattern j entry
    rw [mul_apply_factors, entry, upper, zero, ite_self, add_zero]
    refine Finset.sum_eq_zero fun k before ↦ ?_
    rw [upper]
    rcases lt_trichotomy k j with left | rfl | right
    · rw [if_pos left.le, fill i k j (Finset.mem_filter.1 before).2 left entry]
    · rw [zero, zero_mul]
    · rw [if_neg (not_le_of_gt right), mul_zero]
  · exact (rows i).product j entry

namespace Scalar.Arithmetic

variable (s : Scalar.Arithmetic K α)

/-- Factors without a pivot that vanishes are applied by solving with both triangles. -/
theorem apply_incomplete (pivots : ∀ i, f i i ≠ 0) (x : Fin n → K) :
    ∃ y, (Preconditioner.incomplete (s.matrix f)).apply (s.vector x) = .ok (s.vector y) ∧
      ∀ y', unitLower f *ᵥ (upper f *ᵥ y') = x ↔ y' = y := by
  obtain ⟨z, forward, lower⟩ := s.solveUnitLower_vector f x
  obtain ⟨y, backward, above⟩ := s.solveUpper_vector f z pivots
  have applied : (Preconditioner.incomplete (s.matrix f)).apply (s.vector x) =
      .ok (solveUpper (s.matrix f) (solveUnitLower (s.matrix f) (s.vector x))) := dif_pos rfl
  refine ⟨y, by rw [applied, forward, backward], fun y' ↦ ⟨fun solves ↦ ?_, ?_⟩⟩
  · rw [← lower, ← above] at solves
    exact mulVec_injective_of_isUnit (isUnit_upper pivots)
      (mulVec_injective_of_isUnit (isUnit_unitLower f) solves)
  · rintro rfl
    rw [above, lower]

end Scalar.Arithmetic

end

/-! ## Divisors -/

/-- The scalars with another quotient. -/
@[reducible]
def Scalar.withQuotient (quotient : α → α → α) : Scalar α := { ‹Scalar α› with div := quotient }

section

variable {quotient : α → α → α} (agrees : ∀ p q, (q == 0) = false → quotient p q = p / q)

include agrees

theorem eliminate_withQuotient : @eliminate α (.withQuotient quotient) n = eliminate := by
  funext a above k r
  refine if_congr Iff.rfl rfl ?_
  by_cases pivot : (above.get k == 0) = true
  · exact (if_pos pivot).trans (if_pos pivot).symm
  · refine (if_neg pivot).trans (Eq.trans ?_ (if_neg pivot).symm)
    exact congrArg (fun factor ↦ Except.ok (Vector.ofFn fun j ↦
        if j < k then r.get j
        else if j = k then factor
        else if a.get j == 0 then r.get j
        else r.get j - factor * above.get j))
      (agrees (r.get k) (above.get k) (Bool.eq_false_iff.2 pivot))

theorem eliminateRow_withQuotient : @eliminateRow α (.withQuotient quotient) n = eliminateRow := by
  funext A done i
  unfold eliminateRow
  rw [eliminate_withQuotient agrees]

/-- Incomplete factors do not depend on what a quotient by zero is. -/
theorem incompleteFactors_withQuotient :
    @incompleteFactors α (.withQuotient quotient) n = incompleteFactors := by
  funext A
  unfold incompleteFactors
  rw [eliminateRow_withQuotient agrees]

end

/-! ## Setups in place -/

namespace Preconditioner

/-- Sets a preconditioner up where it stands.  A setup that stops leaves what was there. -/
def renew (A : Table α) : Step (Preconditioner α) Unit := do
  set (← Step.lift ((← get).setup A))

/-- Nothing that a setup does depends on what a quotient by zero is. -/
theorem renew_withQuotient {quotient : α → α → α}
    (agrees : ∀ p q, (q == 0) = false → quotient p q = p / q) :
    @renew α (.withQuotient quotient) = renew := by
  have inverse : ∀ d : α, (if d == 0 then 1 else quotient 1 d) = if d == 0 then 1 else 1 / d := by
    intro d
    by_cases zero : (d == 0) = true
    · rw [if_pos zero, if_pos zero]
    · rw [if_neg zero, if_neg zero, agrees 1 d (Bool.eq_false_iff.2 zero)]
  have same : @setup α (.withQuotient quotient) = setup := by
    funext A p
    cases p with
    | diagonal _ =>
      exact congrArg (fun invert : α → α ↦
        Except.ok (diagonal (A.entries.diagonal.map invert).toArray)) (funext inverse)
    | incomplete _ =>
      unfold setup
      rw [incompleteFactors_withQuotient agrees]
  unfold renew
  rw [same]

theorem setup_incomplete {m : Nat} (A : Mat α n n) (old : Mat α m m) :
    (incomplete old).setup (Table.ofSquare A) = (incompleteFactors A).map incomplete := by
  have square : (Table.ofSquare A).rows ≤ (Table.ofSquare A).columns := Nat.le_refl n
  have same : (Mat.ofFn fun i j ↦ A i j : Mat α n n) = A := Mat.ext fun i j ↦ Mat.ofFn_apply ..
  rw [setup, dif_pos square]
  exact congrArg (fun B ↦ (incompleteFactors B).map incomplete) same

theorem ends_renew {m : Nat} (A : Mat α n n) (old : Mat α m m)
    {done : Unit → Preconditioner α → Prop} {stopped : Stop → Preconditioner α → Prop} :
    Ends (renew (Table.ofSquare A)) (incomplete old) done stopped ↔
      Ends (Step.lift (incompleteFactors A)) (incomplete old)
        (fun F _ ↦ done () (incomplete F)) stopped := by
  simp only [renew, ends_bind, ends_get, ends_set, setup_incomplete]
  cases incompleteFactors A <;> simp [Except.map]

/-- **Incomplete factors are exact on the pattern.**  Setting incomplete factors up in exact
arithmetic leaves a lower and an upper triangle without entries off the pattern of the matrix, whose
product has the entries of the matrix on it.  They solve every system with that product, which is the
matrix itself if there is no fill.

A setup stops at the first row whose pivot vanishes, and leaves the factors that were there.  The rows
before it are determined, and so is its pivot.  No setup depends on a quotient by zero. -/
theorem renew_incomplete (s : Scalar.Arithmetic K α) {m : Nat} (a : Matrix (Fin n) (Fin n) K)
    (old : Mat α m m) :
    Ends (renew (Table.ofSquare (s.matrix a))) (incomplete old)
      (fun _ p ↦ ∃ f : Matrix (Fin n) (Fin n) K, p = incomplete (s.matrix f) ∧
        (∀ i j, a i j = 0 → unitLower f i j = 0 ∧ upper f i j = 0) ∧
        (∀ i j, a i j ≠ 0 → (unitLower f * upper f) i j = a i j) ∧
        (∀ i, upper f i i ≠ 0) ∧
        ∀ x, ∃ y, p.apply (s.vector x) = .ok (s.vector y) ∧
          (∀ y', unitLower f *ᵥ (upper f *ᵥ y') = x ↔ y' = y) ∧ (NoFill a f → a *ᵥ y = x))
      (fun e p ↦ p = incomplete old ∧ ∃ i : Fin n, e = .fault (.zeroPivot i) ∧
        (∃ f, FactoredBefore a f i) ∧
        ∀ f, FactoredBefore a f i → Factored a f i → f i i = 0) ∧
    ∀ quotient : α → α → α, (∀ p q, (q == 0) = false → quotient p q = p / q) →
      @renew α (.withQuotient quotient) (Table.ofSquare (s.matrix a)) (incomplete old) =
        renew (Table.ofSquare (s.matrix a)) (incomplete old) := by
  constructor
  · rw [ends_renew]
    obtain ⟨f, run, finished⟩ | ⟨i, f, run, before, row, vanishes⟩ := s.incompleteFactors_matrix a
    · rw [run, ends_lift_ok]
      have diagonal : ∀ i, upper f i i = f i i := fun i ↦ if_pos le_rfl
      refine ⟨f, rfl, fun i j ↦ (finished i).1.off_pattern (finished i).2,
        fun i ↦ (finished i).1.product, fun i ↦ (diagonal i).symm ▸ (finished i).2, fun x ↦ ?_⟩
      obtain ⟨y, applied, unique⟩ := s.apply_incomplete (fun i ↦ (finished i).2) x
      refine ⟨y, applied, unique, fun fill ↦ ?_⟩
      rw [← fill.mul_eq fun i ↦ (finished i).1, ← mulVec_mulVec]
      exact (unique y).2 rfl
    · rw [run, ends_lift_error]
      refine ⟨rfl, i, rfl, ⟨f, before⟩, fun f' before' row' ↦ ?_⟩
      have same := row.unique row' (before.unique before') fun k above ↦ (before k above).2
      rw [← same, vanishes]
  · intro quotient agrees
    rw [renew_withQuotient agrees]

/-- Incomplete factors of a path of two unknowns, over the rational numbers: they are set up, without
fill, and solve with the matrix. -/
theorem renew_incomplete_path :
    Ends (renew (Table.ofSquare (ExtendedRat.line.arithmetic.matrix !![2, -1; -1, 2])))
      (incomplete (Mat.zero ExtendedRat 0 0))
      (fun _ p ↦ ∀ x : Fin 2 → ℚ, ∃ y, p.apply (ExtendedRat.line.arithmetic.vector x) =
        .ok (ExtendedRat.line.arithmetic.vector y) ∧ !![2, -1; -1, 2] *ᵥ y = x)
      (fun _ _ ↦ False) := by
  have full : ∀ i j : Fin 2, !![(2 : ℚ), -1; -1, 2] i j ≠ 0 := by
    intro i j
    fin_cases i <;> fin_cases j <;> norm_num
  have finishes : Ends (renew (Table.ofSquare
      (ExtendedRat.line.arithmetic.matrix !![2, -1; -1, 2])))
      (incomplete (Mat.zero ExtendedRat 0 0)) (fun _ _ ↦ True) (fun _ _ ↦ False) := by
    decide +kernel
  refine ((renew_incomplete ExtendedRat.line.arithmetic !![2, -1; -1, 2]
    (Mat.zero ExtendedRat 0 0)).1.and finishes).mono ?_ fun _ _ h ↦ h.2
  rintro _ p ⟨⟨f, -, -, -, -, solves⟩, -⟩ x
  obtain ⟨y, applied, -, complete⟩ := solves x
  exact ⟨y, applied, complete fun i k j _ _ none ↦ absurd none (full i j)⟩

end Preconditioner

end OperatingPoint
