import Mathlib.Data.List.Induction
import OperatingPoint.Proofs.Collectives
import OperatingPoint.Proofs.ScalarLine

/-!
# Norms of vectors that are spread over ranks

In exact arithmetic the norms of a vector do not depend on how it is spread over the ranks of a job:
`Norm.Splits` holds of all of them.  A slice may be empty, and entries need not be finite.

The sums are sums of sums.  The largest entry of two slices is that of the second if it is greater,
and else that of the first (`localMax_append`), so that of some slices it is found in the first that
attains the maximum; and this is the one whose offer is the greatest, since its index is the lowest.
-/

set_option autoImplicit false

namespace OperatingPoint

open Collective Communicator

/-- What the reductions rely on.  Scalars that are not undefined are ordered in a row. -/
structure Scalar.ReductionLaws (α : Type) [Scalar α] : Prop where
  add_assoc : ∀ a b c : α, a + b + c = a + (b + c)
  zero_add : ∀ a : α, 0 + a = a
  add_zero : ∀ a : α, a + 0 = a
  natCast_zero : ((0 : Nat) : α) = 0
  natCast_add : ∀ k l : Nat, ((k + l : Nat) : α) = k + l
  floor_natCast : ∀ k : Nat, floor (k : α) = k
  defined_of_lt : ∀ {a b : α}, a < b → isUndefined a = false ∧ isUndefined b = false
  lt_trans : ∀ {a b c : α}, a < b → b < c → a < c
  lt_irrefl : ∀ a : α, ¬ a < a
  lt_or_lt : ∀ {a b c : α}, isUndefined b = false → a < c → a < b ∨ b < c
  beq_iff : ∀ {a b : α}, isUndefined a = false → isUndefined b = false →
    ((a == b) = true ↔ ¬ a < b ∧ ¬ b < a)
  zero_lt_one : (0 : α) < 1
  abs_nonneg : ∀ a : α, ¬ abs a < 0
  abs_defined : ∀ {a : α}, isUndefined a = false → isUndefined (abs a) = false
  neg_natCast_lt : ∀ {k l : Nat}, -(k : α) < -(l : α) ↔ l < k
  neg_infinity_lt : ∀ k : Nat, -infinity < -(k : α)
  finite_neg_natCast : ∀ k : Nat, isFinite (-(k : α)) = true
  not_finite_neg_infinity : isFinite (-infinity : α) = false
  neg_neg_natCast : ∀ k : Nat, - -(k : α) = k

variable {α β : Type} [Scalar α]

section

variable (laws : Scalar.ReductionLaws α)

include laws

namespace Scalar.ReductionLaws

theorem zero_defined : isUndefined (0 : α) = false := (laws.defined_of_lt laws.zero_lt_one).1

theorem offer_defined (index : Option Nat) : isUndefined (Norm.offer index : α) = false := by
  cases index with
  | none => exact (laws.defined_of_lt (laws.neg_infinity_lt 0)).1
  | some index => exact (laws.defined_of_lt (laws.neg_infinity_lt index)).2

omit laws in
theorem max_eq {a b : α} (ha : isUndefined a = false) (hb : isUndefined b = false) :
    Scalar.max a b = if a < b then b else a := by
  rw [Scalar.max, ha, hb, if_neg Bool.false_ne_true, if_neg Bool.false_ne_true]

end Scalar.ReductionLaws

/-! ## Sums -/

theorem Collective.total_cons (a : α) (as : List α) : total (a :: as) = a + total as := by
  have from_sum (as : List α) (b : α) : as.foldl (· + ·) b = b + total as := by
    induction as generalizing b with
    | nil => exact (laws.add_zero b).symm
    | cons a as ih =>
      rw [total, List.foldl_cons, List.foldl_cons, ih, ih, laws.zero_add, laws.add_assoc]
  rw [total, List.foldl_cons, from_sum, laws.zero_add]

theorem Communicator.localSum_append (x y : Array α) :
    localSum (x ++ y) = localSum x + localSum y := by
  have sum_eq (x : Array α) : localSum x = total x.toList := (Array.foldl_toList _).symm
  rw [sum_eq, sum_eq, sum_eq, Array.toList_append]
  induction x.toList with
  | nil => exact (laws.zero_add _).symm
  | cons a as ih =>
    rw [List.cons_append, total_cons laws, total_cons laws, ih, laws.add_assoc]

/-- Sums over slices of what is computed entry by entry. -/
theorem Slice.total_localSum {f : Slice α → Array α} (empty : f (join []) = #[])
    (append : ∀ s t, f (s.append t) = f s ++ f t) (parts : List (Slice α)) :
    total (parts.map fun s ↦ localSum (f s)) = localSum (f (join parts)) := by
  induction parts with
  | nil => rw [empty]; rfl
  | cons s parts ih =>
    rw [List.map_cons, total_cons laws, ih, join, append, localSum_append laws]

theorem Slice.total_size (parts : List (Slice α)) :
    total (parts.map fun s ↦ (s.d.size : α)) = ((join parts).d.size : α) := by
  induction parts with
  | nil => exact laws.natCast_zero.symm
  | cons s parts ih =>
    rw [List.map_cons, total_cons laws, ih, ← laws.natCast_add, join, Slice.append,
      Array.size_append]

namespace Norm

theorem globalLength_splits : (globalLength : Norm α Nat).Splits := by
  intro parts
  rw [globalLength]
  dsimp only
  rw [job_sum, job_done, Slice.total_size laws]
  rfl

theorem dot_splits : (dot : Norm α (Except Stop α)).Splits := by
  intro parts
  have whole := Slice.total_localSum laws
    (f := fun s : Slice α ↦ Array.zipWith (· * ·) s.d s.x) (by simp [Slice.join])
    (fun s t ↦ Array.zipWith_append s.size_x) parts
  rw [dot]
  dsimp only
  rw [job_sum, job_done, whole, Communicator.dot, if_pos (Slice.join parts).size_x]
  rfl

theorem norm2_splits : (norm2 : Norm α α).Splits := by
  intro parts
  have whole := Slice.total_localSum laws
    (f := fun s : Slice α ↦ s.d.map fun v ↦ v * v) Array.map_empty
    (fun _ _ ↦ Array.map_append ..) parts
  rw [norm2]
  dsimp only
  rw [job_sum, job_done, whole]
  rfl

theorem weighted_splits (absTol relTol : α) : (weighted absTol relTol).Splits := by
  intro parts
  have whole := Slice.total_localSum laws
    (f := fun s : Slice α ↦ (ratios absTol relTol s).map fun r ↦ r * r)
    (by simp [ratios, Slice.join])
    (fun s t ↦ by
      rw [← Array.map_append, ratios, ratios, ratios, Slice.append,
        Array.zipWith_append (s.size_x.symm.trans s.size_ref), Array.zipWith_append]
      rw [Array.size_zipWith, ← s.size_x, ← s.size_ref, Nat.min_self]) parts
  have fits := And.intro (Slice.join parts).size_x (Slice.join parts).size_ref
  rw [weighted]
  dsimp only
  rw [job_sum, Slice.total_size laws, Communicator.weighted, if_pos fits]
  dsimp only
  rw [Communicator.globalLength, serial]
  dsimp only
  rw [laws.floor_natCast]
  split
  · exact job_done _ _
  · rw [job_sum, job_done, whole]
    rfl

end Norm

/-! ## The largest entry of a slice -/

namespace Communicator

omit laws in
theorem localMax_push (x : Array α) (v : α) :
    localMax (x.push v) =
      if (localMax x).2 < Scalar.abs v then (x.size, Scalar.abs v) else localMax x := by
  rw [localMax, Array.push_eq_append, Array.zipIdx_append, Array.foldl_append, Nat.zero_add]
  rfl

omit [Scalar α] laws in
/-- Arrays entry by entry, from the first. -/
theorem push_induction {motive : Array α → Prop} (empty : motive #[])
    (push : ∀ x v, motive x → motive (x.push v)) (x : Array α) : motive x := by
  obtain ⟨entries⟩ := x
  induction entries using List.reverseRecOn with
  | nil => exact empty
  | append_singleton entries v ih =>
    have pushed := push _ v ih
    rwa [List.push_toArray] at pushed

theorem localMax_defined (x : Array α) : Scalar.isUndefined (localMax x).2 = false := by
  induction x using push_induction with
  | empty => exact laws.zero_defined
  | push x v ih =>
    rw [localMax_push]
    split
    · rename_i larger
      exact (laws.defined_of_lt larger).2
    · exact ih

theorem localMax_nonneg (x : Array α) : ¬ (localMax x).2 < 0 := by
  induction x using push_induction with
  | empty => exact laws.lt_irrefl 0
  | push x v ih =>
    rw [localMax_push]
    split
    · exact laws.abs_nonneg v
    · exact ih

omit laws in
theorem localMax_lt_size (x : Array α) (some : x.isEmpty = false) : (localMax x).1 < x.size := by
  induction x using push_induction with
  | empty => cases some
  | push x v ih =>
    rw [localMax_push, Array.size_push]
    split
    · exact Nat.lt_succ_self _
    · cases none : x.isEmpty with
      | false => exact Nat.lt_succ_of_lt (ih none)
      | true =>
        rw [Array.isEmpty_iff.1 none]
        exact Nat.zero_lt_one

/-- The largest entry of two slices is that of the second only if it is greater. -/
theorem localMax_append (x y : Array α) :
    localMax (x ++ y) = if (localMax x).2 < (localMax y).2
      then (x.size + (localMax y).1, (localMax y).2) else localMax x := by
  induction y using push_induction with
  | empty =>
    rw [Array.append_empty]
    split
    · rename_i negative
      exact absurd negative (localMax_nonneg laws x)
    · rfl
  | push y v ih =>
    have defined := localMax_defined laws y
    rw [Array.append_push, localMax_push, localMax_push, ih, Array.size_append]
    by_cases second : (localMax x).2 < (localMax y).2
    · rw [if_pos second]
      by_cases larger : (localMax y).2 < Scalar.abs v
      · rw [if_pos larger, if_pos larger, if_pos (laws.lt_trans second larger)]
      · rw [if_neg larger, if_neg larger, if_pos second]
    · rw [if_neg second]
      by_cases larger : (localMax x).2 < Scalar.abs v
      · have later := (laws.lt_or_lt defined larger).resolve_left second
        rw [if_pos larger, if_pos later, if_pos larger]
      · rw [if_neg larger]
        by_cases later : (localMax y).2 < Scalar.abs v
        · rw [if_pos later, if_neg larger]
        · rw [if_neg later, if_neg second]

end Communicator

/-! ## The largest entry of all -/

namespace Slice

omit [Scalar α] laws in
theorem append_assoc (s t u : Slice α) : (s.append t).append u = s.append (t.append u) := by
  simp only [append, Array.append_assoc]

omit [Scalar α] laws in
theorem append_nil (s : Slice α) : s.append (join []) = s := by
  simp only [append, join, Array.append_empty]

omit laws in
/-- The maximum over the ranks is that of the whole. -/
theorem greatest_eq {f : Slice α → α} (append : ∀ s t, Scalar.max (f s) (f t) = f (s.append t))
    (s : Slice α) (parts : List (Slice α)) :
    greatest ((s :: parts).map f) = f (join (s :: parts)) := by
  rw [List.map_cons, greatest, join]
  induction parts generalizing s with
  | nil => rw [append_nil]; rfl
  | cons t parts ih => rw [List.map_cons, List.foldl_cons, append, ih, join, append_assoc]

theorem greatest_localMax (s : Slice α) (parts : List (Slice α)) :
    greatest ((s :: parts).map fun s ↦ (localMax s.d).2) = (localMax (join (s :: parts)).d).2 :=
  greatest_eq (fun s t ↦ by
    rw [Scalar.ReductionLaws.max_eq (localMax_defined laws s.d) (localMax_defined laws t.d),
      Slice.append, localMax_append laws, apply_ite Prod.snd]) s parts

/-- A rank that holds an entry which is not finite has the whole reported. -/
theorem greatest_flag (s : Slice α) (parts : List (Slice α)) :
    greatest ((s :: parts).map fun s ↦ if s.d.all Scalar.isFinite then (0 : α) else 1) =
      if (join (s :: parts)).d.all Scalar.isFinite then 0 else 1 := by
  obtain ⟨zero_defined, one_defined⟩ := laws.defined_of_lt laws.zero_lt_one
  have not_one_lt : ¬ (1 : α) < 0 := fun below ↦
    laws.lt_irrefl _ (laws.lt_trans laws.zero_lt_one below)
  refine greatest_eq (f := fun s ↦ if s.d.all Scalar.isFinite then (0 : α) else 1)
    (fun s t ↦ ?_) s parts
  rw [Slice.append]
  dsimp only
  rw [Array.all_append]
  cases s.d.all Scalar.isFinite <;> cases t.d.all Scalar.isFinite
  · exact (Scalar.ReductionLaws.max_eq one_defined one_defined).trans (ite_self _)
  · exact (Scalar.ReductionLaws.max_eq one_defined zero_defined).trans (if_neg not_one_lt)
  · exact (Scalar.ReductionLaws.max_eq zero_defined one_defined).trans (if_pos laws.zero_lt_one)
  · exact (Scalar.ReductionLaws.max_eq zero_defined zero_defined).trans (ite_self _)

end Slice

namespace Norm

/-- The lower of two indices, where there are any. -/
def lower : Option Nat → Option Nat → Option Nat
  | some i, some j => some (min i j)
  | some i, none => some i
  | none, index => index

omit laws in
theorem lower_none (index : Option Nat) : lower index none = index := by
  cases index <;> rfl

omit laws in
theorem lower_assoc (i j k : Option Nat) : lower (lower i j) k = lower i (lower j k) := by
  cases i with
  | none => rfl
  | some i =>
    cases j with
    | none => rfl
    | some j =>
      cases k with
      | none => rfl
      | some k => exact congrArg some (Nat.min_assoc i j k)

/-- The greater offer is that of the lower index. -/
theorem max_offer (i j : Option Nat) : Scalar.max (offer i) (offer j) = (offer (lower i j) : α) := by
  rw [Scalar.ReductionLaws.max_eq (laws.offer_defined i) (laws.offer_defined j)]
  cases i with
  | none =>
    cases j with
    | none => exact ite_self _
    | some j => exact if_pos (laws.neg_infinity_lt j)
  | some i =>
    cases j with
    | none =>
      exact if_neg fun below ↦ laws.lt_irrefl _ (laws.lt_trans below (laws.neg_infinity_lt i))
    | some j =>
      show (if -(i : α) < -(j : α) then -(j : α) else -(i : α)) = -((min i j : Nat) : α)
      by_cases second : j < i
      · rw [if_pos (laws.neg_natCast_lt.2 second), Nat.min_eq_right (Nat.le_of_lt second)]
      · rw [if_neg (laws.neg_natCast_lt.not.2 second), Nat.min_eq_left (Nat.not_lt.1 second)]

variable {g : α}

omit laws in
theorem candidate_of_isEmpty {s : Slice α} (empty : s.d.isEmpty = true) (offset : Nat) :
    candidate g s offset = none := by
  rw [candidate, empty]
  rfl

omit laws in
theorem candidate_of_nonempty {s : Slice α} (some : s.d.isEmpty = false) (offset : Nat) :
    candidate g s offset =
      if (localMax s.d).2 == g then .some (offset + (localMax s.d).1) else none := by
  rw [candidate, some]
  rfl

/-- A value that is not the maximum is below another one. -/
theorem beq_eq_false {a : α} (defined : Scalar.isUndefined a = false)
    (defined' : Scalar.isUndefined g = false) (below : a < g) : (a == g) = false :=
  Bool.eq_false_iff.2 fun same ↦ ((laws.beq_iff defined defined').1 same).1 below

/-- Of two slices the first offers an index if it attains the maximum, and else the second. -/
theorem candidate_append {s t : Slice α} (defined : Scalar.isUndefined g = false)
    (hs : ¬ g < (localMax s.d).2) (ht : ¬ g < (localMax t.d).2) (offset : Nat) :
    candidate g (s.append t) offset =
      lower (candidate g s offset) (candidate g t (offset + s.d.size)) := by
  have whole : (s.append t).d = s.d ++ t.d := rfl
  have defined_s := localMax_defined laws s.d
  have defined_t := localMax_defined laws t.d
  cases none_s : s.d.isEmpty with
  | true =>
    have empty := Array.isEmpty_iff.1 none_s
    rw [candidate_of_isEmpty none_s, candidate, candidate, whole, empty, Array.empty_append]
    rfl
  | false =>
    have some_st : (s.append t).d.isEmpty = false := by
      rw [whole, Array.isEmpty_eq_false_iff]
      exact fun none ↦
        Array.isEmpty_eq_false_iff.1 none_s (Array.append_eq_empty_iff.1 none).1
    cases none_t : t.d.isEmpty with
    | true =>
      rw [candidate_of_isEmpty none_t, lower_none, candidate, candidate, whole,
        Array.isEmpty_iff.1 none_t, Array.append_empty]
    | false =>
      rw [candidate_of_nonempty none_s, candidate_of_nonempty none_t,
        candidate_of_nonempty some_st, whole, localMax_append laws]
      by_cases second : (localMax s.d).2 < (localMax t.d).2
      · have below := (laws.lt_or_lt defined second).resolve_right ht
        rw [if_pos second, beq_eq_false laws defined_s defined below,
          if_neg Bool.false_ne_true, Nat.add_assoc]
        rfl
      · rw [if_neg second]
        cases same : (localMax s.d).2 == g with
        | true =>
          have inside := localMax_lt_size s.d none_s
          rw [if_pos rfl]
          split
          · rw [lower, Nat.min_eq_left (by omega)]
          · rfl
        | false =>
          have below : (localMax s.d).2 < g := by
            by_contra reaches
            rw [(laws.beq_iff defined_s defined).2 ⟨reaches, hs⟩] at same
            cases same
          have below := (laws.lt_or_lt defined_t below).resolve_left second
          rw [beq_eq_false laws defined_t defined below]
          rfl

/-- The lowest index that some slices offer is the index of the whole. -/
theorem foldl_candidate (defined : Scalar.isUndefined g = false) (parts : List (Slice α))
    (bound : ¬ g < (localMax (Slice.join parts).d).2) (offset : Nat) (found : Option Nat) :
    ((parts.zip (offsetsFrom offset (parts.map fun s ↦ s.d.size))).map
      fun r ↦ candidate g r.1 r.2).foldl lower found =
        lower found (candidate g (Slice.join parts) offset) := by
  induction parts generalizing offset found with
  | nil => exact (lower_none found).symm
  | cons s parts ih =>
    have split : ¬ g < (localMax s.d).2 ∧ ¬ g < (localMax (Slice.join parts).d).2 := by
      have defined_s := localMax_defined laws s.d
      rw [Slice.join, Slice.append] at bound
      dsimp only at bound
      rw [localMax_append laws] at bound
      by_cases second : (localMax s.d).2 < (localMax (Slice.join parts).d).2
      · rw [if_pos second] at bound
        exact ⟨fun above ↦ bound (laws.lt_trans above second), bound⟩
      · rw [if_neg second] at bound
        exact ⟨bound, fun above ↦ (laws.lt_or_lt defined_s above).elim bound second⟩
    rw [List.map_cons, offsetsFrom, List.zip_cons_cons, List.map_cons, List.foldl_cons,
      ih split.2, lower_assoc, Slice.join, candidate_append laws defined split.1 split.2]

/-- The greatest offer is that of the whole. -/
theorem greatest_offer (s : Slice α) (parts : List (Slice α)) :
    let whole := Slice.join (s :: parts)
    greatest (((s :: parts).zip (offsetsFrom 0 ((s :: parts).map fun s ↦ s.d.size))).map
        fun r ↦ (offer (candidate (localMax whole.d).2 r.1 r.2) : α)) =
      offer (candidate (localMax whole.d).2 whole 0) := by
  intro whole
  have defined := localMax_defined laws whole.d
  have offers (found : Option Nat) (later : List (Option Nat)) :
      (later.map offer).foldl Scalar.max (offer found : α) = offer (later.foldl lower found) := by
    induction later generalizing found with
    | nil => rfl
    | cons index later ih => rw [List.map_cons, List.foldl_cons, max_offer laws, ih]; rfl
  have least := foldl_candidate laws defined (s :: parts) (laws.lt_irrefl _) 0 none
  rw [List.map_cons, offsetsFrom, List.zip_cons_cons, List.map_cons, List.foldl_cons] at least
  rw [List.map_cons, offsetsFrom, List.zip_cons_cons, List.map_cons, greatest]
  have later := offers (candidate (localMax whole.d).2 s 0)
    ((parts.zip (offsetsFrom (0 + s.d.size) (parts.map fun s ↦ s.d.size))).map
      fun r ↦ candidate (localMax whole.d).2 r.1 r.2)
  rw [List.map_map] at later
  exact later.trans (congrArg offer least)

theorem largest_splits (result : α → Nat → β) (parts : List (Slice α)) :
    job (parts.map (largest result)) =
      some (parts.map fun _ ↦ (largest result (Slice.join parts)).run .serial 0) := by
  cases parts with
  | nil => rfl
  | cons s parts =>
    have same := greatest_offer laws s parts
    dsimp only at same
    show job ((s :: parts).map fun s ↦ largest result s) = _
    simp only [largest]
    rw [job_max, Slice.greatest_localMax laws, job_scan, job_max, same, job_done,
      List.map_const', List.map_const', List.length_zip, length_offsetsFrom, List.length_map,
      Nat.min_self]
    rfl

theorem allFinite_splits : (allFinite : Norm α Bool).Splits := by
  intro parts
  cases parts with
  | nil => rfl
  | cons s parts =>
    rw [allFinite]
    dsimp only
    rw [job_max, Slice.greatest_flag laws, job_done]
    rfl

end Norm

/-! ## The index of the largest entry -/

namespace Communicator

omit laws in
/-- The largest absolute value of a vector, and the lowest index at which it is found.  Nothing at
all has maximum zero at 0. -/
structure Largest (x : Array α) (best : α × Nat) : Prop where
  empty : x = #[] → best = (0, 0)
  found : x ≠ #[] → ∃ v, x[best.2]? = some v ∧ (Scalar.abs v == best.1) = true
  bound : ∀ v ∈ x, ¬ best.1 < Scalar.abs v
  lowest : ∀ i v, x[i]? = some v → i < best.2 → Scalar.abs v < best.1

omit laws in
theorem Largest.bound_push {x : Array α} {best : α × Nat} (h : Largest x best) {v : α}
    (larger : ¬ best.1 < Scalar.abs v) : ∀ w ∈ x.push v, ¬ best.1 < Scalar.abs w := by
  intro w there
  rcases Array.mem_push.1 there with there | rfl
  · exact h.bound w there
  · exact larger

/-- A greater entry is the largest one. -/
theorem Largest.push_larger {x : Array α} {best : α × Nat} (h : Largest x best) {v : α}
    (defined : ∀ w ∈ x.push v, Scalar.isUndefined w = false) (larger : best.1 < Scalar.abs v) :
    Largest (x.push v) (Scalar.abs v, x.size) where
  empty none := absurd none Array.push_ne_empty
  found _ := by
    have v_defined := laws.abs_defined (defined v (Array.mem_push_self ..))
    refine ⟨v, by rw [Array.getElem?_push, if_pos rfl], ?_⟩
    exact (laws.beq_iff v_defined v_defined).2 ⟨laws.lt_irrefl _, laws.lt_irrefl _⟩
  bound w there above := by
    rcases Array.mem_push.1 there with there | rfl
    · exact h.bound w there (laws.lt_trans larger above)
    · exact laws.lt_irrefl _ above
  lowest i w there before := by
    rw [Array.getElem?_push, if_neg (Nat.ne_of_lt before)] at there
    have mem := Array.mem_of_getElem? there
    have w_defined := laws.abs_defined (defined w (Array.mem_push_of_mem _ mem))
    exact (laws.lt_or_lt w_defined larger).resolve_left (h.bound w mem)

omit laws in
/-- Where there was an entry as large already, it stays the largest one. -/
theorem Largest.push {x : Array α} {best : α × Nat} (h : Largest x best) {v : α}
    (inside : best.2 < x.size) (larger : ¬ best.1 < Scalar.abs v) : Largest (x.push v) best where
  empty none := absurd none Array.push_ne_empty
  found _ := by
    rw [Array.getElem?_push, if_neg (Nat.ne_of_lt inside)]
    exact h.found fun none ↦ absurd inside (by rw [none]; exact Nat.not_lt_zero _)
  bound := h.bound_push larger
  lowest i w there before := by
    rw [Array.getElem?_push, if_neg (Nat.ne_of_lt (Nat.lt_trans before inside))] at there
    exact h.lowest i w there before

theorem localMax_largest (x : Array α) (defined : ∀ v ∈ x, Scalar.isUndefined v = false) :
    Largest x ((localMax x).2, (localMax x).1) := by
  induction x using push_induction with
  | empty => exact ⟨fun _ ↦ rfl, fun some ↦ absurd rfl some, nofun, nofun⟩
  | push x v ih =>
    have ih := ih fun w there ↦ defined w (Array.mem_push_of_mem _ there)
    rw [localMax_push]
    by_cases larger : (localMax x).2 < Scalar.abs v
    · rw [if_pos larger]
      exact ih.push_larger laws defined larger
    · rw [if_neg larger]
      cases none : x.isEmpty with
      | true =>
        -- The first entry is zero, as the maximum of nothing is.
        obtain rfl := Array.isEmpty_iff.1 none
        have v_defined := laws.abs_defined (defined v (Array.mem_push_self ..))
        refine ⟨fun none ↦ absurd none Array.push_ne_empty, fun _ ↦ ⟨v, rfl, ?_⟩,
          ih.bound_push larger, fun i w there before ↦ absurd before (Nat.not_lt_zero i)⟩
        exact (laws.beq_iff v_defined laws.zero_defined).2 ⟨laws.abs_nonneg v, larger⟩
      | false => exact ih.push (localMax_lt_size x none) larger

theorem serial_maxAbs (x : Array α) :
    serial.maxAbs x = ((localMax x).2, (localMax x).1) := by
  have same : ((localMax x).2 == (localMax x).2) = true :=
    (laws.beq_iff (localMax_defined laws x) (localMax_defined laws x)).2
      ⟨laws.lt_irrefl _, laws.lt_irrefl _⟩
  rw [maxAbs, Communicator.candidate, serial]
  dsimp only
  rw [same, Bool.and_true, Nat.zero_add]
  cases none : x.isEmpty with
  | true =>
    rw [Array.isEmpty_iff.1 none, Bool.not_true, if_neg Bool.false_ne_true]
    dsimp only
    rw [laws.not_finite_neg_infinity]
    rfl
  | false =>
    rw [Bool.not_false, if_pos rfl]
    dsimp only
    rw [laws.finite_neg_natCast, laws.neg_neg_natCast, laws.floor_natCast, if_pos rfl]

end Communicator

/-- **Distributed norms.**  However a vector is spread over ranks, in slices that may be empty, each
rank gets for each norm what the serial communicator has for the whole vector.  The index that goes
with the largest absolute value is the lowest at which it is found. -/
theorem norms_split (absTol relTol : α) :
    (Norm.globalLength : Norm α Nat).Splits ∧ (Norm.dot : Norm α (Except Stop α)).Splits ∧
      (Norm.norm2 : Norm α α).Splits ∧ (Norm.normInf : Norm α α).Splits ∧
      (Norm.maxAbs : Norm α (α × Nat)).Splits ∧ (Norm.weighted absTol relTol).Splits ∧
      (Norm.allFinite : Norm α Bool).Splits ∧
      ∀ x : Array α, (∀ v ∈ x, Scalar.isUndefined v = false) → Largest x (serial.maxAbs x) := by
  refine ⟨Norm.globalLength_splits laws, Norm.dot_splits laws, Norm.norm2_splits laws,
    fun parts ↦ Norm.largest_splits laws (fun greatest _ ↦ greatest) parts,
    fun parts ↦ Norm.largest_splits laws Prod.mk parts, Norm.weighted_splits laws absTol relTol,
    Norm.allFinite_splits laws, fun x defined ↦ ?_⟩
  rw [serial_maxAbs laws]
  exact localMax_largest laws x defined

end

/-! ## Rational numbers -/

namespace ExtendedRat

theorem lt_iff {a b : ExtendedRat} : a < b ↔ below a b = true := Iff.rfl

theorem isUndefined_eq_false {a : ExtendedRat} :
    Scalar.isUndefined a = false ↔ a ≠ undefined := decide_eq_false_iff_not

theorem reductionLaws : Scalar.ReductionLaws ExtendedRat where
  add_assoc a b c := by
    change add (add a b) c = add a (add b c)
    cases a <;> cases b <;> cases c <;> simp [add, add_assoc] <;> grind [add]
  zero_add a := by
    cases a with
    | number p => exact congrArg number (zero_add p)
    | _ => rfl
  add_zero a := by
    cases a with
    | number p => exact congrArg number (add_zero p)
    | _ => rfl
  natCast_zero := rfl
  natCast_add k l := congrArg number (Nat.cast_add k l)
  floor_natCast k := by
    show (Rat.floor (k : ℚ)).toNat = k
    rw [← Int.cast_natCast, Rat.floor_intCast, Int.toNat_natCast]
  defined_of_lt {a b} h := by
    rw [lt_iff] at h
    rw [isUndefined_eq_false, isUndefined_eq_false]
    constructor <;> rintro rfl
    · cases h
    · cases a <;> cases h
  lt_trans {a b c} := by
    rw [lt_iff, lt_iff, lt_iff]
    cases a <;> cases b <;> cases c <;> simp [below] <;> grind
  lt_irrefl a := by
    rw [lt_iff]
    cases a <;> simp [below]
  lt_or_lt {a b c} := by
    rw [isUndefined_eq_false, lt_iff, lt_iff, lt_iff]
    cases a <;> cases b <;> cases c <;> simp [below] <;> grind
  beq_iff {a b} := by
    rw [isUndefined_eq_false, isUndefined_eq_false, lt_iff, lt_iff]
    change _ → _ → (same a b = true ↔ _)
    cases a <;> cases b
    case infinite.infinite s t => cases s <;> cases t <;> simp [same, below]
    all_goals simp [same, below] <;> grind
  zero_lt_one := by decide +kernel
  abs_nonneg a := by
    change ¬ below (if below a (number 0) then neg a else a) (number 0) = true
    split
    · cases a with
      | number p => simp_all [below, neg, le_of_lt]
      | infinite s => simp_all [below, neg]
      | undefined => simp [below, neg]
    · assumption
  abs_defined {a} h := by
    rw [isUndefined_eq_false] at h ⊢
    change (if below a (number 0) then neg a else a) ≠ undefined
    split
    · cases a <;> simp_all [neg]
    · exact h
  neg_natCast_lt {k l} := by
    change number (-k) < number (-l) ↔ l < k
    rw [number_lt, neg_lt_neg_iff, Nat.cast_lt]
  neg_infinity_lt k := rfl
  finite_neg_natCast k := rfl
  not_finite_neg_infinity := rfl
  neg_neg_natCast k := congrArg number (neg_neg _)

/-- A vector over four ranks.  The first and the last of them hold nothing, and the other two hold
a largest entry each. -/
def spread : List (Slice ExtendedRat) :=
  [⟨#[], #[], #[], rfl, rfl⟩, ⟨#[0, 1], #[2.0, 3.0], #[1, 1], rfl, rfl⟩,
    ⟨#[-1, 0.5], #[4.0, 5.0], #[1, 1], rfl, rfl⟩, ⟨#[], #[], #[], rfl, rfl⟩]

theorem norms_split_spread :
    job (spread.map Norm.globalLength.program) = some [4, 4, 4, 4] ∧
      job (spread.map Norm.dot.program) = some (List.replicate 4 (.ok 1.5)) ∧
      job (spread.map Norm.maxAbs.program) = some [(1, 1), (1, 1), (1, 1), (1, 1)] ∧
      Largest (Slice.join spread).d (1, 1) := by
  obtain ⟨length, dot, -, -, maxAbs, -, -, largest⟩ := norms_split reductionLaws 1 1
  refine ⟨(length spread).trans (by decide +kernel), (dot spread).trans (by decide +kernel),
    (maxAbs spread).trans (by decide +kernel), ?_⟩
  have whole : Communicator.serial.maxAbs (Slice.join spread).d = (1, 1) := by decide +kernel
  exact whole ▸ largest _ (by decide +kernel)

end ExtendedRat

end OperatingPoint
