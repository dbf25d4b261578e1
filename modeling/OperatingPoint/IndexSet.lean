/-!
# Sets of indices

A set of indices is a strictly increasing array, so that membership is decided by bisection.  Every
way to build one keeps the order: from a list by insertion, as an initial segment, or as a part of
another.
-/

set_option autoImplicit false

namespace OperatingPoint

/-- A set of natural numbers, in strictly increasing order. -/
structure IndexSet where
  toArray : Array Nat
  increasing : toArray.toList.Pairwise (· < ·)

namespace IndexSet

/-- The members, in order. -/
def toList (s : IndexSet) : List Nat := s.toArray.toList

def size (s : IndexSet) : Nat := s.toArray.size

/-- Puts an index in its place in a strictly increasing list, unless it is there already. -/
def insertInto (i : Nat) : List Nat → List Nat
  | [] => [i]
  | j :: rest =>
    if i < j then i :: j :: rest
    else if i = j then j :: rest
    else j :: insertInto i rest

theorem mem_insertInto {i j : Nat} {l : List Nat} : j ∈ insertInto i l ↔ j = i ∨ j ∈ l := by
  induction l with
  | nil => simp [insertInto]
  | cons k rest ih =>
    simp only [insertInto]
    split
    · simp
    · split
      · rename_i h; simp [h]
      · simp only [List.mem_cons, ih]
        constructor
        · rintro (h | h | h) <;> simp [h]
        · rintro (h | h | h) <;> simp [h]

theorem insertInto_increasing {i : Nat} {l : List Nat} (h : l.Pairwise (· < ·)) :
    (insertInto i l).Pairwise (· < ·) := by
  induction l with
  | nil => simp [insertInto]
  | cons k rest ih =>
    obtain ⟨hk, hrest⟩ := List.pairwise_cons.1 h
    simp only [insertInto]
    split
    · rename_i hik
      refine List.pairwise_cons.2 ⟨fun j hj ↦ ?_, h⟩
      rcases List.mem_cons.1 hj with rfl | hj
      · exact hik
      · exact Nat.lt_trans hik (hk j hj)
    · split
      · exact h
      · refine List.pairwise_cons.2 ⟨fun j hj ↦ ?_, ih hrest⟩
        rcases mem_insertInto.1 hj with rfl | hj
        · omega
        · exact hk j hj

/-- The members of a list in strictly increasing order. -/
def sorted (l : List Nat) : List Nat := l.foldr insertInto []

theorem mem_sorted {i : Nat} {l : List Nat} : i ∈ sorted l ↔ i ∈ l := by
  induction l with
  | nil => simp [sorted]
  | cons j rest ih => simpa [sorted, mem_insertInto] using or_congr Iff.rfl ih

theorem sorted_increasing (l : List Nat) : (sorted l).Pairwise (· < ·) := by
  induction l with
  | nil => simp [sorted]
  | cons j rest ih => exact insertInto_increasing ih

/-- The set of the members of a list. -/
def ofList (l : List Nat) : IndexSet := ⟨(sorted l).toArray, sorted_increasing l⟩

/-- The set of all numbers below `n`. -/
def below (n : Nat) : IndexSet := ⟨(List.range n).toArray, List.pairwise_lt_range⟩

/-- The members that pass a test. -/
def filter (p : Nat → Bool) (s : IndexSet) : IndexSet :=
  ⟨(s.toList.filter p).toArray, s.increasing.filter p⟩

/-- Whether an index is among the entries of an array from place `lo` on and before place `hi`, by
bisection. -/
def search (a : Array Nat) (i lo hi : Nat) : Bool :=
  if lo < hi then
    let mid := lo + (hi - lo) / 2
    let found := a.getD mid 0
    if found < i then search a i (mid + 1) hi
    else if i < found then search a i lo mid
    else true
  else false
termination_by hi - lo

/-- Whether an index is a member. -/
def contains (s : IndexSet) (i : Nat) : Bool := search s.toArray i 0 s.size

/-- Bisection finds an entry of an increasing array exactly where there is one. -/
theorem search_iff {a : Array Nat} (increasing : a.toList.Pairwise (· < ·)) {i lo hi : Nat}
    (within : hi ≤ a.size) :
    search a i lo hi = true ↔ ∃ k, lo ≤ k ∧ k < hi ∧ a[k]? = some i := by
  have entry : ∀ {k}, k < a.size → a[k]? = some (a.getD k 0) := by
    intro k bound
    rw [Array.getD_eq_getD_getElem?, Array.getElem?_eq_getElem bound]
    rfl
  have before : ∀ {j k u v : Nat}, a[j]? = some u → a[k]? = some v → u < v → j < k := by
    intro j k u v first second lt
    obtain ⟨hj, rfl⟩ := Array.getElem?_eq_some_iff.1 first
    obtain ⟨hk, rfl⟩ := Array.getElem?_eq_some_iff.1 second
    refine Nat.lt_of_not_le fun le ↦ ?_
    rcases Nat.lt_or_eq_of_le le with after | rfl
    · exact Nat.lt_asymm lt (List.pairwise_iff_getElem.1 increasing k j hk hj after)
    · exact Nat.lt_irrefl _ lt
  fun_induction search a i lo hi with
  | case1 lo hi nonempty mid found low ih =>
    -- The middle is too low, and so is all that comes before it.
    refine (ih within).trans (exists_congr fun k ↦ and_congr_left fun ⟨_, there⟩ ↦ ?_)
    have after := before (entry (by omega)) there low
    omega
  | case2 lo hi nonempty mid found low high ih =>
    refine (ih (by omega)).trans (exists_congr fun k ↦ and_congr_right fun _ ↦
      and_congr_left fun there ↦ ?_)
    have after := before there (entry (by omega)) high
    omega
  | case3 lo hi nonempty mid found low high =>
    have same : found = i := Nat.le_antisymm (Nat.not_lt.1 high) (Nat.not_lt.1 low)
    exact iff_of_true rfl ⟨mid, by omega, by omega, same ▸ entry (by omega)⟩
  | case4 lo hi empty =>
    exact iff_of_false Bool.false_ne_true fun ⟨k, above, last, _⟩ ↦ by omega

theorem contains_iff {s : IndexSet} {i : Nat} : s.contains i = true ↔ i ∈ s.toList := by
  rw [toList, List.mem_iff_getElem?]
  simp only [Array.getElem?_toList]
  refine (search_iff s.increasing (Nat.le_refl _)).trans ⟨fun ⟨k, _, _, there⟩ ↦ ⟨k, there⟩, ?_⟩
  exact fun ⟨k, there⟩ ↦ ⟨k, Nat.zero_le k, (Array.getElem?_eq_some_iff.1 there).1, there⟩

theorem mem_filter {s : IndexSet} {p : Nat → Bool} {i : Nat} :
    i ∈ (s.filter p).toList ↔ i ∈ s.toList ∧ p i = true := List.mem_filter

end IndexSet

end OperatingPoint
