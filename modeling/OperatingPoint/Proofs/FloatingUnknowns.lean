import OperatingPoint.Proofs.ResolvedConditions
import OperatingPoint.Proofs.ValidatedStrategies

/-!
# Unknowns that nothing is attached to

A set of unknowns is kept in increasing order, so that membership is decided by bisection.  The
order is made where a set comes from outside, as the list of a partition, and it is kept where a set
is a part of another: the unknowns of a partition whose rows have been found empty.

Which unknowns these are is looked up on each load that is fresh, before anything is added to it,
and stays as it is while the same load is changed again.  A load is fresh if its number is not that
of the load before; where loads are counted, that is a number which has not been there at all
(`lastFresh_iff_of_counted`).  So what is known after any series of loads has been seen on the last
fresh one (`Knows`), whatever was seen before and however the progress variable has moved.
-/

set_option autoImplicit false

namespace OperatingPoint

/-- What is found first in an increasing list is the least that passes the test. -/
theorem IndexSet.le_of_find? {l : List Nat} (increasing : l.Pairwise (· < ·)) {test : Nat → Bool}
    {i j : Nat} (found : l.find? test = some i) (member : j ∈ l) (passes : test j = true) :
    i ≤ j := by
  induction l with
  | nil => cases found
  | cons k rest ih =>
    obtain ⟨later, increasing⟩ := List.pairwise_cons.1 increasing
    by_cases first : test k = true
    · rw [List.find?_cons_of_pos first] at found
      cases found
      rcases List.mem_cons.1 member with rfl | there
      · exact Nat.le_refl _
      · exact Nat.le_of_lt (later j there)
    · rw [List.find?_cons_of_neg first] at found
      rcases List.mem_cons.1 member with rfl | there
      · exact absurd passes first
      · exact ih increasing found there

/-! ## Partitions from lists -/

namespace Partition

variable {l : List Nat} {bound : Nat}

theorem exists_ofList_iff : (∃ p, ofList l bound = .ok p) ↔ ∀ i ∈ l, i < bound :=
  ⟨fun ⟨_, built⟩ ↦ (of_ofList built).2.2, exists_ofList⟩

/-- A list is refused for its lowest index that is out of bounds. -/
theorem ofList_eq_error_iff {cause : Fault} :
    ofList l bound = .error cause ↔
      ∃ i, cause = .partition (.outside i bound) ∧ i ∈ l ∧ bound ≤ i ∧
        ∀ j ∈ l, bound ≤ j → i ≤ j := by
  unfold ofList
  dsimp only
  split
  · rename_i outside found
    have large := List.find?_some found
    rw [decide_eq_true_eq] at large
    have member : outside ∈ l := IndexSet.mem_sorted.1 (List.mem_of_find?_eq_some found)
    have least : ∀ j ∈ l, bound ≤ j → outside ≤ j := fun j listed beyond ↦
      IndexSet.le_of_find? (IndexSet.sorted_increasing l) found (IndexSet.mem_sorted.2 listed)
        (decide_eq_true beyond)
    constructor
    · rintro ⟨⟩
      exact ⟨outside, rfl, member, large, least⟩
    · rintro ⟨i, rfl, listed, beyond, lowest⟩
      rw [Nat.le_antisymm (least i listed beyond) (lowest outside member large)]
  · rename_i none
    refine iff_of_false nofun ?_
    rintro ⟨i, -, listed, beyond, -⟩
    have small := List.find?_eq_none.1 none i (IndexSet.mem_sorted.2 listed)
    rw [decide_eq_true_eq] at small
    exact small beyond

theorem contains_iff {p : Partition} {i : Nat} : p.contains i = true ↔ i ∈ p.indices :=
  IndexSet.contains_iff

end Partition

variable {α : Type}

/-! ## Loads -/

/-- A Jacobian with the number of its load. -/
structure NumberedLoad (α : Type) where
  number : Nat
  jacobian : Table α

namespace NumberedLoad

variable {loads : List (NumberedLoad α)} {load load' last : NumberedLoad α}

/-- The last of some loads that was fresh: the one before it, if there was one, has another number,
and all that came after have the same. -/
def LastFresh (loads : List (NumberedLoad α)) (load : NumberedLoad α) : Prop :=
  ∃ earlier later, loads = earlier ++ load :: later ∧
    (∀ before ∈ earlier.getLast?, before.number ≠ load.number) ∧
      ∀ again ∈ later, again.number = load.number

theorem not_lastFresh_nil : ¬LastFresh [] load := by
  rintro ⟨earlier, later, split, -⟩
  cases earlier <;> cases split

/-- The number of the last load is that of the last fresh one. -/
theorem LastFresh.number_eq (h : LastFresh loads load) (ends : loads.getLast? = some last) :
    last.number = load.number := by
  obtain ⟨earlier, later, rfl, -, same⟩ := h
  rw [List.getLast?_append_cons] at ends
  rcases List.mem_cons.1 (List.mem_of_getLast? ends) with rfl | again
  · rfl
  · exact same last again

/-- Where a load among some is: it is the last one, or it is one of those before. -/
theorem split_concat {earlier later : List (NumberedLoad α)}
    (split : loads ++ [load] = earlier ++ load' :: later) :
    (later = [] ∧ loads = earlier ∧ load = load') ∨
      ∃ between, later = between ++ [load] ∧ loads = earlier ++ load' :: between := by
  rcases later.eq_nil_or_concat' with rfl | ⟨between, last, rfl⟩
  · obtain ⟨before, same⟩ := List.append_inj' split rfl
    exact .inl ⟨rfl, before, List.singleton_inj.1 same⟩
  · rw [← List.cons_append, ← List.append_assoc] at split
    obtain ⟨before, same⟩ := List.append_inj' split rfl
    exact .inr ⟨between, by rw [List.singleton_inj.1 same], before⟩

theorem lastFresh_concat_of_fresh (fresh : ∀ before ∈ loads.getLast?, before.number ≠ load.number) :
    LastFresh (loads ++ [load]) load' ↔ load' = load := by
  constructor
  · rintro ⟨earlier, later, split, other, same⟩
    rcases split_concat split with ⟨-, -, last⟩ | ⟨between, rfl, before⟩
    · exact last.symm
    · -- The load before would have the same number too.
      have nonempty : loads ≠ [] := by simp [before]
      have ends := List.getLast?_eq_some_getLast nonempty
      have old : LastFresh loads load' :=
        ⟨earlier, between, before, other, fun x there ↦ same x (List.mem_append_left _ there)⟩
      have number := same load (List.mem_append_right _ (.head _))
      exact absurd ((old.number_eq ends).trans number.symm) (fresh _ ends)
  · rintro rfl
    exact ⟨loads, [], rfl, fresh, nofun⟩

theorem lastFresh_concat_of_same (ends : loads.getLast? = some last)
    (same : last.number = load.number) :
    LastFresh (loads ++ [load]) load' ↔ LastFresh loads load' := by
  constructor
  · rintro ⟨earlier, later, split, other, again⟩
    rcases split_concat split with ⟨-, rfl, rfl⟩ | ⟨between, rfl, before⟩
    · exact absurd same (other last ends)
    · exact ⟨earlier, between, before, other, fun x there ↦ again x (List.mem_append_left _ there)⟩
  · intro h
    have number : load.number = load'.number := same.symm.trans (h.number_eq ends)
    obtain ⟨earlier, later, rfl, other, again⟩ := h
    refine ⟨earlier, later ++ [load], List.append_assoc .., other, ?_⟩
    rw [List.forall_mem_append, List.forall_mem_singleton]
    exact ⟨again, number⟩

/-- Where loads are counted, so that no number comes back after a higher one, a load is fresh if its
number has not been there before. -/
theorem lastFresh_iff_of_counted (counted : (loads.map number).Pairwise (· ≤ ·)) :
    LastFresh loads load ↔ ∃ earlier later, loads = earlier ++ load :: later ∧
      (∀ before ∈ earlier, before.number ≠ load.number) ∧
        ∀ again ∈ later, again.number = load.number := by
  refine exists_congr fun earlier ↦ exists_congr fun later ↦ and_congr_right fun split ↦
    and_congr_left fun _ ↦ ⟨fun other before there same ↦ ?_, fun other before ends ↦
      other before (List.mem_of_getLast? ends)⟩
  rw [List.pairwise_map, split, List.pairwise_append] at counted
  obtain ⟨counted, -, below⟩ := counted
  rcases earlier.eq_nil_or_concat' with rfl | ⟨first, last, rfl⟩
  · cases there
  · -- What is not the last before it is not above that.
    have upper : before.number ≤ last.number := by
      rcases List.mem_append.1 there with early | final
      · exact (List.pairwise_append.1 counted).2.2 before early last (.head _)
      · rw [List.mem_singleton.1 final]
    have lower : last.number ≤ load.number := below last (by simp) load (.head _)
    exact other last (by simp) (Nat.le_antisymm lower (same ▸ upper))

end NumberedLoad

variable [Scalar α]

/-- Whether a table has a row and nothing but zeros in it. -/
def Table.HasEmptyRow (A : Table α) (i : Nat) : Prop :=
  ∃ h : i < A.rows, ∀ j, (A.entries ⟨i, h⟩ j == 0) = true

/-- Whether a table has a diagonal entry at each of some places. -/
def Table.HasDiagonal (A : Table α) (indices : List Nat) : Prop :=
  ∀ i ∈ indices, i < A.rows ∧ i < A.columns

/-! ## One load -/

namespace Shift

variable {m n : Nat} {amount : Nat → α} {A : Mat α m n}

theorem load_of_apply {s : Shift α} {indices : List Nat} {load : Nat} {A' : Mat α m n}
    {s' : Shift α} (run : s.apply A indices load amount = .ok (A', s')) :
    s'.load = some load := by
  obtain ⟨_, _, same⟩ := bind_eq_ok.1 run
  cases same
  rfl

end Shift

namespace Gmin

variable {g g' : Gmin α}

section

variable {m n number : Nat} {A A' : Mat α m n}

theorem rowIsEmpty_iff {i : Nat} (inside : i < m) :
    rowIsEmpty A i = true ↔ Table.HasEmptyRow ⟨m, n, A⟩ i := by
  rw [rowIsEmpty, dif_pos inside, Mat.rowIsZero, List.all_eq_true]
  exact ⟨fun zeros ↦ ⟨inside, fun j ↦ zeros j (List.mem_finRange j)⟩,
    fun ⟨_, zeros⟩ j _ ↦ zeros j⟩

theorem exists_augmentJacobian_iff :
    (∃ r, g.augmentJacobian A number = .ok r) ↔
      Table.HasDiagonal ⟨m, n, A⟩ g.partition.indices := by
  constructor
  · rintro ⟨r, run⟩
    obtain ⟨shifted, run, -⟩ := bind_eq_ok.1 run
    exact Shift.exists_apply_iff.1 ⟨shifted, run⟩
  · intro fits
    exact ⟨_, bind_eq_ok.2 ⟨_, (Shift.exists_apply_iff.2 fits).choose_spec, rfl⟩⟩

/-- A load that is fresh shows which rows are empty, any other changes nothing of that. -/
theorem of_augmentJacobian (run : g.augmentJacobian A number = .ok (g', A')) :
    g'.partition = g.partition ∧ g'.shift.load = some number ∧
      g'.floating =
        if g.shift.isFresh number then g.partition.members.filter (rowIsEmpty A)
        else g.floating := by
  obtain ⟨⟨_, _⟩, shifted, same⟩ := bind_eq_ok.1 run
  cases same
  exact ⟨rfl, Shift.load_of_apply shifted, rfl⟩

end

/-! ## Series of loads -/

/-- What changes conductances: the progress variable is set, or they are added to a load. -/
inductive Change (α : Type) where
  | progress (value : α)
  | load (load : NumberedLoad α)

/-- The conductances after a change. -/
def change (g : Gmin α) : Change α → Except Stop (Gmin α)
  | .progress value => .ok { g with progress := value }
  | .load load => (g.augmentJacobian load.jacobian.entries load.number).map Prod.fst

/-- The conductances after some changes in turn. -/
def changeAll (g : Gmin α) (changes : List (Change α)) : Except Stop (Gmin α) :=
  changes.foldlM change g

/-- The loads among some changes. -/
def loads {α : Type} (changes : List (Change α)) : List (NumberedLoad α) :=
  changes.filterMap fun
    | .progress _ => none
    | .load load => some load

variable {p : Partition} {seen : List (NumberedLoad α)} {load : NumberedLoad α}
  {changes : List (Change α)}

theorem changeAll_cons (g : Gmin α) (c : Change α) (changes : List (Change α)) :
    g.changeAll (c :: changes) = g.change c >>= fun g' ↦ g'.changeAll changes := List.foldlM_cons

theorem change_load_eq_ok : g.change (.load load) = .ok g' ↔
    ∃ A', g.augmentJacobian load.jacobian.entries load.number = .ok (g', A') := by
  refine map_eq_ok.trans ⟨?_, fun ⟨A', run⟩ ↦ ⟨_, run, rfl⟩⟩
  rintro ⟨⟨_, A'⟩, run, rfl⟩
  exact ⟨A', run⟩

/-- A series of changes comes to its end if and only if each Jacobian has diagonal entries at the
unknowns. -/
theorem exists_changeAll_iff : (∃ g', g.changeAll changes = .ok g') ↔
    ∀ load ∈ loads changes, load.jacobian.HasDiagonal g.partition.indices := by
  induction changes generalizing g with
  | nil => exact iff_of_true ⟨g, rfl⟩ nofun
  | cons c rest ih =>
    rw [changeAll_cons]
    cases c with
    | progress value => exact ih (g := { g with progress := value })
    | load load =>
      show _ ↔ ∀ l ∈ load :: loads rest, l.jacobian.HasDiagonal g.partition.indices
      rw [List.forall_mem_cons]
      constructor
      · rintro ⟨g', run⟩
        obtain ⟨g₁, first, run⟩ := bind_eq_ok.1 run
        obtain ⟨A', first⟩ := change_load_eq_ok.1 first
        have later := ih.1 ⟨g', run⟩
        rw [(of_augmentJacobian first).1] at later
        exact ⟨exists_augmentJacobian_iff.1 ⟨_, first⟩, later⟩
      · rintro ⟨fits, later⟩
        have ends : ∃ r, g.augmentJacobian load.jacobian.entries load.number = .ok r :=
          exists_augmentJacobian_iff.2 fits
        obtain ⟨⟨g₁, A'⟩, first⟩ := ends
        rw [← (of_augmentJacobian first).1] at later
        obtain ⟨g', run⟩ := ih.2 later
        exact ⟨g', bind_eq_ok.2 ⟨g₁, change_load_eq_ok.2 ⟨A', first⟩, run⟩⟩

/-- What is known after some loads: the number of the last one, and of the partition those unknowns
that had an empty row on the last fresh one. -/
structure Knows (g : Gmin α) (p : Partition) (seen : List (NumberedLoad α)) : Prop where
  partition : g.partition = p
  noted : g.shift.load = seen.getLast?.map NumberedLoad.number
  floating : ∀ i, i ∈ g.floating.toList ↔
    i ∈ p.indices ∧ ∃ load, NumberedLoad.LastFresh seen load ∧ load.jacobian.HasEmptyRow i

theorem knows_new (p : Partition) (progress stop floor : α) :
    Knows { partition := p, progress := progress, stop := stop, floor := floor } p [] where
  partition := rfl
  noted := rfl
  floating _ := iff_of_false List.not_mem_nil
    fun ⟨_, _, shown, _⟩ ↦ NumberedLoad.not_lastFresh_nil shown

theorem Knows.isFresh_iff (h : g.Knows p seen) {number : Nat} :
    g.shift.isFresh number = true ↔ ∀ before ∈ seen.getLast?, before.number ≠ number := by
  rw [Shift.isFresh, bne_iff_ne, h.noted]
  cases seen.getLast? <;> simp

/-- What the next load makes known. -/
theorem Knows.next (h : g.Knows p seen) (run : g.change (.load load) = .ok g') :
    g'.Knows p (seen ++ [load]) := by
  obtain ⟨A', run⟩ := change_load_eq_ok.1 run
  obtain ⟨partition, noted, floating⟩ := of_augmentJacobian run
  have fits := exists_augmentJacobian_iff.1 ⟨_, run⟩
  rw [h.partition] at partition floating fits
  refine ⟨partition, ?_, fun i ↦ ?_⟩
  · rw [List.getLast?_concat]
    exact noted
  · rw [floating]
    by_cases fresh : g.shift.isFresh load.number = true
    · -- The load that is shown last is this one.
      rw [if_pos fresh, IndexSet.mem_filter]
      simp only [NumberedLoad.lastFresh_concat_of_fresh (h.isFresh_iff.1 fresh), exists_eq_left]
      exact and_congr_right fun member ↦ rowIsEmpty_iff (fits i member).1
    · rw [if_neg fresh, h.floating i]
      rw [h.isFresh_iff] at fresh
      simp only [Classical.not_forall, Classical.not_not] at fresh
      obtain ⟨last, ends, same⟩ := fresh
      simp only [NumberedLoad.lastFresh_concat_of_same ends same]

theorem Knows.changeAll (h : g.Knows p seen) (run : g.changeAll changes = .ok g') :
    g'.Knows p (seen ++ loads changes) := by
  induction changes generalizing g seen with
  | nil =>
    cases run
    rwa [loads, List.filterMap_nil, List.append_nil]
  | cons c rest ih =>
    rw [changeAll_cons] at run
    obtain ⟨g₁, first, others⟩ := bind_eq_ok.1 run
    cases c with
    | progress value =>
      cases first
      exact ih (g := { g with progress := value }) ⟨h.partition, h.noted, h.floating⟩ others
    | load load =>
      have known := ih (h.next first) others
      rwa [List.append_assoc] at known

/-- **Membership is exact.**  A list of indices is a partition of `n` unknowns if and only if all of
them are below `n`, and is refused for the lowest that is not; the partition is in strictly
increasing order, and what is found in it by bisection is what was listed.

Conductances on any partition go through any series of loads and of settings of their progress
variable, as long as the Jacobians have diagonal entries at the unknowns.  The unknowns that they
have found without an element are in strictly increasing order too, and what is found among these
are the members of the partition whose rows were empty on the last fresh load. -/
theorem membership_exact :
    (∀ (l : List Nat) (n : Nat),
      ((∃ p, Partition.ofList l n = .ok p) ↔ ∀ i ∈ l, i < n) ∧
      (∀ cause, Partition.ofList l n = .error cause ↔
        ∃ i, cause = .partition (.outside i n) ∧ i ∈ l ∧ n ≤ i ∧ ∀ j ∈ l, n ≤ j → i ≤ j) ∧
      ∀ p, Partition.ofList l n = .ok p →
        p.bound = n ∧ p.indices.Pairwise (· < ·) ∧ ∀ i, p.contains i = true ↔ i ∈ l) ∧
    ∀ (p : Partition) (progress stop floor : α) (changes : List (Change α)),
      let g : Gmin α := { partition := p, progress := progress, stop := stop, floor := floor }
      ((∃ g', g.changeAll changes = .ok g') ↔
        ∀ load ∈ loads changes, load.jacobian.HasDiagonal p.indices) ∧
      ∀ g', g.changeAll changes = .ok g' →
        g'.floating.toList.Pairwise (· < ·) ∧
        ∀ i, g'.floating.contains i = true ↔ p.contains i = true ∧
          ∃ load, NumberedLoad.LastFresh (loads changes) load ∧ load.jacobian.HasEmptyRow i := by
  constructor
  · refine fun l n ↦ ⟨Partition.exists_ofList_iff, fun _ ↦ Partition.ofList_eq_error_iff,
      fun p built ↦ ?_⟩
    obtain ⟨indices, bound, -⟩ := Partition.of_ofList built
    refine ⟨bound, p.members.increasing, fun i ↦ ?_⟩
    rw [Partition.contains_iff, indices, IndexSet.mem_sorted]
  · intro p progress stop floor changes g
    refine ⟨exists_changeAll_iff, fun g' run ↦ ⟨g'.floating.increasing, fun i ↦ ?_⟩⟩
    rw [IndexSet.contains_iff, Partition.contains_iff]
    exact ((knows_new p progress stop floor).changeAll run).floating i

/-- Two loads of which each is changed twice.  The second time the conductances are on the diagonal
already, and it is not looked up again which rows are empty. -/
theorem membership_exact_reloaded :
    let p : Partition := ⟨.ofList [2, 0, 2], 3, by decide⟩
    let g : Gmin ExtendedRat := { partition := p, progress := 1, stop := -1, floor := 0 }
    let zeros : Mat ExtendedRat 3 3 := .zero _ 3 3
    let changed : Table ExtendedRat := ⟨3, 3, .ofFn fun _ _ ↦ 1⟩
    let changes : List (Change ExtendedRat) := [.load ⟨4, 3, 3, zeros⟩, .progress 0,
      .load ⟨4, changed⟩, .load ⟨5, 3, 3, zeros.set 0 1 1⟩, .load ⟨5, changed⟩]
    Partition.ofList [2, 0, 2] 3 = .ok p ∧ p.contains 1 = false ∧
      ∃ g', g.changeAll changes = .ok g' ∧ g'.floating.contains 2 = true ∧
        g'.floating.contains 0 = false := by
  intro p g zeros changed changes
  have built : Partition.ofList [2, 0, 2] 3 = .ok p := rfl
  obtain ⟨lists, series⟩ := membership_exact (α := ExtendedRat)
  have listed := ((lists [2, 0, 2] 3).2.2 p built).2.2
  obtain ⟨ends, exact⟩ := series p 1 (-1) 0 changes
  have sizes : ∀ load ∈ loads changes, load.jacobian.rows = 3 ∧ load.jacobian.columns = 3 := by
    simp [changes, loads, changed]
  obtain ⟨g', run⟩ := ends.2 fun load there i member ↦ by
    rw [(sizes load there).1, (sizes load there).2]
    exact ⟨p.below_bound i member, p.below_bound i member⟩
  let earlier : List (NumberedLoad ExtendedRat) := [⟨4, 3, 3, zeros⟩, ⟨4, changed⟩]
  let fresh : NumberedLoad ExtendedRat := ⟨5, 3, 3, zeros.set 0 1 1⟩
  have shown : ∀ load, NumberedLoad.LastFresh (loads changes) load ↔ load = fresh := by
    intro load
    have again : NumberedLoad.LastFresh (earlier ++ [fresh] ++ [⟨5, changed⟩]) load ↔
        NumberedLoad.LastFresh (earlier ++ [fresh]) load :=
      NumberedLoad.lastFresh_concat_of_same List.getLast?_concat rfl
    refine again.trans (NumberedLoad.lastFresh_concat_of_fresh ?_)
    rintro _ ⟨⟩
    decide
  have known := (exact g' run).2
  simp only [shown, exists_eq_left] at known
  refine ⟨built, ?_, g', run, ?_, ?_⟩
  · rw [Bool.eq_false_iff, Ne, listed]
    decide
  · exact (known 2).2 ⟨(listed 2).2 (by decide), by decide, by decide +kernel⟩
  · rw [Bool.eq_false_iff, Ne, known]
    rintro ⟨-, _, empty⟩
    have filled : ((Mat.zero ExtendedRat 3 3).set 0 1 1 0 1 == 0) = false := by decide +kernel
    exact Bool.false_ne_true (filled.symm.trans (empty (1 : Fin 3)))

end Gmin

end OperatingPoint
