import Mathlib.Data.List.Induction
import Mathlib.Data.List.Nodup
import Mathlib.Data.List.Pairwise
import Mathlib.Data.String.Basic
import OperatingPoint.Circuit
import OperatingPoint.InitialConditions
import OperatingPoint.Proofs.Clamps

/-!
# What initial conditions resolve to

Conditions are kept in the order of their names, and a partition has its unknowns in their own
order.  Resolving conditions takes the values from one order to the other: the names are replaced by
their unknowns, and the pairs are sorted by these.  The partition sorts the unknowns once more.  That
shifts nothing, because what is sorted already is left as it is: `IndexSet.sorted_of_increasing`.
-/

set_option autoImplicit false

namespace OperatingPoint

/-! ## Sets of indices -/

/-- A list that is strictly increasing is left as it is. -/
theorem IndexSet.sorted_of_increasing {l : List Nat} (increasing : l.Pairwise (· < ·)) :
    IndexSet.sorted l = l := by
  induction l with
  | nil => rfl
  | cons i rest ih =>
    rw [List.pairwise_cons] at increasing
    show insertInto i (sorted rest) = i :: rest
    rw [ih increasing.2]
    cases rest with
    | nil => rfl
    | cons j rest => exact if_pos (increasing.1 j List.mem_cons_self)

/-- A list of indices is refused only for one that is out of bounds. -/
theorem Partition.exists_ofList {l : List Nat} {bound : Nat} (below : ∀ i ∈ l, i < bound) :
    ∃ p, Partition.ofList l bound = .ok p := by
  unfold Partition.ofList
  dsimp only
  split
  · rename_i outside found
    have large := List.find?_some found
    rw [decide_eq_true_eq] at large
    have small := below outside (IndexSet.mem_sorted.1 (List.mem_of_find?_eq_some found))
    exact absurd small (Nat.not_lt.2 large)
  · exact ⟨_, rfl⟩

theorem Partition.of_ofList {l : List Nat} {bound : Nat} {p : Partition}
    (built : Partition.ofList l bound = .ok p) :
    p.indices = IndexSet.sorted l ∧ p.bound = bound ∧ ∀ i ∈ l, i < bound := by
  unfold Partition.ofList at built
  dsimp only at built
  split at built
  · cases built
  · rename_i none
    cases built
    refine ⟨rfl, rfl, fun i there ↦ ?_⟩
    have small := List.find?_eq_none.1 none i (IndexSet.mem_sorted.2 there)
    rw [decide_eq_true_eq] at small
    exact Nat.lt_of_not_le small

namespace InitialConditions

variable {δ α : Type}

/-! ## Conditions as a map -/

/-- The value that was given last under a name. -/
def lastValue? (pairs : List (String × α)) (name : String) : Option α := pairs.reverse.lookup name

/-- The entries stand in the order of their names, each name once. -/
def Ordered (entries : List (String × α)) : Prop := entries.Pairwise (·.1 < ·.1)

variable {name : String} {value : α} {entries : List (String × α)}

theorem mem_insertInto (ordered : Ordered entries) {entry : String × α} :
    entry ∈ insertInto name value entries ↔
      entry = (name, value) ∨ (entry.1 ≠ name ∧ entry ∈ entries) := by
  induction entries with
  | nil => simp [insertInto]
  | cons head rest ih =>
    obtain ⟨later, ordered⟩ := List.pairwise_cons.1 ordered
    unfold insertInto
    split
    · -- The name comes before all the others, so that none of these is the same.
      rename_i before
      have other : ∀ e ∈ head :: rest, e.1 ≠ name := by
        rw [List.forall_mem_cons]
        exact ⟨ne_of_gt before, fun e there ↦ ne_of_gt (lt_trans before (later e there))⟩
      rw [List.mem_cons]
      exact or_congr_right ⟨fun there ↦ ⟨other entry there, there⟩, And.right⟩
    · split
      · rename_i same
        have other : ∀ e ∈ rest, e.1 ≠ name := fun e there ↦ by
          rw [same]
          exact ne_of_gt (later e there)
        rw [List.mem_cons, List.mem_cons]
        refine or_congr_right ⟨fun there ↦ ⟨other entry there, .inr there⟩, fun ⟨ne, there⟩ ↦ ?_⟩
        refine there.resolve_left fun first ↦ ne ?_
        rw [first, same]
      · rename_i differs
        rw [List.mem_cons, ih ordered, List.mem_cons]
        constructor
        · rintro (rfl | rfl | ⟨ne, there⟩)
          · exact .inr ⟨Ne.symm differs, .inl rfl⟩
          · exact .inl rfl
          · exact .inr ⟨ne, .inr there⟩
        · rintro (rfl | ⟨ne, rfl | there⟩)
          · exact .inr (.inl rfl)
          · exact .inl rfl
          · exact .inr (.inr ⟨ne, there⟩)

theorem insertInto_ordered (ordered : Ordered entries) :
    Ordered (insertInto name value entries) := by
  induction entries with
  | nil => exact List.pairwise_singleton _ _
  | cons head rest ih =>
    obtain ⟨later, ordered'⟩ := List.pairwise_cons.1 ordered
    unfold insertInto
    split
    · rename_i before
      refine List.pairwise_cons.2 ⟨List.forall_mem_cons.2 ⟨before, fun e there ↦ ?_⟩, ordered⟩
      exact lt_trans before (later e there)
    · rename_i notBefore
      split
      · rename_i same
        refine List.pairwise_cons.2 ⟨fun e there ↦ ?_, ordered'⟩
        rw [same]
        exact later e there
      · rename_i differs
        refine List.pairwise_cons.2 ⟨fun e there ↦ ?_, ih ordered'⟩
        obtain rfl | ⟨-, old⟩ := (mem_insertInto ordered').1 there
        · exact lt_of_le_of_ne (not_lt.1 notBefore) (Ne.symm differs)
        · exact later e old

theorem ofList_append (pairs : List (String × α)) (pair : String × α) :
    ofList (pairs ++ [pair]) = (ofList pairs).insert pair.1 pair.2 := List.foldl_append

theorem ofList_ordered (pairs : List (String × α)) : Ordered (ofList pairs).entries := by
  induction pairs using List.reverseRecOn with
  | nil => exact .nil
  | append_singleton pairs pair ih =>
    rw [ofList_append]
    exact insertInto_ordered ih

theorem lastValue?_append (pairs : List (String × α)) (pair : String × α) (name : String) :
    lastValue? (pairs ++ [pair]) name =
      if name = pair.1 then some pair.2 else lastValue? pairs name := by
  rw [lastValue?, List.reverse_concat, List.lookup_cons]
  by_cases same : name = pair.1
  · rw [if_pos same, beq_iff_eq.2 same]
  · rw [if_neg same, beq_eq_false_iff_ne.2 same]
    rfl

/-- What conditions hold under a name is what was given last. -/
theorem mem_ofList {pairs : List (String × α)} :
    (name, value) ∈ (ofList pairs).entries ↔ lastValue? pairs name = some value := by
  induction pairs using List.reverseRecOn with
  | nil => exact iff_of_false List.not_mem_nil nofun
  | append_singleton pairs pair ih =>
    obtain ⟨name', last⟩ := pair
    rw [ofList_append, insert, mem_insertInto (ofList_ordered pairs), ih, lastValue?_append]
    by_cases same : name = name'
    · simp [same, eq_comm]
    · simp [same]

/-! ## Unknowns in the place of names -/

section
variable [Device δ α] (device : δ)

/-- The unknowns of the entries that have one, with their values. -/
def placed (entries : List (String × α)) : List (Nat × α) :=
  entries.filterMap fun entry ↦ (Device.unknown? device entry.1).map (·, entry.2)

theorem mem_placed {pair : Nat × α} :
    pair ∈ placed device entries ↔
      ∃ name, (name, pair.2) ∈ entries ∧ Device.unknown? device name = some pair.1 := by
  obtain ⟨i, value⟩ := pair
  rw [placed, List.mem_filterMap]
  constructor
  · rintro ⟨⟨name, value'⟩, there, same⟩
    obtain ⟨i', found, same⟩ := Option.map_eq_some_iff.1 same
    cases same
    exact ⟨name, there, found⟩
  · rintro ⟨name, there, found⟩
    exact ⟨(name, value), there, Option.map_eq_some_iff.2 ⟨i, found, rfl⟩⟩

/-- Locating the names succeeds if and only if all of them are known. -/
theorem locate_eq_ok_iff {pairs : List (Nat × α)} :
    locate device entries = .ok pairs ↔
      (∀ entry ∈ entries, (Device.unknown? device entry.1).isSome = true) ∧
        pairs = placed device entries := by
  induction entries generalizing pairs with
  | nil =>
    refine ⟨fun run ↦ ?_, fun ⟨_, same⟩ ↦ same ▸ rfl⟩
    cases run
    exact ⟨nofun, rfl⟩
  | cons entry rest ih =>
    rw [locate, List.mapM_cons, List.forall_mem_cons, placed, List.filterMap_cons]
    rw [← locate, ← placed]
    cases found : Device.unknown? device entry.1 with
    | none =>
      refine iff_of_false (fun run ↦ ?_) fun known ↦ Bool.false_ne_true known.1.1
      cases run
    | some i =>
      rw [bind_eq_ok]
      constructor
      · rintro ⟨_, ⟨⟩, run⟩
        obtain ⟨others, located, same⟩ := bind_eq_ok.1 run
        cases same
        obtain ⟨known, rfl⟩ := ih.1 located
        exact ⟨⟨rfl, known⟩, rfl⟩
      · rintro ⟨⟨-, known⟩, rfl⟩
        exact ⟨_, rfl, bind_eq_ok.2 ⟨_, ih.2 ⟨known, rfl⟩, rfl⟩⟩

/-- The unknowns are distinct if and only if no two names share one. -/
theorem nodup_placed_iff (ordered : Ordered entries) :
    ((placed device entries).map Prod.fst).Nodup ↔
      ∀ entry ∈ entries, ∀ entry' ∈ entries, ∀ i, Device.unknown? device entry.1 = some i →
        Device.unknown? device entry'.1 = some i → entry = entry' := by
  have unknowns : (placed device entries).map Prod.fst =
      entries.filterMap fun entry ↦ Device.unknown? device entry.1 := by
    rw [placed, List.map_filterMap]
    refine List.filterMap_congr fun entry _ ↦ ?_
    rw [Option.map_map]
    exact Option.map_id'
  have distinct : entries.Nodup := by
    have ordered : entries.Pairwise fun e e' ↦ e.1 < e'.1 := ordered
    refine ordered.imp fun before same ↦ ?_
    rw [same] at before
    exact lt_irrefl _ before
  rw [unknowns, List.Nodup, List.pairwise_filterMap]
  constructor
  · intro apart entry there entry' there' i found found'
    by_contra differ
    have : Std.Symm fun e e' : String × α ↦ ∀ i, Device.unknown? device e.1 = some i →
        ∀ i', Device.unknown? device e'.1 = some i' → i ≠ i' :=
      ⟨fun _ _ apart i found i' found' ↦ (apart i' found' i found).symm⟩
    exact apart.forall there there' differ i found i found' rfl
  · intro apart
    refine distinct.pairwise_of_forall_ne ?_
    intro entry there entry' there' differ i found i' found'
    rintro rfl
    exact differ (apart entry there entry' there' i found found')

end

/-! ## Sorting by the unknowns -/

/-- The pairs in the order of their indices. -/
def byIndex (pairs : List (Nat × α)) : List (Nat × α) :=
  pairs.foldl (fun sorted pair ↦ insertByIndex pair sorted) []

theorem insertByIndex_perm (pair : Nat × α) (l : List (Nat × α)) :
    (insertByIndex pair l).Perm (pair :: l) := by
  induction l with
  | nil => exact .refl _
  | cons head rest ih =>
    unfold insertByIndex
    split
    · exact (ih.cons head).trans (.swap pair head rest)
    · exact .refl _

theorem insertByIndex_sorted {pair : Nat × α} {l : List (Nat × α)}
    (sorted : l.Pairwise (·.1 ≤ ·.1)) : (insertByIndex pair l).Pairwise (·.1 ≤ ·.1) := by
  induction l with
  | nil => exact List.pairwise_singleton _ _
  | cons head rest ih =>
    obtain ⟨later, sorted'⟩ := List.pairwise_cons.1 sorted
    unfold insertByIndex
    split
    · rename_i before
      refine List.pairwise_cons.2 ⟨fun p there ↦ ?_, ih sorted'⟩
      obtain rfl | old := List.mem_cons.1 ((insertByIndex_perm pair rest).mem_iff.1 there)
      · exact before
      · exact later p old
    · rename_i after
      have first : pair.1 ≤ head.1 := Nat.le_of_not_le after
      exact List.pairwise_cons.2
        ⟨List.forall_mem_cons.2 ⟨first, fun p there ↦ first.trans (later p there)⟩, sorted⟩

theorem byIndex_append (pairs : List (Nat × α)) (pair : Nat × α) :
    byIndex (pairs ++ [pair]) = insertByIndex pair (byIndex pairs) := List.foldl_append

theorem byIndex_perm (pairs : List (Nat × α)) : (byIndex pairs).Perm pairs := by
  induction pairs using List.reverseRecOn with
  | nil => exact .refl _
  | append_singleton pairs pair ih =>
    rw [byIndex_append]
    have inserted := (insertByIndex_perm pair _).trans (ih.cons pair)
    exact inserted.trans (List.perm_append_singleton pair pairs).symm

theorem byIndex_sorted (pairs : List (Nat × α)) : (byIndex pairs).Pairwise (·.1 ≤ ·.1) := by
  induction pairs using List.reverseRecOn with
  | nil => exact .nil
  | append_singleton pairs pair ih =>
    rw [byIndex_append]
    exact insertByIndex_sorted ih

/-- In a list that is sorted, two with the same index would be neighbours. -/
theorem hasTwin_eq_false_iff {l : List (Nat × α)} (sorted : l.Pairwise (·.1 ≤ ·.1)) :
    hasTwin l = false ↔ (l.map Prod.fst).Pairwise (· < ·) := by
  induction l with
  | nil => exact iff_of_true rfl .nil
  | cons a rest ih =>
    obtain ⟨later, sorted'⟩ := List.pairwise_cons.1 sorted
    cases rest with
    | nil => exact iff_of_true rfl (List.pairwise_singleton _ _)
    | cons b rest =>
      obtain ⟨later', -⟩ := List.pairwise_cons.1 sorted'
      rw [hasTwin, Bool.or_eq_false_iff, beq_eq_false_iff_ne, ih sorted']
      show _ ↔ (a.1 :: (b :: rest).map Prod.fst).Pairwise (· < ·)
      rw [List.pairwise_cons, List.forall_mem_map]
      refine and_congr_left fun _ ↦ ⟨fun differ ↦ ?_, fun before ↦ ?_⟩
      · have before : a.1 < b.1 := Nat.lt_of_le_of_ne (later b List.mem_cons_self) differ
        exact List.forall_mem_cons.2 ⟨before, fun p there ↦ before.trans_le (later' p there)⟩
      · exact Nat.ne_of_lt (before b List.mem_cons_self)

/-! ## Resolving -/

section
variable [Device δ α] {device : δ} {c : InitialConditions α}

/-- What resolving has found out if it succeeds, and what it answers. -/
theorem of_resolve {p : Partition} {vs : List α} (run : c.resolve device = .ok (p, vs)) :
    (∀ entry ∈ c.entries, (Device.unknown? device entry.1).isSome = true) ∧
    ((placed device c.entries).map Prod.fst).Nodup ∧
    (∀ pair ∈ placed device c.entries, pair.1 < Device.unknowns device) ∧
    p.indices = (byIndex (placed device c.entries)).map Prod.fst ∧
    p.bound = Device.unknowns device ∧
    vs = (byIndex (placed device c.entries)).map Prod.snd := by
  obtain ⟨pairs, located, run⟩ := bind_eq_ok.1 run
  obtain ⟨known, rfl⟩ := (locate_eq_ok_iff device).1 located
  have perm := byIndex_perm (placed device c.entries)
  dsimp only at run
  rw [← byIndex] at run
  split at run
  · cases run
  · rename_i distinct
    rw [Bool.not_eq_true, hasTwin_eq_false_iff (byIndex_sorted _)] at distinct
    obtain ⟨p', built, same⟩ := bind_eq_ok.1 run
    cases same
    obtain ⟨indices, bound, below⟩ := Partition.of_ofList built
    refine ⟨known, ?_, fun pair there ↦ ?_, ?_, bound, rfl⟩
    · exact (perm.map Prod.fst).nodup_iff.1 (distinct.imp Nat.ne_of_lt)
    · exact below pair.1 (List.mem_map_of_mem (perm.mem_iff.2 there))
    · rw [indices, IndexSet.sorted_of_increasing distinct]

theorem exists_resolve
    (known : ∀ entry ∈ c.entries, (Device.unknown? device entry.1).isSome = true)
    (distinct : ((placed device c.entries).map Prod.fst).Nodup)
    (below : ∀ pair ∈ placed device c.entries, pair.1 < Device.unknowns device) :
    ∃ p vs, c.resolve device = .ok (p, vs) := by
  have perm := byIndex_perm (placed device c.entries)
  have sorted := byIndex_sorted (placed device c.entries)
  have inBounds : ∀ i ∈ (byIndex (placed device c.entries)).map Prod.fst,
      i < Device.unknowns device := by
    rw [List.forall_mem_map]
    exact fun pair there ↦ below pair (perm.mem_iff.1 there)
  obtain ⟨p, built⟩ := Partition.exists_ofList inBounds
  have twins : hasTwin (byIndex (placed device c.entries)) = false := by
    rw [hasTwin_eq_false_iff sorted]
    have sorted : ((byIndex (placed device c.entries)).map Prod.fst).Pairwise (· ≤ ·) :=
      List.pairwise_map.2 sorted
    have distinct := (perm.map Prod.fst).nodup_iff.2 distinct
    exact (sorted.and distinct).imp fun h ↦ Nat.lt_of_le_of_ne h.1 h.2
  refine ⟨p, (byIndex (placed device c.entries)).map Prod.snd, ?_⟩
  refine bind_eq_ok.2 ⟨_, (locate_eq_ok_iff device).2 ⟨known, rfl⟩, ?_⟩
  dsimp only
  rw [← byIndex, twins, if_neg Bool.false_ne_true]
  exact bind_eq_ok.2 ⟨p, built, rfl⟩

/-! ## The whole answer -/

variable (device) in
/-- What is given for an unknown: the value under its name. -/
def GivenAt (pairs : List (String × α)) (i : Nat) (value : α) : Prop :=
  ∃ name, lastValue? pairs name = some value ∧ Device.unknown? device name = some i

theorem mem_placed_ofList {pairs : List (String × α)} {pair : Nat × α} :
    pair ∈ placed device (ofList pairs).entries ↔ GivenAt device pairs pair.1 pair.2 := by
  rw [mem_placed]
  exact exists_congr fun name ↦ and_congr_left' mem_ofList

/-- Conditions resolve if and only if each name has an unknown of the device layer, and no other
name has the same. -/
theorem exists_resolve_iff {pairs : List (String × α)} :
    (∃ p vs, (ofList pairs).resolve device = .ok (p, vs)) ↔
      (∀ name value, lastValue? pairs name = some value →
        ∃ i, Device.unknown? device name = some i ∧ i < Device.unknowns device) ∧
      ∀ name name' i, (lastValue? pairs name).isSome = true →
        (lastValue? pairs name').isSome = true → Device.unknown? device name = some i →
        Device.unknown? device name' = some i → name = name' := by
  have ordered := ofList_ordered pairs
  constructor
  · rintro ⟨p, vs, run⟩
    obtain ⟨known, distinct, below, -⟩ := of_resolve run
    rw [nodup_placed_iff device ordered] at distinct
    refine ⟨fun name value given ↦ ?_, fun name name' i given given' found found' ↦ ?_⟩
    · obtain ⟨i, found⟩ := Option.isSome_iff_exists.1 (known _ (mem_ofList.2 given))
      exact ⟨i, found, below (i, value) (mem_placed_ofList.2 ⟨name, given, found⟩)⟩
    · obtain ⟨value, given⟩ := Option.isSome_iff_exists.1 given
      obtain ⟨value', given'⟩ := Option.isSome_iff_exists.1 given'
      exact congrArg Prod.fst
        (distinct _ (mem_ofList.2 given) _ (mem_ofList.2 given') i found found')
  · rintro ⟨known, apart⟩
    refine exists_resolve (fun entry there ↦ ?_) ?_ fun pair there ↦ ?_
    · obtain ⟨i, found, -⟩ := known entry.1 entry.2 (mem_ofList.1 there)
      exact Option.isSome_iff_exists.2 ⟨i, found⟩
    · rw [nodup_placed_iff device ordered]
      intro entry there entry' there' i found found'
      have given : lastValue? pairs entry.1 = some entry.2 := mem_ofList.1 there
      have given' : lastValue? pairs entry'.1 = some entry'.2 := mem_ofList.1 there'
      have same := apart entry.1 entry'.1 i (given ▸ rfl) (given' ▸ rfl) found found'
      rw [same, given'] at given
      exact Prod.ext same (Option.some.inj given).symm
    · obtain ⟨name, given, found⟩ := mem_placed_ofList.1 there
      obtain ⟨i, found', inside⟩ := known name pair.2 given
      rw [found] at found'
      cases found'
      exact inside

/-- The unknowns and their values go together place by place. -/
theorem getElem?_resolve {pairs : List (String × α)} {p : Partition} {vs : List α}
    (run : (ofList pairs).resolve device = .ok (p, vs)) (i : Nat) (value : α) :
    (∃ k : Nat, p.indices[k]? = some i ∧ vs[k]? = some value) ↔ GivenAt device pairs i value := by
  obtain ⟨-, -, -, indices, -, values⟩ := of_resolve run
  have zipped : p.indices.zip vs = byIndex (placed device (ofList pairs).entries) := by
    rw [indices, values, List.zip_map']
    exact List.map_id _
  have there : (i, value) ∈ p.indices.zip vs ↔ GivenAt device pairs i value := by
    rw [zipped, (byIndex_perm _).mem_iff, mem_placed_ofList]
  rw [← there, List.mem_iff_getElem?]
  exact exists_congr fun k ↦ (List.getElem?_zip_eq_some (z := (i, value))).symm

/-- **Initial conditions resolve exactly.**  Whatever is given by name, and whatever the device
layer: resolving succeeds if and only if each name has an unknown of the device layer and no other
name has the same.  Then the unknowns are in order, there is a value for each, and the values in
their places are those that are given for the unknowns, and no others.

Imposed on any solution they are there, and what is not given is what it was. -/
theorem resolve_exact (device : δ) (pairs : List (String × α)) :
    ((∃ p vs, (ofList pairs).resolve device = .ok (p, vs)) ↔
      (∀ name value, lastValue? pairs name = some value →
        ∃ i, Device.unknown? device name = some i ∧ i < Device.unknowns device) ∧
      ∀ name name' i, (lastValue? pairs name).isSome = true →
        (lastValue? pairs name').isSome = true → Device.unknown? device name = some i →
        Device.unknown? device name' = some i → name = name') ∧
    ∀ p vs, (ofList pairs).resolve device = .ok (p, vs) →
      p.indices.Pairwise (· < ·) ∧ p.bound = Device.unknowns device ∧
      vs.length = p.indices.length ∧
      (∀ (i : Nat) value, (∃ k : Nat, p.indices[k]? = some i ∧ vs[k]? = some value) ↔
        GivenAt device pairs i value) ∧
      ∃ clamp, Clamp.ofValues p vs = .ok clamp ∧
        ∀ x : Vector α (Device.unknowns device), ∃ x', clamp.impose x = .ok x' ∧
          ∀ i : Fin (Device.unknowns device),
            (∀ value, GivenAt device pairs i value → x'.get i = value) ∧
            ((∀ value, ¬GivenAt device pairs i value) → x'.get i = x.get i) := by
  refine ⟨exists_resolve_iff, fun p vs run ↦ ?_⟩
  obtain ⟨-, -, below, indices, bound, values⟩ := of_resolve run
  have length : vs.length = p.indices.length := by
    rw [indices, values, List.length_map, List.length_map]
  refine ⟨p.members.increasing, bound, length, getElem?_resolve run,
    ⟨p, vs, length⟩, dif_pos length, fun x ↦ ?_⟩
  have fits : ∀ i ∈ (⟨p, vs, length⟩ : Clamp α).rows, i < Device.unknowns device :=
    fun i held ↦ bound ▸ p.below_bound i held
  obtain ⟨x', imposed, holds, others⟩ := Clamp.exists_impose fits x
  refine ⟨x', imposed, fun i ↦ ⟨fun value given ↦ ?_, fun free ↦ ?_⟩⟩
  · obtain ⟨k, place⟩ := (getElem?_resolve run i value).2 given
    have place := (List.getElem?_zip_eq_some (z := (i.val, value))).2 place
    exact holds.get (List.mem_of_getElem? place) rfl
  · have foreign : i.val ∉ (⟨p, vs, length⟩ : Clamp α).rows := by
      intro held
      obtain ⟨value, there⟩ := Clamp.exists_pair held
      obtain ⟨k, place⟩ := List.mem_iff_getElem?.1 there
      exact free value ((getElem?_resolve run i value).1
        ⟨k, List.getElem?_zip_eq_some.1 place⟩)
    have same := others i foreign
    rw [Array.getElem?_eq_getElem (by rw [x'.size_toArray]; exact i.isLt),
      Array.getElem?_eq_getElem (by rw [x.size_toArray]; exact i.isLt)] at same
    exact Option.some.inj same

end

/-- Two nodes whose names are not in the order of their unknowns, one of them given twice. -/
theorem resolve_exact_crossed :
    let circuit : Circuit := { Circuit.bare with unknowns := 2, names := [("a", 1), ("b", 0)] }
    let pairs : List (String × Float) := [("b", 5.0), ("a", 7.0), ("b", 6.0)]
    ∃ p vs, (ofList pairs).resolve circuit = .ok (p, vs) ∧ p.indices = [0, 1] ∧
      ∃ k : Nat, p.indices[k]? = some 0 ∧ vs[k]? = some 6.0 := by
  intro circuit pairs
  have there : ((ofList pairs).resolve circuit).toOption.isSome = true := by decide +kernel
  cases run : (ofList pairs).resolve circuit with
  | error => rw [run] at there; cases there
  | ok answer =>
    obtain ⟨p, vs⟩ := answer
    obtain ⟨-, -, -, values, -⟩ := (resolve_exact circuit pairs).2 p vs run
    have indices := (of_resolve run).2.2.2.1
    refine ⟨p, vs, rfl, indices, ?_⟩
    exact (values 0 6.0).2 ⟨"b", rfl, rfl⟩

end InitialConditions

end OperatingPoint
