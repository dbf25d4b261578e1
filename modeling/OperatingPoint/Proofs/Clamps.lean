import OperatingPoint.Proofs.ExactScalars
import OperatingPoint.Proofs.NullRows
import OperatingPoint.Proofs.Overlays

/-!
# What a clamp does to the equations

A clamp moves the iterate to where it holds it, and replaces the rows of the held unknowns by those
of the identity and their residuals by the distance from the held values.  In exact arithmetic there
is no such distance where the iterate is held, so that the residual is zero in those rows.  A
conductance to reference that is laid over the same rows does not matter, since the clamp has the
last word.

A direction that is zero in the held rows leaves the unknowns where they are.
-/

set_option autoImplicit false

namespace OperatingPoint

open Step

/-! ## Clamps -/

namespace Clamp

variable {α : Type} {n : Nat} {c : Clamp α}

/-- The unknowns of a clamp are where they are held. -/
def Holds (c : Clamp α) (x : Array α) : Prop := ∀ pair ∈ c.pairs, x[pair.1]? = some pair.2

/-- The unknowns that are held. -/
def rows (c : Clamp α) : List Nat := c.partition.indices

theorem exists_pair {i : Nat} (held : i ∈ c.rows) : ∃ v, (i, v) ∈ c.pairs := by
  obtain ⟨k, bound, rfl⟩ := List.mem_iff_getElem.1 held
  have bound' : k < c.values.length := c.length_eq ▸ bound
  refine ⟨c.values[k], List.mem_iff_getElem.2 ⟨k, ?_, ?_⟩⟩
  · rw [pairs, List.length_zip]
    exact Nat.lt_min.2 ⟨bound, bound'⟩
  · exact List.getElem_zip

theorem mem_rows {pair : Nat × α} (there : pair ∈ c.pairs) : pair.1 ∈ c.rows :=
  (List.of_mem_zip there).1

theorem mem_values {pair : Nat × α} (there : pair ∈ c.pairs) : pair.2 ∈ c.values :=
  (List.of_mem_zip there).2

theorem nodup_pairs (c : Clamp α) : (c.pairs.map Prod.fst).Nodup := by
  rw [pairs, List.map_fst_zip (Nat.le_of_eq c.length_eq.symm)]
  exact c.partition.members.increasing.imp Nat.ne_of_lt

theorem Holds.get {x : Vector α n} (h : c.Holds x.toArray) {pair : Nat × α}
    (there : pair ∈ c.pairs) {i : Fin n} (same : i.val = pair.1) : x.get i = pair.2 := by
  have entry := h pair there
  rw [← same, Array.getElem?_eq_getElem (by rw [x.size_toArray]; exact i.isLt)] at entry
  exact Option.some.inj entry

theorem holds_of_get {x : Vector α n} (fits : ∀ pair ∈ c.pairs, pair.1 < n)
    (h : ∀ pair ∈ c.pairs, ∀ i : Fin n, i.val = pair.1 → x.get i = pair.2) :
    c.Holds x.toArray := by
  intro pair there
  have bound := fits pair there
  rw [Array.getElem?_eq_getElem (by rw [x.size_toArray]; exact bound)]
  exact congrArg some (h pair there ⟨pair.1, bound⟩ rfl)

theorem Holds.fits {x : Vector α n} (h : c.Holds x.toArray) : ∀ pair ∈ c.pairs, pair.1 < n := by
  intro pair there
  obtain ⟨bound, -⟩ := Array.getElem?_eq_some_iff.1 (h pair there)
  rwa [x.size_toArray] at bound

/-- Entries written at different places are there afterwards, and the others are what they were. -/
theorem writeAll_written {pairs : List (Nat × α)} (distinct : (pairs.map Prod.fst).Nodup)
    {x x' : Vector α n} (run : writeAll pairs x = .ok x') :
    (∀ pair ∈ pairs, x'.toArray[pair.1]? = some pair.2) ∧
      ∀ k, k ∉ pairs.map Prod.fst → x'.toArray[k]? = x.toArray[k]? := by
  induction pairs generalizing x with
  | nil =>
    cases run
    exact ⟨nofun, fun _ _ ↦ rfl⟩
  | cons pair rest ih =>
    rw [List.map_cons, List.nodup_cons] at distinct
    obtain ⟨x₁, wrote, run⟩ := bind_eq_ok.1 run
    obtain ⟨later, others⟩ := ih distinct.2 run
    unfold writeAt at wrote
    split at wrote
    · rename_i bound
      cases wrote
      refine ⟨List.forall_mem_cons.2 ⟨?_, later⟩, fun k foreign ↦ ?_⟩
      · rw [others _ distinct.1, Vector.toArray_set,
          Array.getElem?_set_self (by rw [x.size_toArray]; exact bound)]
      · rw [List.map_cons, List.mem_cons, not_or] at foreign
        rw [others _ foreign.2, Vector.toArray_set,
          Array.getElem?_set_ne (by rw [x.size_toArray]; exact bound) (Ne.symm foreign.1)]
    · cases wrote

/-- A clamp moves a solution to where it holds it. -/
theorem impose_holds {x x' : Vector α n} (run : c.impose x = .ok x') : c.Holds x'.toArray :=
  (writeAll_written c.nodup_pairs run).1

theorem impose_error {x : Vector α n} {stop : Stop} (run : c.impose x = .error stop) :
    ∃ i ∈ c.rows, n ≤ i :=
  writeAll_stops (Q := fun _ ↦ ∃ i ∈ c.rows, n ≤ i)
    (fun pair there outside ↦ ⟨pair.1, mem_rows there, outside⟩) x stop run

/-- A clamp on unknowns that are there moves these, and nothing else. -/
theorem exists_impose (fits : ∀ i ∈ c.rows, i < n) (x : Vector α n) :
    ∃ x', c.impose x = .ok x' ∧ c.Holds x'.toArray ∧
      ∀ k, k ∉ c.rows → x'.toArray[k]? = x.toArray[k]? := by
  cases run : c.impose x with
  | error stop =>
    obtain ⟨i, held, outside⟩ := impose_error run
    exact absurd (fits i held) (Nat.not_lt.2 outside)
  | ok x' =>
    refine ⟨x', rfl, impose_holds run, fun k free ↦ ?_⟩
    refine (writeAll_written c.nodup_pairs run).2 k fun held ↦ free ?_
    obtain ⟨pair, there, rfl⟩ := List.mem_map.1 held
    exact mem_rows there

variable [Scalar α]

/-- Where a clamp holds the solution, it leaves no residual. -/
theorem augmentResidual_zero (exact : Scalar.Exact α)
    (finite : ∀ v ∈ c.values, Scalar.isFinite v = true) {x f f' : Vector α n}
    (holds : c.Holds x.toArray) (run : c.augmentResidual x f = .ok f') {i : Fin n}
    (held : i.val ∈ c.rows) : f'.get i = 0 := by
  have written : ∀ (pairs : List (Nat × α)) (f f' : Vector α n), (∀ pair ∈ pairs, pair ∈ c.pairs) →
      pairs.foldlM (fun f pair ↦ do writeAt f pair.1 ((← readAt x pair.1) - pair.2)) f = .ok f' →
      (f.get i = 0 ∨ i.val ∈ pairs.map Prod.fst) → f'.get i = 0 := by
    intro pairs
    induction pairs with
    | nil =>
      intro f f' _ run so_far
      cases run
      exact so_far.resolve_right nofun
    | cons pair rest ih =>
      intro f f' all run so_far
      rw [List.forall_mem_cons] at all
      rw [List.foldlM_cons] at run
      obtain ⟨f₁, step, run⟩ := bind_eq_ok.1 run
      refine ih f₁ f' all.2 run ?_
      obtain ⟨v, read, wrote⟩ := bind_eq_ok.1 step
      unfold writeAt at wrote
      split at wrote
      · rename_i bound
        cases wrote
        have entry : ∀ u, (f.set pair.1 u bound).get i = if pair.1 = i.val then u else f.get i :=
          fun u ↦ (get_set f ⟨pair.1, bound⟩ i u).trans (by simp only [Fin.ext_iff])
        by_cases own : pair.1 = i.val
        · -- The entry is where it is held.
          left
          unfold readAt at read
          rw [dif_pos bound] at read
          cases read
          have there : x[pair.1] = pair.2 := holds.get all.1 (i := ⟨pair.1, bound⟩) rfl
          rw [entry, if_pos own, there, exact.sub_self (finite _ (mem_values all.1))]
        · rw [entry, if_neg own]
          rw [List.map_cons, List.mem_cons] at so_far
          exact so_far.imp_right fun h ↦ h.resolve_left (Ne.symm own)
      · cases wrote
  obtain ⟨v, there⟩ := exists_pair held
  exact written c.pairs f f' (fun _ h ↦ h) run (.inr (List.mem_map_of_mem there))

/-- A clamp leaves rows of the identity. -/
theorem augmentJacobian_plain {A A' : Mat α n n} (run : c.augmentJacobian A = .ok A') :
    A'.PlainIn c.rows := by
  have written : ∀ (is done : List Nat) (A A' : Mat α n n),
      is.foldlM (fun A i ↦ A.setIdentityRow i) A = .ok A' → A.PlainIn done →
      A'.PlainIn (done ++ is) := by
    intro is
    induction is with
    | nil =>
      intro done A A' run plain
      cases run
      rwa [List.append_nil]
    | cons k is ih =>
      intro done A A' run plain
      rw [List.foldlM_cons] at run
      obtain ⟨A₁, wrote, run⟩ := bind_eq_ok.1 run
      rw [List.append_cons]
      refine ih _ A₁ A' run fun i listed j ↦ ?_
      unfold Mat.setIdentityRow at wrote
      split at wrote
      · cases wrote
        rw [Mat.setRow_apply]
        split
        · rename_i own
          subst own
          rfl
        · rename_i other
          refine plain i ((List.mem_append.1 listed).resolve_right fun own ↦ ?_) j
          exact other (Fin.ext (List.mem_singleton.1 own).symm)
      · cases wrote
  exact written c.rows [] A A' run fun _ h ↦ nomatch h

end Clamp

/-! ## Strategies with a clamp -/

namespace Augmentation

variable {α : Type} [Scalar α] {n : Nat} {a a' : Augmentation α} {c : Clamp α}

/-- The clamp of those strategies that have one. -/
def clamp? : Augmentation α → Option (Clamp α)
  | clamp c => some c
  | clampWithGmin _ c => some c
  | _ => none

theorem clamp?_frame (a : Augmentation α) : a.frame.clamp? = a.clamp? := by cases a <;> rfl

/-- The clamp has the last word on a residual. -/
theorem augmentResidual_zero (exact : Scalar.Exact α) (clamped : a.clamp? = some c)
    (finite : ∀ v ∈ c.values, Scalar.isFinite v = true) {x f f' : Vector α n}
    (holds : c.Holds x.toArray) (run : a.augmentResidual x f = .ok (a', f')) {i : Fin n}
    (held : i.val ∈ c.rows) : f'.get i = 0 := by
  cases a with
  | clamp c' =>
    cases clamped
    obtain ⟨_, run, same⟩ := bind_eq_ok.1 run
    cases same
    exact Clamp.augmentResidual_zero exact finite holds run held
  | clampWithGmin g c' =>
    cases clamped
    obtain ⟨_, _, run⟩ := bind_eq_ok.1 run
    obtain ⟨_, run, same⟩ := bind_eq_ok.1 run
    cases same
    exact Clamp.augmentResidual_zero exact finite holds run held
  | gmin | pseudoTransient | seed => cases clamped

/-- The clamp has the last word on a Jacobian. -/
theorem augmentJacobian_plain (clamped : a.clamp? = some c) {A A' : Mat α n n} {load : Nat}
    (run : a.augmentJacobian A load = .ok (a', A')) : A'.PlainIn c.rows := by
  cases a with
  | clamp c' =>
    cases clamped
    obtain ⟨_, run, same⟩ := bind_eq_ok.1 run
    cases same
    exact Clamp.augmentJacobian_plain run
  | clampWithGmin g c' =>
    cases clamped
    obtain ⟨⟨_, _⟩, _, run⟩ := bind_eq_ok.1 run
    obtain ⟨_, run, same⟩ := bind_eq_ok.1 run
    cases same
    exact Clamp.augmentJacobian_plain run
  | gmin | pseudoTransient | seed => cases clamped

end Augmentation

namespace Overlay

variable {α : Type} [Scalar α] {n : Nat} {o o' : Overlay α} {F : Augmentation α} {c : Clamp α}

theorem exists_clamp (frame : o.strategy.map Augmentation.frame = some F)
    (clamped : F.clamp? = some c) : ∃ a, o.strategy = some a ∧ a.clamp? = some c := by
  obtain ⟨a, attached, rfl⟩ := Option.map_eq_some_iff.1 frame
  exact ⟨a, attached, a.clamp?_frame ▸ clamped⟩

theorem augmentResidual_zero (exact : Scalar.Exact α)
    (frame : o.strategy.map Augmentation.frame = some F) (clamped : F.clamp? = some c)
    (unblended : o.blend = none) (finite : ∀ v ∈ c.values, Scalar.isFinite v = true)
    {x f f' : Vector α n} (holds : c.Holds x.toArray)
    (run : o.augmentResidual x f = .ok (o', f')) {i : Fin n} (held : i.val ∈ c.rows) :
    f'.get i = 0 := by
  obtain ⟨a, attached, clamped⟩ := exists_clamp frame clamped
  rw [augmentResidual_some attached] at run
  obtain ⟨⟨a', f₁⟩, changed, same⟩ := bind_eq_ok.1 run
  rw [blendResidual, unblended] at same
  cases same
  exact Augmentation.augmentResidual_zero exact clamped finite holds changed held

theorem augmentJacobian_plain (frame : o.strategy.map Augmentation.frame = some F)
    (clamped : F.clamp? = some c) (unblended : o.blend = none) {A A' : Mat α n n} {load : Nat}
    (run : o.augmentJacobian load A = .ok (o', A')) : A'.PlainIn c.rows := by
  obtain ⟨a, attached, clamped⟩ := exists_clamp frame clamped
  rw [augmentJacobian_some attached] at run
  obtain ⟨⟨a', A₁⟩, changed, same⟩ := bind_eq_ok.1 run
  rw [blendJacobian, unblended] at same
  cases same
  exact Augmentation.augmentJacobian_plain clamped changed

end Overlay

/-- The maximum over all ranks is no zero where this rank contributes a one. -/
def Communicator.Hears {α : Type} [Scalar α] (c : Communicator α) : Prop :=
  (c.max 0 (1 : α) == (0 : α)) = false

theorem Communicator.Hears.finite {α : Type} [Scalar α] {n : Nat} {c : Communicator α}
    (hears : c.Hears) {x : Vector α n} (all : c.allFinite x.toArray = true) (i : Fin n) :
    Scalar.isFinite (x.get i) = true := by
  unfold allFinite at all
  split at all
  · rename_i finite
    rw [Array.all_eq_true] at finite
    exact finite i.val (by rw [x.size_toArray]; exact i.isLt)
  · rw [hears] at all
    cases all

/-! ## Directions that leave the unknowns where they are held -/

namespace Clamp

variable {α : Type} [Scalar α] {n : Nat} {c : Clamp α} {base direction : Vector α n} {step : α}

/-- A vector is zero in the held rows. -/
def Still (c : Clamp α) (v : Vector α n) : Prop := ∀ i : Fin n, i.val ∈ c.rows → v.get i = 0

theorem still_zeros (c : Clamp α) : c.Still (zeros α n) := fun i _ ↦ get_replicate 0 i

theorem Still.rightHandSide (exact : Scalar.Exact α) {f : Vector α n} (h : c.Still f) :
    c.Still (Store.rightHandSide f) := by
  intro i held
  rw [Store.rightHandSide, get_ofFn, h i held, exact.neg_zero]

theorem Holds.addScaled (exact : Scalar.Exact α)
    (finite : ∀ v ∈ c.values, Scalar.isFinite v = true) (h : c.Holds base.toArray)
    (still : c.Still direction) (length : Scalar.isFinite step = true) :
    c.Holds (addScaled base step direction).toArray := by
  refine holds_of_get h.fits fun pair there i same ↦ ?_
  have held := h.get there same
  rw [OperatingPoint.addScaled, get_ofFn, still i (same ▸ mem_rows there), exact.mul_zero length,
    held, exact.add_zero (finite _ (mem_values there))]

end Clamp

end OperatingPoint
