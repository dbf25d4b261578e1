import OperatingPoint.Proofs.Coherence
import OperatingPoint.Proofs.Histories

/-!
# Identities on a bench

The tracks of a bench act under identities that the store has given out, each under one of its own,
and no quantity is owned under any other.  That is so as long as whoever does something spares the
others, which is `Store.Spares`; and then a quantity that another track still owns afterwards is one
that it owned before.
-/

set_option autoImplicit false

namespace OperatingPoint

variable {δ α : Type} [Scalar α] [DirectSolver α] {n : Nat}

omit [Scalar α] in
/-- Nothing in the store survives a change of the previous point. -/
theorem Store.setPrevious_owner (s : Store δ α n) (x : Vector α n) (q : Quantity) :
    (s.setPrevious x).owners.of q = none := by
  simp [Store.setPrevious, Store.disown, Quantity.mem_all]

namespace Bench

/-- The tracks differ in their identities, and only identities that were given out own anything. -/
structure Registered (b : Bench δ α n) : Prop where
  known : ∀ k t, b.Live k t → t.iterate.id ≤ b.store.lastId
  distinct : ∀ k k' t t', b.Live k t → b.Live k' t' → t.iterate.id = t'.iterate.id → k = k'
  owners : ∀ q id, b.store.owners.of q = some id → id ≤ b.store.lastId

theorem empty_registered (device : δ) (communicator : Communicator α) (linear : LinearOptions α)
    (newton : Newton α) : (empty device communicator linear newton n).Registered where
  known k t live := by cases live
  distinct k k' t t' live := by cases live
  owners q id owned := by cases q <;> cases owned

namespace Registered

variable {b : Bench δ α n} {k : Nat} {t : Track α n}

/-- An identity on the bench is not the next one to be given out. -/
theorem ne_next (h : b.Registered) (live : b.Live k t) : t.iterate.id ≠ b.store.lastId + 1 :=
  Nat.ne_of_lt (Nat.lt_succ_of_le (h.known k t live))

/-- Tracks of different numbers have different identities. -/
theorem ne (h : b.Registered) {k' : Nat} {t' : Track α n} (live : b.Live k t)
    (live' : b.Live k' t') (other : k' ≠ k) : t'.iterate.id ≠ t.iterate.id :=
  fun same ↦ other (h.distinct k' k t' t live' live same)

/-- A track does something that spares the others. -/
theorem withEngine (h : b.Registered) (live : b.Live k t) {e : Engine δ α n}
    (id : e.rig.track.iterate.id = t.iterate.id)
    (spares : b.store.Spares t.iterate.id e.rig.store) : (b.withEngine k e).Registered where
  known k' t' live' := by
    refine Nat.le_trans ?_ spares.lastId
    rcases live_replace live' with ⟨_, same⟩ | ⟨_, old⟩
    · cases same
      rw [id]
      exact h.known k t live
    · exact h.known k' t' old
  distinct k₁ k₂ t₁ t₂ live₁ live₂ same := by
    rcases live_replace live₁ with ⟨rfl, same₁⟩ | ⟨_, old₁⟩
    · cases same₁
      rcases live_replace live₂ with ⟨rfl, _⟩ | ⟨_, old₂⟩
      · rfl
      · exact h.distinct k₁ k₂ t t₂ live old₂ (id ▸ same)
    · rcases live_replace live₂ with ⟨rfl, same₂⟩ | ⟨_, old₂⟩
      · cases same₂
        exact h.distinct k₁ k₂ t₁ t old₁ live (id ▸ same)
      · exact h.distinct k₁ k₂ t₁ t₂ old₁ old₂ same
  owners q id owned := by
    refine Nat.le_trans ?_ spares.lastId
    rcases Nat.decEq id t.iterate.id with other | mine
    · exact h.owners q id (spares.others q id other owned).1
    · exact mine ▸ h.known k t live

/-- A new track comes up. -/
theorem push (h : b.Registered) {s : Store δ α n} (id : t.iterate.id = b.store.lastId + 1)
    (lastId : s.lastId = b.store.lastId + 1) (spares : b.store.Spares t.iterate.id s) :
    Registered { b with store := s, tracks := b.tracks.push (some t) } where
  known k' t' live' := by
    rcases live_push live' with ⟨_, rfl⟩ | old
    · exact Nat.le_of_eq (id.trans lastId.symm)
    · exact Nat.le_trans (h.known k' t' old) spares.lastId
  distinct k₁ k₂ t₁ t₂ live₁ live₂ same := by
    rcases live_push live₁ with ⟨rfl, rfl⟩ | old₁
    · rcases live_push live₂ with ⟨rfl, _⟩ | old₂
      · rfl
      · exact absurd (same.symm.trans id) (h.ne_next old₂)
    · rcases live_push live₂ with ⟨rfl, rfl⟩ | old₂
      · exact absurd (same.trans id) (h.ne_next old₁)
      · exact h.distinct k₁ k₂ t₁ t₂ old₁ old₂ same
  owners q j owned := by
    rcases Nat.decEq j t.iterate.id with other | mine
    · exact Nat.le_trans (h.owners q j (spares.others q j other owned).1) spares.lastId
    · exact Nat.le_of_eq (mine.trans (id.trans lastId.symm))

/-- A track goes. -/
theorem retire (h : b.Registered) (live : b.Live k t) :
    Registered { b.replace k none with store := b.store.release t.iterate.id } where
  known k' t' live' := h.known k' t' (live_of_retired live').2
  distinct k₁ k₂ t₁ t₂ live₁ live₂ same :=
    h.distinct k₁ k₂ t₁ t₂ (live_of_retired live₁).2 (live_of_retired live₂).2 same
  owners q id owned := by
    have spares : b.store.Spares t.iterate.id (b.store.release t.iterate.id) := .release ..
    rcases Nat.decEq id t.iterate.id with other | mine
    · exact h.owners q id (spares.others q id other owned).1
    · exact mine ▸ h.known k t live

/-- The solution of the previous point changes. -/
theorem setPrevious (h : b.Registered) (x : Vector α n) :
    Registered { b with store := b.store.setPrevious x } where
  known := h.known
  distinct := h.distinct
  owners q id owned := by
    rw [Store.setPrevious_owner] at owned
    cases owned

/-- What a copy owns was owned by the original. -/
theorem owner_of_copy (h : b.Registered) {q : Quantity}
    (owned : (t.deepClone b.store).2.owners.of q = some (b.store.lastId + 1)) :
    b.store.owners.of q = some t.iterate.id := by
  have owned : (b.store.owners.putAll (b.store.register.2.ownedBy t.iterate.id)
    (some (b.store.lastId + 1))).of q = some (b.store.lastId + 1) := owned
  rw [Owners.of_putAll] at owned
  split at owned
  · rename_i moved
    exact Store.Spares.mem_ownedBy.1 moved
  · exact absurd (h.owners q _ owned) (Nat.not_succ_le_self _)

/-- What is valid for a copy was valid for the original. -/
theorem isValid_of_copy (h : b.Registered) {q : Quantity}
    (valid : (t.deepClone b.store).1.iterate.isValid (t.deepClone b.store).2 q = true) :
    t.iterate.isValid b.store q = true := by
  rw [Iterate.isValid_iff] at valid ⊢
  exact ⟨valid.1, h.owner_of_copy valid.2⟩

theorem spares_deepClone (b : Bench δ α n) (t : Track α n) :
    b.store.Spares (b.store.lastId + 1) (t.deepClone b.store).2 :=
  (Store.Spares.register b.store _).trans (.transfer ..)

end Registered

end Bench

end OperatingPoint
