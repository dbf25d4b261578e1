import OperatingPoint.Bench
import OperatingPoint.Proofs.Endings

/-!
# Histories of a bench

What is said of a bench is said of any history of it: a list of commands, each carried out where the
one before it has ended, whether or not it has stopped.  A property that every command keeps is one
that every bench has that is ever reached.
-/

set_option autoImplicit false

namespace OperatingPoint

open Step

variable {δ α : Type} [Scalar α] [DirectSolver α] {n : Nat}

namespace Bench

/-- The track of a number is on the bench. -/
def Live (b : Bench δ α n) (k : Nat) (t : Track α n) : Prop := b.tracks[k]? = some (some t)

/-- A track with the store and the Newton driver of the bench. -/
def engine (b : Bench δ α n) (t : Track α n) : Engine δ α n := ⟨⟨b.store, t⟩, b.newton⟩

/-- The bench with another track of a number, and another store and Newton driver. -/
def withEngine (b : Bench δ α n) (k : Nat) (e : Engine δ α n) : Bench δ α n :=
  { b.replace k (some e.rig.track) with store := e.rig.store, newton := e.newton }

theorem ends_track {k : Nat} {b : Bench δ α n} {done : Track α n → Bench δ α n → Prop}
    {stopped : Stop → Bench δ α n → Prop} (live : ∀ t, b.Live k t → done t b)
    (dead : (∀ t, ¬ b.Live k t) → stopped .breach b) : Ends (track k) b done stopped := by
  unfold track
  simp only [ends_bind, ends_get]
  split
  · rename_i t h
    exact live t h
  · rename_i h
    exact dead h

theorem track_of_live {k : Nat} {b : Bench δ α n} {t : Track α n} (live : b.Live k t) :
    track k b = .ok t b := by
  unfold track
  rw [get_bind, live]
  rfl

theorem track_of_dead {k : Nat} {b : Bench δ α n} (dead : ¬ ∃ t, b.Live k t) :
    track k b = .error .breach b := by
  unfold track
  rw [get_bind]
  cases there : b.tracks[k]? with
  | none => rfl
  | some t =>
    cases t with
    | none => rfl
    | some t => exact absurd ⟨t, there⟩ dead

theorem ends_onEngine {β : Type} {k : Nat} {act : Step (Engine δ α n) β} {b : Bench δ α n}
    {done : β → Bench δ α n → Prop} {stopped : Stop → Bench δ α n → Prop}
    (live : ∀ t, b.Live k t → Ends act (b.engine t)
      (fun x e ↦ done x (b.withEngine k e)) (fun s e ↦ stopped s (b.withEngine k e)))
    (dead : (∀ t, ¬ b.Live k t) → stopped .breach b) :
    Ends (onEngine k act) b done stopped := by
  unfold onEngine
  rw [ends_bind]
  exact ends_track (fun t h ↦ ends_zoom.2 (live t h)) dead

theorem ends_onRig {β : Type} {k : Nat} {act : Step (Rig δ α n) β} {b : Bench δ α n}
    {done : β → Bench δ α n → Prop} {stopped : Stop → Bench δ α n → Prop}
    (live : ∀ t, b.Live k t → Ends act ⟨b.store, t⟩
      (fun x r ↦ done x (b.withEngine k ⟨r, b.newton⟩))
      (fun s r ↦ stopped s (b.withEngine k ⟨r, b.newton⟩)))
    (dead : (∀ t, ¬ b.Live k t) → stopped .breach b) : Ends (onRig k act) b done stopped :=
  ends_onEngine (fun t h ↦ ends_zoom.2 (live t h)) dead

theorem live_replace {b : Bench δ α n} {k k' : Nat} {t : Option (Track α n)} {t' : Track α n}
    (h : (b.replace k t).Live k' t') : (k' = k ∧ t = some t') ∨ (k' ≠ k ∧ b.Live k' t') := by
  unfold Live replace at h
  rw [Array.getElem?_setIfInBounds] at h
  split at h
  · rename_i same
    split at h
    · exact .inl ⟨same.symm, Option.some.inj h⟩
    · cases h
  · rename_i other
    exact .inr ⟨Ne.symm other, h⟩

theorem Live.lt {b : Bench δ α n} {k : Nat} {t : Track α n} (live : b.Live k t) :
    k < b.tracks.size :=
  (Array.getElem?_eq_some_iff.1 live).1

/-- A number has one track. -/
theorem Live.unique {b : Bench δ α n} {k : Nat} {t t' : Track α n} (live : b.Live k t)
    (live' : b.Live k t') : t' = t :=
  Option.some.inj (Option.some.inj (live'.symm.trans live))

/-- A track is there if something can be checked of it. -/
theorem exists_live {b : Bench δ α n} {k : Nat} {check : Track α n → Bool}
    (h : b.tracks[k]?.join.any check = true) : ∃ t, b.Live k t ∧ check t = true := by
  obtain ⟨t, there, holds⟩ := (Option.any_eq_true _ _).1 h
  exact ⟨t, Option.join_eq_some_iff.1 there, holds⟩

theorem live_withEngine {b : Bench δ α n} {k : Nat} {t : Track α n} (live : b.Live k t)
    (e : Engine δ α n) : (b.withEngine k e).Live k e.rig.track :=
  Array.getElem?_setIfInBounds_self_of_lt live.lt

theorem live_replace_of_ne {b : Bench δ α n} {k k' : Nat} {t' : Track α n} (live : b.Live k' t')
    (other : k' ≠ k) (t : Option (Track α n)) : (b.replace k t).Live k' t' :=
  (Array.getElem?_setIfInBounds_ne (Ne.symm other)).trans live

/-- A track that is still there after another one has gone. -/
theorem live_of_retired {b : Bench δ α n} {s : Store δ α n} {k k' : Nat} {t' : Track α n}
    (h : Live { b.replace k none with store := s } k' t') : k' ≠ k ∧ b.Live k' t' := by
  rcases live_replace h with ⟨_, gone⟩ | old
  · cases gone
  · exact old

theorem live_push {b : Bench δ α n} {t t' : Track α n} {s : Store δ α n} {k : Nat}
    (h : Live { b with store := s, tracks := b.tracks.push (some t) } k t') :
    (k = b.tracks.size ∧ t' = t) ∨ b.Live k t' := by
  unfold Live at h
  rw [Array.getElem?_push] at h
  split at h
  · rename_i last
    exact .inl ⟨last, (Option.some.inj (Option.some.inj h)).symm⟩
  · exact .inr h

theorem live_push_self (b : Bench δ α n) (s : Store δ α n) (t : Track α n) :
    Live { b with store := s, tracks := b.tracks.push (some t) } b.tracks.size t :=
  Array.getElem?_push_size

theorem live_push_of_live {b : Bench δ α n} {k : Nat} {t' : Track α n} (live : b.Live k t')
    (s : Store δ α n) (t : Track α n) :
    Live { b with store := s, tracks := b.tracks.push (some t) } k t' :=
  (Array.getElem?_push_lt live.lt).trans ((Array.getElem?_eq_getElem live.lt).symm.trans live)

/-! ## Commands in a row -/

/-- A command, with the type of its answer. -/
abbrev Request (α : Type) [LE α] (n : Nat) := (β : Type) × Command α n β

/-- A bench at its beginning. -/
def empty (device : δ) (communicator : Communicator α) (linear : LinearOptions α)
    (newton : Newton α) (n : Nat) : Bench δ α n where
  store := Store.new device communicator linear n
  newton := newton

variable [Device δ α]

/-- Carries out a history. -/
def run (b : Bench δ α n) (history : List (Request α n)) : Bench δ α n :=
  history.foldl (fun b request ↦ Step.after (perform request.2) b) b

/-- What every command of a history keeps, the history keeps. -/
theorem run_preserves {I : Bench δ α n → Prop} {b : Bench δ α n} (h : I b)
    {history : List (Request α n)}
    (keeps : ∀ request ∈ history, Preserves (perform (δ := δ) request.2) I) :
    I (b.run history) := by
  induction history generalizing b with
  | nil => exact h
  | cons request rest ih =>
    rw [List.forall_mem_cons] at keeps
    exact ih (keeps.1 b h).after keeps.2

end Bench

end OperatingPoint
