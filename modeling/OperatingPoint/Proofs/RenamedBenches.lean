import OperatingPoint.Proofs.BenchCommands
import OperatingPoint.Proofs.RenamedRuns

/-!
# Benches under other identities and numbers

Two benches run in step if the tracks of the one are those of the other under other identities and
other numbers.  A command to a track of the one does to it what the same command, sent to the new
number, does to the track of the other, and answers the same; where the answer is the number of a
track, it is the new number.

The second bench may have a track more, to which no number of the first one leads.
-/

set_option autoImplicit false

namespace OperatingPoint

open Step

variable {δ α : Type} [Scalar α] [DirectSolver α] {n : Nat} {β : Type} {ρ σ : Nat → Nat}

namespace Bench

/-! ## Commands to other numbers -/

/-- The same command for the track of another number. -/
def Command.renumber (σ : Nat → Nat) : Command α n β → Command α n β
  | .add x => .add x
  | .addZero => .addZero
  | .deepClone k => .deepClone (σ k)
  | .shallowClone k => .shallowClone (σ k)
  | .retire k => .retire (σ k)
  | .setPrevious x => .setPrevious x
  | .setX k x => .setX (σ k) x
  | .moveAlong k base d length => .moveAlong (σ k) base d length
  | .invalidate k => .invalidate (σ k)
  | .invalidateDerivatives k => .invalidateDerivatives (σ k)
  | .computeResidual k => .computeResidual (σ k)
  | .computeJacobian k => .computeJacobian (σ k)
  | .computeNewton k mayReuse => .computeNewton (σ k) mayReuse
  | .computeGradient k => .computeGradient (σ k)
  | .residual k => .residual (σ k)
  | .direction k => .direction (σ k)
  | .gradient k => .gradient (σ k)
  | .jacobian k => .jacobian (σ k)
  | .isValid k qs => .isValid (σ k) qs
  | .applyJacobian k v length => .applyJacobian (σ k) v length
  | .applyTranspose k v length => .applyTranspose (σ k) v length
  | .setParameter k name value => .setParameter (σ k) name value
  | .pushParameter k name value => .pushParameter (σ k) name value
  | .removeParameter k name => .removeParameter (σ k) name
  | .setForwarding k forwarding => .setForwarding (σ k) forwarding
  | .attach k a => .attach (σ k) a
  | .detach k => .detach (σ k)
  | .reattach k => .reattach (σ k)
  | .acceptPseudoStep k norm => .acceptPseudoStep (σ k) norm
  | .halvePseudoStep k => .halvePseudoStep (σ k)
  | .attachBlend k start => .attachBlend (σ k) start
  | .detachBlend k => .detachBlend (σ k)
  | .succeed k => .succeed (σ k)
  | .fail k => .fail (σ k)
  | .reset => .reset
  | .begin k => .begin (σ k)
  | .advance k => .advance (σ k)
  | .solve k => .solve (σ k)
  | .step k stepper => .step (σ k) stepper
  | .march k options => .march (σ k) options

/-- An answer, which is the number of a track if the command has put one on the bench. -/
def Command.renumberAnswer (σ : Nat → Nat) : Command α n β → β → β
  | .add _, k => σ k
  | .addZero, k => σ k
  | .deepClone _, k => σ k
  | .shallowClone _, k => σ k
  | _, b => b

omit [DirectSolver α] in
/-- The same command for the same track. -/
theorem Command.renumber_renumber {σ' : Nat → Nat} (c : Command α n β)
    (back : ∀ k, c.track? = some k → σ (σ' k) = k) :
    (c.renumber σ').renumber σ = c := by
  cases c with
  | add | addZero | setPrevious | reset => rfl
  | _ k => simp only [Command.renumber, back k rfl]

/-! ## Benches in step -/

variable [Device δ α]

/-- A bench, and the same bench under other identities and other numbers, of which one more was
given out. -/
structure Renamed (ρ σ : Nat → Nat) (b b' : Bench δ α n) : Prop where
  store : b.store.Renamed ρ b'.store
  newton : b'.newton = b.newton
  held : b'.held = b.held
  size : b'.tracks.size = b.tracks.size + 1
  way : MakesWay σ b.tracks.size
  live : ∀ {k t}, b.Live k t →
    ∃ t', b'.Live (σ k) t' ∧ Rig.Renamed ρ ⟨b.store, t⟩ ⟨b'.store, t'⟩
  back : ∀ {k t'}, b'.Live (σ k) t' → ∃ t, b.Live k t

namespace Renamed

variable {b b' : Bench δ α n} {k : Nat} {t t' : Track α n}

theorem ne (h : b.Renamed ρ σ b') {k' : Nat} (other : k' ≠ k) : σ k' ≠ σ k :=
  fun same ↦ other (h.way.injective same)

/-- A track is replaced, or taken off the bench. -/
theorem replace (h : b.Renamed ρ σ b') (live : b.Live k t) {s s' : Store δ α n}
    (store : s.Renamed ρ s') {newton newton' : Newton α} (driver : newton' = newton)
    {x x' : Option (Track α n)}
    (there : ∀ t, x = some t → ∃ t', x' = some t' ∧ Rig.Renamed ρ ⟨s, t⟩ ⟨s', t'⟩)
    (gone : x = none → x' = none) :
    Renamed ρ σ { b.replace k x with store := s, newton := newton }
      { b'.replace (σ k) x' with store := s', newton := newton' } where
  store := store
  newton := driver
  held := h.held
  size := by
    show (b'.tracks.setIfInBounds _ _).size = (b.tracks.setIfInBounds _ _).size + 1
    rw [Array.size_setIfInBounds, Array.size_setIfInBounds]
    exact h.size
  way := by
    show MakesWay σ (b.tracks.setIfInBounds _ _).size
    rw [Array.size_setIfInBounds]
    exact h.way
  live := by
    intro k₁ t₁ live₁
    rcases live_replace live₁ with ⟨rfl, same⟩ | ⟨other, old⟩
    · obtain ⟨t₁', same', renamed⟩ := there t₁ same
      obtain ⟨t', live', _⟩ := h.live live
      refine ⟨t₁', ?_, renamed⟩
      rw [same']
      exact Array.getElem?_setIfInBounds_self_of_lt live'.lt
    · obtain ⟨t₁', live₁', renamed⟩ := h.live old
      exact ⟨t₁', live_replace_of_ne live₁' (h.ne other) _, store, renamed.track, renamed.notes⟩
  back := by
    intro k₁ t₁' live₁'
    rcases live_replace live₁' with ⟨same, there'⟩ | ⟨other, old⟩
    · cases h.way.injective same
      cases x with
      | none => cases (gone rfl).symm.trans there'
      | some t₁ =>
        exact ⟨t₁, Array.getElem?_setIfInBounds_self_of_lt live.lt⟩
    · obtain ⟨t₁, live₁⟩ := h.back old
      exact ⟨t₁, live_replace_of_ne live₁ (fun same ↦ other (congrArg σ same)) _⟩

theorem withEngine (h : b.Renamed ρ σ b') (live : b.Live k t) {e e' : Engine δ α n}
    (renamed : e.Renamed ρ e') : (b.withEngine k e).Renamed ρ σ (b'.withEngine (σ k) e') := by
  refine h.replace live renamed.rig.store renamed.newton (fun t₁ same ↦ ?_) nofun
  cases same
  exact ⟨_, rfl, renamed.rig⟩

/-- The store changes, and no track does. -/
theorem withStore (h : b.Renamed ρ σ b') {s s' : Store δ α n} (store : s.Renamed ρ s') :
    Renamed ρ σ { b with store := s } { b' with store := s' } where
  store := store
  newton := h.newton
  held := h.held
  size := h.size
  way := h.way
  live live := by
    obtain ⟨t', live', renamed⟩ := h.live live
    exact ⟨t', live', store, renamed.track, renamed.notes⟩
  back := h.back

/-- The Newton driver and the strategy that is held are nobody's. -/
theorem beside (h : b.Renamed ρ σ b') {newton newton' : Newton α} (driver : newton' = newton)
    (held : Option (Augmentation α)) :
    Renamed ρ σ { b with newton := newton, held := held }
      { b' with newton := newton', held := held } :=
  ⟨h.store, driver, rfl, h.size, h.way, h.live, h.back⟩

/-- A track comes up. -/
theorem push (h : b.Renamed ρ σ b') {s s' : Store δ α n} {t t' : Track α n}
    (renamed : Rig.Renamed ρ ⟨s, t⟩ ⟨s', t'⟩) :
    Renamed ρ σ { b with store := s, tracks := b.tracks.push (some t) }
      { b' with store := s', tracks := b'.tracks.push (some t') } where
  store := renamed.store
  newton := h.newton
  held := h.held
  size := by
    show (b'.tracks.push _).size = (b.tracks.push _).size + 1
    rw [Array.size_push, Array.size_push, h.size]
  way := by
    show MakesWay σ (b.tracks.push _).size
    rw [Array.size_push]
    exact h.way.later (Nat.le_succ _)
  live := by
    intro k₁ t₁ live₁
    rcases live_push live₁ with ⟨rfl, rfl⟩ | old
    · have last : σ b.tracks.size = b'.tracks.size :=
        (h.way.beyond _ (Nat.le_refl _)).trans h.size.symm
      exact ⟨t', last ▸ live_push_self b' s' t', renamed⟩
    · obtain ⟨t₁', live₁', renamed₁⟩ := h.live old
      exact ⟨t₁', live_push_of_live live₁' s' t', renamed.store, renamed₁.track, renamed₁.notes⟩
  back := by
    intro k₁ t₁' live₁'
    rcases live_push live₁' with ⟨last, _⟩ | old
    · have last : σ k₁ = σ b.tracks.size :=
        last.trans (h.size.trans (h.way.beyond _ (Nat.le_refl _)).symm)
      cases h.way.injective last
      exact ⟨t, live_push_self b s t⟩
    · obtain ⟨t₁, live₁⟩ := h.back old
      exact ⟨t₁, live_push_of_live live₁ s t⟩

end Renamed

/-! ## One command -/

section

variable {k : Nat} {γ γ' : Type} {V : γ → γ' → Prop}

/-- What is done with a track is done with the track of the new number, or both numbers lead to no
track. -/
theorem matches_track {next : Track α n → Step (Bench δ α n) γ}
    {next' : Track α n → Step (Bench δ α n) γ'}
    (h : ∀ {b b' : Bench δ α n} {t t'}, b.Renamed ρ σ b' → b.Live k t → b'.Live (σ k) t' →
      Rig.Renamed ρ ⟨b.store, t⟩ ⟨b'.store, t'⟩ → Alike (Renamed ρ σ) V (next t b) (next' t' b')) :
    Matches (Renamed ρ σ) V (track k >>= next) (track (σ k) >>= next') := by
  intro b b' renamed
  by_cases there : ∃ t, b.Live k t
  · obtain ⟨t, live⟩ := there
    obtain ⟨t', live', same⟩ := renamed.live live
    rw [bind_of_ok (track_of_live live), bind_of_ok (track_of_live live')]
    exact h renamed live live' same
  · have there' : ¬ ∃ t', b'.Live (σ k) t' := fun ⟨_, live'⟩ ↦ there (renamed.back live')
    rw [bind_of_error (track_of_dead there), bind_of_error (track_of_dead there')]
    exact .error renamed

theorem matches_onEngine {act : Step (Engine δ α n) β}
    (h : Matches (Engine.Renamed ρ) Eq act act) :
    Matches (Renamed ρ σ) Eq (onEngine k act) (onEngine (σ k) act) :=
  matches_track fun renamed live _ same ↦ .zoom (h _ _ ⟨same, renamed.newton⟩)
    fun _ _ engines ↦ renamed.withEngine live engines

theorem matches_onRig {act : Step (Rig δ α n) β} (h : Matches (Rig.Renamed ρ) Eq act act) :
    Matches (Renamed ρ σ) Eq (onRig k act) (onRig (σ k) act) :=
  matches_onEngine (Engine.matches_onRig h)

theorem matches_modifyTrack {change : Track α n → Track α n}
    (impersonal : Track.Impersonal change) :
    Matches (Renamed ρ σ) Eq (modifyTrack k change : Step (Bench δ α n) Unit)
      (modifyTrack (σ k) change) :=
  matches_onRig (Rig.matches_modifyTrack impersonal)

theorem matches_changeTrack {ask : Track α n → Except Fault (β × Track α n)}
    (impersonal : Track.ImpersonalAsk ask) :
    Matches (Renamed ρ σ) Eq (changeTrack k ask : Step (Bench δ α n) β) (changeTrack (σ k) ask) :=
  matches_onRig (Rig.matches_ask impersonal)

theorem matches_view {read : Iterate α n → Store δ α n → Except Fault β}
    (h : ∀ {r r' : Rig δ α n}, r.Renamed ρ r' →
      read r'.track.iterate r'.store = read r.track.iterate r.store) :
    Matches (Renamed ρ σ) Eq (view k read : Step (Bench δ α n) β) (view (σ k) read) := by
  refine matches_onRig (.get_bind fun r r' renamed ↦ ?_)
  rw [h renamed]
  exact .orFault _

/-- A track comes up under the next number. -/
theorem Renamed.put {b b' : Bench δ α n} (h : b.Renamed ρ σ b')
    {make make' : Store δ α n → Track α n × Store δ α n}
    (renamed : Rig.Renamed ρ ⟨(make b.store).2, (make b.store).1⟩
      ⟨(make' b'.store).2, (make' b'.store).1⟩) :
    Alike (Renamed ρ σ) (fun k k' ↦ σ k = k') (put make b) (put make' b') :=
  .ok ((h.way.beyond _ (Nat.le_refl _)).trans h.size.symm) (h.push renamed)

end

/-- A track comes up at a solution, with nothing known there. -/
theorem renamed_new {s s' : Store δ α n} (h : s.Renamed ρ s') (x : Vector α n) (o : Overlay α) :
    Rig.Renamed ρ ⟨(Iterate.new s x).2, { iterate := (Iterate.new s x).1, overlay := o }⟩
      ⟨(Iterate.new s' x).2, { iterate := (Iterate.new s' x).1, overlay := o }⟩ where
  store := h.register.2
  track := by
    show ({ iterate := { id := s'.register.1, x := x }, overlay := o } : Track α n) = _
    rw [h.register.1]
    rfl
  notes := .same rfl

theorem renamed_deepClone {s s' : Store δ α n} {t t' : Track α n}
    (h : Rig.Renamed ρ ⟨s, t⟩ ⟨s', t'⟩) :
    Rig.Renamed ρ ⟨(t.deepClone s).2, (t.deepClone s).1⟩
      ⟨(t'.deepClone s').2, (t'.deepClone s').1⟩ where
  store := by
    have moved := h.store.register.2.transfer t.iterate.id s.register.1
    have id : ρ t.iterate.id = t'.iterate.id := (congrArg Iterate.id h.iterate).symm
    rw [← h.store.register.1, id] at moved
    exact moved
  track := by
    show ({ t' with iterate := { t'.iterate with id := s'.register.1 }, captured := none } :
      Track α n) = _
    have track : t' = t.under (ρ t.iterate.id) t'.captured := h.track
    rw [h.store.register.1, track]
    rfl
  notes := .same rfl

/-- A command does the same to the track of the new number, and answers the same. -/
theorem matches_perform (c : Command α n β) :
    Matches (Renamed ρ σ) (fun a a' ↦ c.renumberAnswer σ a = a')
      (perform c : Step (Bench δ α n) β) (perform (c.renumber σ)) := by
  cases c <;> dsimp only [Command.renumber, Command.renumberAnswer, perform]
  case add x =>
    refine .bind (.orFault _) ?_
    rintro x _ rfl b b' h
    exact h.put (renamed_new h.store x {})
  case addZero =>
    intro b b' h
    exact h.put (renamed_new h.store _ {})
  case deepClone k => exact matches_track fun h _ _ same ↦ h.put (renamed_deepClone same)
  case shallowClone k =>
    refine matches_track fun {b b' t t'} h _ _ same ↦ h.put ?_
    unfold Track.shallowClone
    rw [show t'.overlay = t.overlay from same.overlay]
    exact renamed_new h.store _ _
  case retire k =>
    refine matches_track fun {b b' t t'} h live _ same ↦ .ok rfl ?_
    have id : t'.iterate.id = ρ t.iterate.id := congrArg Iterate.id same.iterate
    have released := h.store.release t.iterate.id
    rw [← id] at released
    exact h.replace live released h.newton (fun _ same ↦ by cases same) fun _ ↦ rfl
  case setPrevious x =>
    exact .andThen (.orFault _) fun x ↦ .modify fun b b' h ↦ h.withStore (h.store.setPrevious x)
  case setX k x =>
    exact matches_onRig (.andThen (.orFault _) fun x ↦ Rig.matches_modifyTrack (.setX x))
  case moveAlong k base direction step =>
    refine matches_onRig ?_
    by_cases sizes : base.size = n ∧ direction.size = n
    · rw [dif_pos sizes]
      exact Rig.matches_modifyTrack ⟨fun _ _ _ ↦ rfl, fun _ ↦ Nat.le_succ _⟩
    · rw [dif_neg sizes]
      exact .throw _
  case invalidate k => exact matches_modifyTrack ⟨fun _ _ _ ↦ rfl, fun _ ↦ Nat.le_succ _⟩
  case invalidateDerivatives k =>
    exact matches_onRig (Rig.matches_modifyTrack ⟨fun _ _ _ ↦ rfl, fun _ ↦ Nat.le_refl _⟩)
  case computeResidual k => exact matches_onRig Rig.matches_computeResidual
  case computeJacobian k => exact matches_onRig Rig.matches_computeJacobian
  case computeNewton k mayReuse => exact matches_onRig (Rig.matches_computeNewton mayReuse)
  case computeGradient k => exact matches_onRig Rig.matches_computeGradient
  case residual k => exact matches_view fun h ↦ congrArg _ h.residual
  case direction k => exact matches_view fun h ↦ congrArg _ h.newton
  case gradient k => exact matches_view fun h ↦ congrArg _ h.gradient
  case jacobian k =>
    exact matches_track fun h _ _ _ ↦ .ok (congrArg Store.jacobian h.store.same).symm h
  case isValid k qs => exact matches_view fun h ↦ congrArg _ (h.isValid qs)
  case applyJacobian k v length =>
    exact .andThen (.lift _) fun _ ↦ matches_view fun h ↦ congrArg _ (h.applyJacobian v length)
  case applyTranspose k v length =>
    exact .andThen (.lift _) fun _ ↦ matches_view fun h ↦ congrArg _ (h.applyTranspose v length)
  case setParameter k name value => exact matches_modifyTrack (.setParameter name value)
  case pushParameter k name value => exact matches_onRig (Rig.matches_pushParameter name value)
  case removeParameter k name =>
    exact matches_changeTrack (.of_change (.removeParameter name) fun o ↦ o.parameters.get? name)
  case setForwarding k forwarding => exact matches_modifyTrack (.setForwarding forwarding)
  case attach k a => exact matches_changeTrack (.attach a)
  case detach k =>
    refine matches_track fun {b b' t t'} h _ _ same ↦ ?_
    rw [show t'.overlay = t.overlay from same.overlay]
    suffices rest : Matches (Renamed ρ σ) Eq _ _ from rest b b' h
    refine .andThen (matches_modifyTrack .detach) fun _ ↦ ?_
    exact .andThen (.modify fun b b' h ↦ h.beside h.newton _) fun _ ↦ .pure rfl
  case reattach k =>
    refine .get_bind fun b b' h ↦ ?_
    rw [h.held]
    cases b.held with
    | none => exact .throw _
    | some a =>
      refine .andThen (.modify fun b b' h ↦ h.beside h.newton none) fun _ ↦ ?_
      exact matches_changeTrack (.attach a)
  case acceptPseudoStep k norm => exact matches_changeTrack (.acceptPseudoStep norm)
  case halvePseudoStep k => exact matches_changeTrack .halvePseudoStep
  case attachBlend k start => exact matches_modifyTrack ⟨fun _ _ _ ↦ rfl, fun _ ↦ Nat.le_succ _⟩
  case detachBlend k =>
    exact matches_changeTrack (.of_change .detachBlend fun o ↦ o.blend.map Blend.lambda)
  case succeed k => exact matches_onRig Rig.matches_succeed
  case fail k => exact matches_onRig Rig.matches_fail
  case reset =>
    exact .modify fun b b' h ↦ ⟨h.store, congrArg Newton.reset h.newton, h.held, h.size, h.way,
      h.live, h.back⟩
  case begin k => exact matches_onEngine Engine.matches_begin
  case advance k => exact matches_onEngine Engine.matches_advance
  case solve k => exact matches_onEngine Engine.matches_solve
  case step k stepper => exact matches_onEngine stepper.matches_run
  case march k options => exact matches_onRig (March.matches_run options)

/-! ## Commands in a row -/

/-- The same history for tracks of other numbers. -/
def renumberAll (σ : Nat → Nat) (history : List (Request α n)) : List (Request α n) :=
  history.map fun request ↦ ⟨request.1, request.2.renumber σ⟩

/-- Benches in step are in step after a history. -/
theorem Renamed.run {b b' : Bench δ α n} (h : b.Renamed ρ σ b') (history : List (Request α n)) :
    (b.run history).Renamed ρ σ (b'.run (renumberAll σ history)) := by
  induction history generalizing b b' with
  | nil => exact h
  | cons request rest ih => exact ih (matches_perform request.2 _ _ h).after

end Bench

end OperatingPoint
