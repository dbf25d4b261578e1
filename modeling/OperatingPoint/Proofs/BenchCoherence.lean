import OperatingPoint.Linear.FullPivot
import OperatingPoint.Proofs.Registered

/-!
# Coherence over every history of a bench

Any number of tracks at one store, and any sequence of commands to them: they come up, are copied,
are moved, compute, and go, in any order, and a command that stops is followed by the next.  What a
track takes for its own belongs to its solution throughout.

Three things beside the promise itself make this inductive.  The identities of the tracks on a bench
differ; no quantity is owned under an identity that has not been given out; and whoever computes
spares the others, which is `Rig.Advances`.
-/

set_option autoImplicit false

namespace OperatingPoint

open Step

variable {δ α : Type} [Scalar α] [DirectSolver α] {n : Nat}

variable [Device δ α] {P : PureDevice δ α} {v : P.View} {afresh afresh' : Bool}

/-- What is left alone stays sound. -/
theorem Rig.Sound.spared {s s' : Store δ α n} {t : Track α n} {id : OwnerId} (h : Rig.Sound P v afresh ⟨s, t⟩)
    (view : P.view s'.device = v) (spares : s.Spares id s') (other : t.iterate.id ≠ id)
    (solve : afresh' = afresh ∨ ∀ j, j ≠ id → s'.owners.of .newton ≠ some j) :
    Rig.Sound P v afresh' ⟨s', t⟩ := by
  have still : ∀ {q : Quantity}, t.iterate.isValid s' q = true →
      t.iterate.isValid s q = true ∧ s.Agrees s' q := by
    intro q valid
    rw [Iterate.isValid_iff] at valid
    obtain ⟨owned, same⟩ := spares.others q _ other valid.2
    exact ⟨Iterate.isValid_iff.2 ⟨valid.1, owned⟩, same⟩
  refine ⟨h.plain, view, ⟨fun valid ↦ ?_, fun valid ↦ ?_, fun valid fresh ↦ ?_, fun valid ↦ ?_⟩,
    fun valid owned ↦ ?_⟩
  · rw [spares.previous]
    exact (still valid).2.trans (h.coherent.residual (still valid).1)
  · rw [spares.previous]
    exact (still valid).2.trans (h.coherent.jacobian (still valid).1)
  · rcases solve with rfl | lost
    · obtain ⟨stats, answer, converged⟩ := h.coherent.newton (still valid).1 fresh
      have same : s'.newton = s.newton := (still valid).2
      refine ⟨stats, ?_, converged⟩
      rw [spares.options, spares.previous, same]
      exact answer
    · exact absurd (Iterate.isValid_iff.1 valid).2 (lost _ other)
  · rw [spares.previous]
    exact (still valid).2.trans (h.coherent.gradient (still valid).1)
  · have rooted := h.rooted (still valid).1 (spares.others .residual _ other owned).1
    exact Iterate.isValid_iff.2 ⟨(Iterate.isValid_iff.1 rooted).1, owned⟩

/-- A track may give up what was computed, or all but the residual. -/
theorem Rig.Sound.giveUp {r : Rig δ α n} (h : r.Sound P v afresh) {it : Iterate α n}
    (id : it.id = r.track.iterate.id) (flags : it.flags = { residual := it.flags.residual })
    (kept : it.flags.residual = .valid →
      it.x = r.track.x ∧ r.track.iterate.flags.residual = .valid) :
    r.Advances P v afresh afresh (r.put r.store it r.track.overlay) where
  id := id
  spares := .refl r.store r.track.iterate.id
  solve := .inl rfl
  sound := by
    refine ⟨h.plain, h.view, ⟨fun valid ↦ ?_, fun valid ↦ ?_, fun valid ↦ ?_, fun valid ↦ ?_⟩,
      fun valid ↦ ?_⟩
    · obtain ⟨up, owned⟩ := Iterate.isValid_iff.1 valid
      obtain ⟨same, up'⟩ := kept up
      rw [put_iterate, same]
      exact h.coherent.residual (Iterate.isValid_iff.2 ⟨up', id ▸ owned⟩)
    all_goals exact absurd valid (Iterate.not_isValid_of_stale (by rw [put_iterate, flags]; rfl))

namespace Bench

/-- Every track of the bench can rely on what it takes for its own. -/
structure Sound (P : PureDevice δ α) (v : P.View) (afresh : Bool) (b : Bench δ α n) : Prop where
  view : P.view b.store.device = v
  track : ∀ k t, b.Live k t → Rig.Sound P v afresh ⟨b.store, t⟩
  known : ∀ k t, b.Live k t → t.iterate.id ≤ b.store.lastId
  distinct : ∀ k k' t t', b.Live k t → b.Live k' t' → t.iterate.id = t'.iterate.id → k = k'
  owners : ∀ q id, b.store.owners.of q = some id → id ≤ b.store.lastId

namespace Sound

variable {b : Bench δ α n}

theorem registered (h : b.Sound P v afresh) : b.Registered := ⟨h.known, h.distinct, h.owners⟩

/-- A track computes, or changes by itself. -/
theorem withEngine (h : b.Sound P v afresh) {k : Nat} {t : Track α n} (live : b.Live k t)
    {e : Engine δ α n} (step : Rig.Advances P v afresh afresh' ⟨b.store, t⟩ e.rig) :
    (b.withEngine k e).Sound P v afresh' := by
  refine { h.registered.withEngine live step.id step.spares with
    view := step.sound.view
    track := fun k' t' live' ↦ ?_ }
  rcases live_replace live' with ⟨_, same⟩ | ⟨other, old⟩
  · cases same
    exact step.sound
  · exact (h.track k' t' old).spared step.sound.view step.spares (h.registered.ne live old other)
      step.solve

/-- A new track comes up. -/
theorem push (h : b.Sound P v afresh) {s : Store δ α n} {t : Track α n}
    (sound : Rig.Sound P v afresh ⟨s, t⟩) (id : t.iterate.id = b.store.lastId + 1)
    (lastId : s.lastId = b.store.lastId + 1) (spares : b.store.Spares t.iterate.id s) :
    Sound P v afresh { b with store := s, tracks := b.tracks.push (some t) } := by
  refine { h.registered.push id lastId spares with
    view := sound.view
    track := fun k' t' live' ↦ ?_ }
  rcases live_push live' with ⟨_, rfl⟩ | old
  · exact sound
  · exact (h.track k' t' old).spared sound.view spares (id ▸ h.registered.ne_next old) (.inl rfl)

/-- A track goes. -/
theorem retire (h : b.Sound P v afresh) {k : Nat} {t : Track α n} (live : b.Live k t) :
    Sound P v afresh { b.replace k none with store := b.store.release t.iterate.id } := by
  refine { h.registered.retire live with
    view := h.view
    track := fun k' t' live' ↦ ?_ }
  obtain ⟨other, old⟩ := live_of_retired live'
  exact (h.track k' t' old).spared h.view (.release ..) (h.registered.ne live old other) (.inl rfl)

/-- The solution of the previous point changes. -/
theorem setPrevious (h : b.Sound P v afresh) (x : Vector α n) :
    Sound P v afresh { b with store := b.store.setPrevious x } := by
  have invalid : ∀ {it : Iterate α n} {q : Quantity},
      ¬ it.isValid (b.store.setPrevious x) q = true := by
    intro it q valid
    rw [Iterate.isValid_iff, Store.setPrevious_owner] at valid
    cases valid.2
  exact { h.registered.setPrevious x with
    view := h.view
    track := fun k t live ↦ {
      plain := (h.track k t live).plain
      view := h.view
      coherent := ⟨fun valid ↦ absurd valid invalid, fun valid ↦ absurd valid invalid,
        fun valid ↦ absurd valid invalid, fun valid ↦ absurd valid invalid⟩
      rooted := fun valid ↦ absurd valid invalid } }

/-- A copy takes over what the original had. -/
theorem deepClone (h : b.Sound P v afresh) {k : Nat} {t : Track α n} (live : b.Live k t) :
    Sound P v afresh { b with
      store := (t.deepClone b.store).2
      tracks := b.tracks.push (some (t.deepClone b.store).1) } := by
  have old := h.track k t live
  refine h.push ⟨old.plain, old.view, ?_, fun valid owned ↦ ?_⟩ rfl rfl
    (Registered.spares_deepClone b t)
  · exact {
      residual := fun valid ↦ old.coherent.residual (h.registered.isValid_of_copy valid)
      jacobian := fun valid ↦ old.coherent.jacobian (h.registered.isValid_of_copy valid)
      newton := fun valid ↦ old.coherent.newton (h.registered.isValid_of_copy valid)
      gradient := fun valid ↦ old.coherent.gradient (h.registered.isValid_of_copy valid) }
  · have rooted := old.rooted (h.registered.isValid_of_copy valid) (h.registered.owner_of_copy owned)
    exact Iterate.isValid_iff.2 ⟨(Iterate.isValid_iff.1 rooted).1, owned⟩

/-- A new track without anything computed comes up. -/
theorem pushNew (h : b.Sound P v afresh) (x : Vector α n) {o : Overlay α} (plain : o.IsPlain) :
    Sound P v afresh { b with
      store := b.store.register.2
      tracks := b.tracks.push (some
        { iterate := (Iterate.new b.store x).1, overlay := o }) } := by
  refine h.push ⟨plain, h.view, ⟨?_, ?_, ?_, ?_⟩, ?_⟩ rfl rfl (.register ..)
  all_goals exact fun valid ↦ absurd valid (Iterate.not_isValid_of_stale rfl)

end Sound

/-! ## Histories -/

/-- Whether a command is one to iterates as such: nothing is laid over the equations, and no Newton
driver is involved. -/
def Command.isBasic {β : Type} : Command α n β → Bool
  | .add _ | .addZero | .deepClone _ | .shallowClone _ | .retire _ | .setPrevious _ | .setX _ _
  | .moveAlong _ _ _ _ | .invalidate _ | .invalidateDerivatives _ | .computeResidual _
  | .computeJacobian _ | .computeNewton _ _ | .computeGradient _ | .residual _ | .direction _
  | .gradient _ | .jacobian _ | .isValid _ _ | .applyJacobian _ _ _ | .applyTranspose _ _ _ => true
  | _ => false

/-- Whether a command is to solve for the Newton direction. -/
def Command.isNewton {β : Type} : Command α n β → Bool
  | .computeNewton _ _ => true
  | _ => false

/-- A step of a track that leaves the rig as an operation of that track may. -/
theorem Sound.onRig {b : Bench δ α n} (h : b.Sound P v afresh) {β : Type} {k : Nat}
    {act : Step (Rig δ α n) β}
    (step : ∀ r : Rig δ α n, r.Sound P v afresh →
      Ends act r (fun _ r' ↦ r.Advances P v afresh afresh r')
        (fun _ r' ↦ r.Advances P v afresh afresh r')) :
    Ends (Bench.onRig k act) b (fun _ b' ↦ b'.Sound P v afresh)
      (fun _ b' ↦ b'.Sound P v afresh) :=
  ends_onRig (fun t live ↦ (step _ (h.track k t live)).mono
    (fun _ _ step ↦ h.withEngine live step) (fun _ _ step ↦ h.withEngine live step)) fun _ ↦ h

theorem Sound.view_track {b : Bench δ α n} (h : b.Sound P v afresh) {β : Type} {k : Nat}
    {read : Iterate α n → Store δ α n → Except Fault β} :
    Ends (Bench.view k read) b (fun _ b' ↦ b'.Sound P v afresh)
      (fun _ b' ↦ b'.Sound P v afresh) := by
  refine h.onRig fun r sound ↦ ?_
  simp only [ends_bind, ends_get, ends_orFault]
  exact ⟨fun _ _ ↦ .refl sound, fun _ _ ↦ .refl sound⟩

/-- A command keeps a bench sound, however it ends. -/
theorem perform_sound {b : Bench δ α n} (h : b.Sound P v afresh) {β : Type} {c : Command α n β}
    (basic : c.isBasic = true) (other : c.isNewton = false) :
    Ends (perform c) b (fun _ b' ↦ b'.Sound P v afresh) (fun _ b' ↦ b'.Sound P v afresh) := by
  cases c with
  | computeResidual k => exact h.onRig fun _ sound ↦ Rig.computeResidual_advances sound
  | computeJacobian k => exact h.onRig fun _ sound ↦ Rig.computeJacobian_advances sound
  | computeGradient k => exact h.onRig fun _ sound ↦ Rig.computeGradient_advances sound
  | add x =>
    simp only [perform, put, ends_bind, ends_get, ends_set, ends_pure, ends_orFault]
    exact ⟨fun x _ ↦ h.pushNew x ⟨rfl, rfl, rfl⟩, fun _ _ ↦ h⟩
  | addZero =>
    simp only [perform, put, ends_bind, ends_get, ends_set, ends_pure]
    exact h.pushNew _ ⟨rfl, rfl, rfl⟩
  | deepClone k =>
    simp only [perform, put, ends_bind, ends_get, ends_set, ends_pure]
    exact ends_track (fun t live ↦ h.deepClone live) fun _ ↦ h
  | shallowClone k =>
    simp only [perform, put, ends_bind, ends_get, ends_set, ends_pure]
    refine ends_track (fun t live ↦ ?_) fun _ ↦ h
    exact h.pushNew _ ⟨rfl, rfl, (h.track k t live).plain.forwarding⟩
  | retire k =>
    simp only [perform, ends_bind, ends_modify]
    exact ends_track (fun t live ↦ h.retire live) fun _ ↦ h
  | setPrevious x =>
    simp only [perform, ends_bind, ends_modify, ends_orFault]
    exact ⟨fun x _ ↦ h.setPrevious x, fun _ _ ↦ h⟩
  | setX k x =>
    refine h.onRig fun r sound ↦ ?_
    simp only [ends_bind, ends_orFault, Rig.ends_modifyTrack]
    exact ⟨fun x _ ↦ sound.giveUp rfl rfl fun up ↦ (by cases up), fun _ _ ↦ .refl sound⟩
  | moveAlong k base direction step =>
    refine h.onRig fun r sound ↦ ?_
    simp only [ends_dite, ends_fault, Rig.ends_modifyIterate]
    exact ⟨fun _ ↦ sound.giveUp rfl rfl fun up ↦ (by cases up), fun _ ↦ .refl sound⟩
  | invalidate k =>
    exact h.onRig fun r sound ↦ sound.giveUp rfl rfl fun up ↦ by cases up
  | invalidateDerivatives k =>
    exact h.onRig fun r sound ↦ sound.giveUp rfl rfl fun up ↦ ⟨rfl, up⟩
  | residual k => rw [perform]; exact h.view_track
  | direction k => rw [perform]; exact h.view_track
  | gradient k => rw [perform]; exact h.view_track
  | isValid k qs => rw [perform]; exact h.view_track
  | jacobian k =>
    simp only [perform, ends_bind, ends_get, ends_pure]
    exact ends_track (fun _ _ ↦ h) fun _ ↦ h
  | applyJacobian k v length =>
    rw [perform, ends_bind, ends_lift]
    exact ⟨fun _ _ ↦ h.view_track, fun _ _ ↦ h⟩
  | applyTranspose k v length =>
    rw [perform, ends_bind, ends_lift]
    exact ⟨fun _ _ ↦ h.view_track, fun _ _ ↦ h⟩
  | computeNewton k mayReuse => cases other
  | _ => cases basic

/-- Whether the last linear solve, after a command, used no factors of an earlier one.  A solve that
is not carried out, because there is a direction already or because it stops, changes nothing. -/
def afreshAfter (b : Bench δ α n) (afresh : Bool) {β : Type} : Command α n β → Bool
  | .computeNewton k mayReuse =>
    match b.tracks[k]? with
    | some (some t) =>
      let r : Rig δ α n := ⟨b.store, t⟩
      if r.isValid .newton then afresh
      else
        match Rig.computeNewton mayReuse r with
        | .ok _ _ => !r.reuses mayReuse
        | .error _ _ => afresh
    | _ => afresh
  | _ => afresh

theorem computeNewton_sound {b : Bench δ α n} (h : b.Sound P v afresh) (k : Nat)
    (mayReuse : Bool) :
    Ends (perform (.computeNewton k mayReuse)) b
      (fun _ b' ↦ b'.Sound P v (b.afreshAfter afresh (.computeNewton k mayReuse)))
      (fun _ b' ↦ b'.Sound P v (b.afreshAfter afresh (.computeNewton k mayReuse))) := by
  refine ends_onRig (fun t live ↦ ?_) fun dead ↦ ?_
  · have step := Rig.computeNewton_advances (h.track k t live) mayReuse
    have track : b.tracks[k]? = some (some t) := live
    refine Ends.of_result
      (R := fun result ↦ Rig.computeNewton mayReuse ⟨b.store, t⟩ = result) rfl ?_ ?_
    · intro ok r' run
      simp only [afreshAfter, track, run]
      exact h.withEngine live (step.ok run)
    · intro e r' run
      simp only [afreshAfter, track, run, ite_self]
      exact h.withEngine live (step.error run)
  · have same : b.afreshAfter afresh (.computeNewton k mayReuse) = afresh := by
      cases track : b.tracks[k]? with
      | none => simp only [afreshAfter, track]
      | some slot =>
        cases slot with
        | none => simp only [afreshAfter, track]
        | some t => exact absurd track (dead t)
    rw [same]
    exact h

/-- A bench, and whether the last linear solve at it used no factors of an earlier one. -/
structure Watched (δ α : Type) [LE α] [DirectSolver α] (n : Nat) where
  bench : Bench δ α n
  afresh : Bool := false

/-- Carries out a command and goes on from where it ends. -/
def Watched.perform (w : Watched δ α n) (request : Request α n) : Watched δ α n where
  bench := Step.after (Bench.perform request.2) w.bench
  afresh := w.bench.afreshAfter w.afresh request.2

/-- Carries out a history. -/
def Watched.run (w : Watched δ α n) (history : List (Request α n)) : Watched δ α n :=
  history.foldl perform w

theorem Watched.perform_sound {w : Watched δ α n} (h : w.bench.Sound P v w.afresh)
    {request : Request α n} (basic : request.2.isBasic = true) :
    (w.perform request).bench.Sound P v (w.perform request).afresh := by
  obtain ⟨β, c⟩ := request
  cases newton : c.isNewton with
  | true =>
    cases c with
    | computeNewton k mayReuse => exact (computeNewton_sound h k mayReuse).after
    | _ => cases newton
  | false =>
    have same : w.bench.afreshAfter w.afresh c = w.afresh := by
      cases c with
      | computeNewton k mayReuse => cases newton
      | _ => rfl
    show Sound P v (w.bench.afreshAfter w.afresh c) (Step.after (Bench.perform c) w.bench)
    rw [same]
    exact (Bench.perform_sound h basic newton).after

theorem Watched.run_sound {w : Watched δ α n} (h : w.bench.Sound P v w.afresh)
    {history : List (Request α n)} (basic : ∀ request ∈ history, request.2.isBasic = true) :
    (w.run history).bench.Sound P v (w.run history).afresh := by
  induction history generalizing w with
  | nil => exact h
  | cons request rest ih =>
    rw [List.forall_mem_cons] at basic
    exact ih (w.perform_sound h basic.1) basic.2

theorem empty_sound (P : PureDevice δ α) (device : δ) (communicator : Communicator α)
    (linear : LinearOptions α) (newton : Newton α) :
    (empty device communicator linear newton n).Sound P (P.view device) afresh :=
  { empty_registered device communicator linear newton with
    view := rfl
    track := fun k t live ↦ by cases live }

/-- **Coherence.**  Whatever the history of a bench at a pure device layer, and whatever of it failed:
what a track takes for its own residual, Jacobian, gradient or direction belongs to its solution, a
direction unless the last linear solve reused factors.  No quantity is valid for two tracks. -/
theorem coherent_of_history (P : PureDevice δ α) (device : δ) (communicator : Communicator α)
    (linear : LinearOptions α) (newton : Newton α) (history : List (Request α n))
    (basic : ∀ request ∈ history, request.2.isBasic = true) :
    let w := Watched.run { bench := empty device communicator linear newton n } history
    (∀ k t, w.bench.Live k t →
      Coherent P (P.view device) w.afresh w.bench.store t.iterate) ∧
    ∀ (q : Quantity) (k k' : Nat) (t t' : Track α n), w.bench.Live k t → w.bench.Live k' t' →
      t.iterate.isValid w.bench.store q = true → t'.iterate.isValid w.bench.store q = true →
        k = k' := by
  intro w
  have sound : w.bench.Sound P (P.view device) w.afresh :=
    Watched.run_sound (w := { bench := empty device communicator linear newton n })
      (empty_sound P device communicator linear newton) basic
  refine ⟨fun k t live ↦ (sound.track k t live).coherent, ?_⟩
  intro q k k' t t' live live' valid valid'
  have owner := (Iterate.isValid_iff.1 valid).2
  have owner' := (Iterate.isValid_iff.1 valid').2
  exact sound.distinct k k' t t' live live' (Option.some.inj (owner.symm.trans owner'))

/-- A direction that was computed for the first track is valid for its copy, and is what the linear
solver answers there. -/
theorem coherent_bare :
    let history : List (Request Float 1) := [⟨_, .add #[1.0]⟩, ⟨_, .computeJacobian 0⟩,
      ⟨_, .computeNewton 0 false⟩, ⟨_, .deepClone 0⟩]
    let newton : Newton Float := { battery := .new .serial .standard {} false }
    let w := Watched.run { bench := empty Circuit.bare .serial .standard newton 1 } history
    ∃ t, w.bench.Live 1 t ∧ t.iterate.isValid w.bench.store Quantity.newton = true ∧
      w.afresh = true ∧
      Coherent Circuit.pure (Circuit.pure.view Circuit.bare) w.afresh w.bench.store t.iterate := by
  intro history newton w
  have valid : (w.bench.tracks[1]?.join.any fun t ↦
      t.iterate.isValid w.bench.store Quantity.newton) = true := by decide +kernel
  have afresh : w.afresh = true := by decide +kernel
  have basic : ∀ request ∈ history, request.2.isBasic = true := by decide
  cases live : w.bench.tracks[1]?.join with
  | none =>
    rw [live] at valid
    cases valid
  | some t =>
    rw [live] at valid
    have live : w.bench.Live 1 t := Option.join_eq_some_iff.1 live
    exact ⟨t, live, valid, afresh, (coherent_of_history Circuit.pure Circuit.bare .serial .standard
      newton history basic).1 1 t live⟩

end Bench

end OperatingPoint
