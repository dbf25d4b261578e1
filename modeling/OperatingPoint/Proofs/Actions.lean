import OperatingPoint.Proofs.BenchStops
import OperatingPoint.Proofs.Registered

/-!
# What a track does to the store

Whatever a track does under its identity, it spares the others: it takes from them what it writes,
the factors included, and gives them nothing.  It comes to own a Jacobian only by loading one.

So on a bench only identities that were given out own anything, and a track that owns the Jacobian
has owned it before, or a Jacobian was loaded in a command to that track.
-/

set_option autoImplicit false

namespace OperatingPoint

open Step

variable {δ α : Type} [Scalar α] [DirectSolver α] {n : Nat}

namespace Store

/-- What is done to a store under an identity. -/
structure Acts (s : Store δ α n) (id : OwnerId) (s' : Store δ α n) : Prop where
  spares : s.Spares id s'
  factors : ∀ other, other ≠ id → s'.factorOwner = some other → s.factorOwner = some other
  loads : s.jacobianLoads ≤ s'.jacobianLoads
  jacobian : s'.owners.of .jacobian = some id →
    s.owners.of .jacobian = some id ∨ s.jacobianLoads < s'.jacobianLoads

namespace Acts

variable {s s' s'' : Store δ α n} {id : OwnerId}

omit [Scalar α] in
/-- Something that is no matter of factors or Jacobians. -/
theorem of_spares (spares : s.Spares id s') (factors : s'.factorOwner = s.factorOwner)
    (loads : s'.jacobianLoads = s.jacobianLoads)
    (jacobian : s'.owners.of .jacobian = s.owners.of .jacobian) : s.Acts id s' where
  spares := spares
  factors _ _ owned := factors.symm.trans owned
  loads := Nat.le_of_eq loads.symm
  jacobian owned := .inl (jacobian.symm.trans owned)

omit [Scalar α] in
theorem refl (s : Store δ α n) (id : OwnerId) : s.Acts id s := .of_spares (.refl s id) rfl rfl rfl

omit [Scalar α] in
theorem trans (h : s.Acts id s') (h' : s'.Acts id s'') : s.Acts id s'' where
  spares := h.spares.trans h'.spares
  factors other ne owned := h.factors other ne (h'.factors other ne owned)
  loads := Nat.le_trans h.loads h'.loads
  jacobian owned := by
    rcases h'.jacobian owned with owned' | loaded
    · rcases h.jacobian owned' with owned'' | loaded
      · exact .inl owned''
      · exact .inr (Nat.lt_of_lt_of_le loaded h'.loads)
    · exact .inr (Nat.lt_of_le_of_lt h.loads loaded)

omit [Scalar α] in
theorem withDevice (s : Store δ α n) (id : OwnerId) (device : δ) :
    s.Acts id { s with device := device } :=
  .of_spares (.of_written [] true rfl rfl rfl rfl fun q ↦ by
    cases q <;> first | exact .inr rfl | exact .inr trivial) rfl rfl rfl

omit [Scalar α] in
theorem afterResidual (s : Store δ α n) (id : OwnerId) (load : Load δ (Vector α n))
    (f : Vector α n) : s.Acts id { s.afterResidual id load with residual := f } :=
  .of_spares (.afterResidual s id load f) rfl rfl (by simp [Store.afterResidual])

omit [Scalar α] in
/-- A load of the Jacobian is counted. -/
theorem afterJacobian (s : Store δ α n) (id : OwnerId) (load : Load δ (Mat α n n))
    (A : Mat α n n) : s.Acts id { s.afterJacobian id load with jacobian := A } where
  spares := .afterJacobian s id load A
  factors _ _ owned := by cases owned
  loads := Nat.le_succ _
  jacobian _ := .inr (Nat.lt_succ_self _)

theorem afterSolve (s : Store δ α n) (id : OwnerId) {w : Workspace α}
    (options : w.options = s.workspace.options) (x : Vector α n) (stats : SolveStats α) :
    s.Acts id (s.afterSolve id w x stats) where
  spares := .afterSolve s id options x stats
  factors other ne owned := absurd (Option.some.inj owned).symm ne
  loads := Nat.le_refl _
  jacobian owned := .inl (by simpa using owned)

theorem afterRefusal (s : Store δ α n) (id : OwnerId) {w : Workspace α}
    (options : w.options = s.workspace.options) : s.Acts id (s.afterRefusal w) :=
  .of_spares (.afterRefusal s id options) rfl rfl (by simp)

end Acts

end Store

namespace Rig

/-- What a track does. -/
structure Acts (r r' : Rig δ α n) : Prop where
  id : r'.track.iterate.id = r.track.iterate.id
  store : r.store.Acts r.track.iterate.id r'.store

namespace Acts

variable {r r' r'' : Rig δ α n}

theorem refl (r : Rig δ α n) : r.Acts r := ⟨rfl, .refl _ _⟩

theorem trans (h : r.Acts r') (h' : r'.Acts r'') : r.Acts r'' :=
  ⟨h'.id.trans h.id, h.store.trans (h.id ▸ h'.store)⟩

/-- The track comes to be another one under the same identity. -/
theorem withTrack (h : r.Acts r') {t : Track α n} (id : t.iterate.id = r'.track.iterate.id) :
    r.Acts { r' with track := t } :=
  ⟨id.trans h.id, h.store⟩

/-- The device layer is told something. -/
theorem withDevice (h : r.Acts r') (device : δ) :
    r.Acts { r' with store := { r'.store with device := device } } :=
  h.trans ⟨rfl, .withDevice _ _ _⟩

end Acts

/-! ## The computations -/

theorem computeNewton_acts (r : Rig δ α n) (mayReuse : Bool) :
    Ends (computeNewton mayReuse) r (fun _ r' ↦ r.Acts r') (fun _ r' ↦ r.Acts r') := by
  refine .of_result (computeNewton_run r mayReuse) ?_ ?_
  · intro ok r' run
    cases run with
    | known => exact .refl r
    | solved _ _ _ run => exact ⟨rfl, .afterSolve _ _ ((Workspace.ends_solve_options ..).ok run) _ _⟩
    | refused _ _ _ run => exact ⟨rfl, .afterRefusal _ _ ((Workspace.ends_solve_options ..).error run)⟩
  · intro e r' run
    cases run with
    | noResidual => exact .refl r
    | noJacobian => exact .refl r
    | stopped _ _ _ _ run =>
      exact ⟨rfl, .of_spares (.withWorkspace _ _ ((Workspace.ends_solve_options ..).error run)) rfl rfl rfl⟩

theorem computeGradient_acts (r : Rig δ α n) :
    Ends computeGradient r (fun _ r' ↦ r.Acts r') (fun _ r' ↦ r.Acts r') := by
  refine .of_result (computeGradient_run r) ?_ ?_
  · intro _ r' run
    cases run with
    | known => exact .refl r
    | computed => exact ⟨rfl, .of_spares (.withGradient _ _ _) rfl rfl (by simp)⟩
  · intro e r' run
    cases run with
    | noJacobian => exact .refl r
    | noResidual => exact .refl r

variable [Device δ α]

theorem computeResidual_acts (r : Rig δ α n) :
    Ends computeResidual r (fun _ r' ↦ r.Acts r') (fun _ r' ↦ r.Acts r') := by
  refine .of_result (computeResidual_run r) ?_ ?_
  · intro ok r' run
    cases run with
    | known => exact .refl r
    | unloaded => exact ⟨rfl, .afterResidual _ _ _ _⟩
    | loaded => exact ⟨rfl, .afterResidual _ _ _ _⟩
  · intro e r' run
    cases run with
    | reentered => exact .refl r
    | refused => exact ⟨rfl, .withDevice _ _ _⟩
    | stuck => exact ⟨rfl, .afterResidual _ _ _ _⟩

theorem computeJacobian_acts (r : Rig δ α n) :
    Ends computeJacobian r (fun _ r' ↦ r.Acts r') (fun _ r' ↦ r.Acts r') := by
  have outdated : Ends computeResidual r.outdated (fun _ r' ↦ r.Acts r')
      (fun _ r' ↦ r.Acts r') :=
    (computeResidual_acts r.outdated).mono (fun _ _ acts ↦ ⟨acts.id, acts.store⟩)
      fun _ _ acts ↦ ⟨acts.id, acts.store⟩
  -- A load comes after a residual that is the iterate's own.
  have loaded {r' : Rig δ α n} (base : Refreshed r r') (load : Load δ (Mat α n n))
      (A : Mat α n n) (flags : Flags) (o : Overlay α) :
      r.Acts (r'.put { r'.store.afterJacobian r'.track.iterate.id load with jacobian := A }
        { r'.track.iterate with flags := flags } o) :=
    (base.keeps (.refl r) fun _ ↦ outdated).trans ⟨rfl, .afterJacobian _ _ _ _⟩
  refine .of_result (computeJacobian_run r) ?_ ?_
  · intro ok r' run
    cases run with
    | known => exact .refl r
    | unrefreshed _ _ run => exact outdated.ok run
    | unloaded _ base => exact loaded base _ _ _ _
    | loaded _ base => exact loaded base _ _ _ _
  · intro e r' run
    cases run with
    | reentered => exact .refl r
    | refused _ _ run => exact outdated.error run
    | stuck _ base => exact loaded base _ _ _ _

/-- What a command does to a track. -/
theorem keepsCommands_acts (r : Rig δ α n) :
    KeepsCommands fun r' ↦ r'.AtRest ∧ r.Acts r' where
  rest h := h.1
  move h x := ⟨h.1.move x, h.2.withTrack rfl⟩
  residual {r'} h := ((computeResidual_stays h.1).and (computeResidual_acts r')).mono
    (fun _ _ both ↦ ⟨both.1.1.rest, h.2.trans both.2⟩)
    fun _ _ both ↦ ⟨trivial, both.1.rest, h.2.trans both.2⟩
  jacobian {r'} h := ((computeJacobian_stays h.1).and (computeJacobian_acts r')).mono
    (fun _ _ both ↦ ⟨both.1.1.rest, h.2.trans both.2⟩)
    fun _ _ both ↦ ⟨trivial, both.1.rest, h.2.trans both.2⟩
  newton {r'} h _ mayReuse _ :=
    ((computeNewton_stays h.1 mayReuse).and (computeNewton_acts r' mayReuse)).mono
      (fun _ _ both ↦ ⟨both.1.1.rest, h.2.trans both.2⟩)
      fun _ _ both ↦ ⟨trivial, both.1.rest, h.2.trans both.2⟩
  parameter h name value := ⟨keepsCommands_rest.parameter h.1 name value,
    h.2.withTrack (Track.setParameter_shifts _ name value).id⟩
  accept {r'} h := ⟨keepsCommands_rest.accept h.1,
    (h.2.withDevice (Device.accept r'.store.device r'.track.x.toArray)).withTrack rfl⟩
  abandon h := ⟨keepsCommands_rest.abandon h.1, h.2.withDevice _⟩
  pseudo h _ _ there frame := ⟨keepsCommands_rest.pseudo h.1 there frame, h.2.withTrack rfl⟩
  shift h _ shifts := ⟨keepsCommands_rest.shift h.1 shifts, h.2.withTrack shifts.id⟩
  derivatives h := ⟨keepsCommands_rest.derivatives h.1, h.2.withTrack rfl⟩
  gradient r' h := ((preserves_rest_computeGradient r' h.1).and (computeGradient_acts r')).mono
    (fun _ _ both ↦ ⟨both.1, h.2.trans both.2⟩) fun _ _ both ↦ ⟨both.1, h.2.trans both.2⟩
  give h name value := ⟨keepsCommands_rest.give h.1 name value, h.2.withDevice _⟩

end Rig

/-! ## All tracks of a bench -/

namespace Bench

/-- Only identities that were given out own anything, the factors included, and nothing is being
computed. -/
structure Known (b : Bench δ α n) : Prop where
  rest : b.AtRest
  registered : b.Registered
  factors : ∀ id, b.store.factorOwner = some id → id ≤ b.store.lastId

theorem empty_known (device : δ) (communicator : Communicator α) (linear : LinearOptions α)
    (newton : Newton α) : (empty device communicator linear newton n).Known where
  rest := empty_rests device communicator linear newton
  registered := empty_registered device communicator linear newton
  factors id owned := by cases owned

namespace Known

variable {b : Bench δ α n} {k : Nat} {t : Track α n}

theorem withEngine (h : b.Known) (live : b.Live k t) {e : Engine δ α n} (rest : e.rig.AtRest)
    (acts : Rig.Acts ⟨b.store, t⟩ e.rig) : (b.withEngine k e).Known where
  rest := h.rest.withEngine rest
  registered := h.registered.withEngine live acts.id acts.store.spares
  factors id owned := by
    refine Nat.le_trans ?_ acts.store.spares.lastId
    rcases Nat.decEq id t.iterate.id with other | mine
    · exact h.factors id (acts.store.factors id other owned)
    · exact mine ▸ h.registered.known k t live

theorem add (h : b.Known) (x : Vector α n) (overlay : Overlay α) : Known { b with
    store := b.store.register.2
    tracks := b.tracks.push (some { iterate := (Iterate.new b.store x).1, overlay := overlay }) } :=
  ⟨h.rest.push h.rest.paired (.of_fresh rfl), h.registered.push rfl rfl (.register ..),
    fun id owned ↦ Nat.le_trans (h.factors id owned) (Nat.le_succ _)⟩

theorem copy (h : b.Known) (live : b.Live k t) : Known { b with
    store := (t.deepClone b.store).2
    tracks := b.tracks.push (some (t.deepClone b.store).1) } where
  rest := h.rest.copy live
  registered := h.registered.push rfl rfl (Registered.spares_deepClone b t)
  factors id owned := by
    have owned : (if b.store.factorOwner = some t.iterate.id then some (b.store.lastId + 1)
      else b.store.factorOwner) = some id := owned
    split at owned
    · cases owned
      exact Nat.le_refl _
    · exact Nat.le_succ_of_le (h.factors id owned)

theorem retire (h : b.Known) (live : b.Live k t) :
    Known { b.replace k none with store := b.store.release t.iterate.id } where
  rest := h.rest.retire k t.iterate.id
  registered := h.registered.retire live
  factors id owned := by
    have owned : (if b.store.factorOwner = some t.iterate.id then none else b.store.factorOwner) =
      some id := owned
    split at owned
    · cases owned
    · exact h.factors id owned

theorem setPrevious (h : b.Known) (x : Vector α n) :
    Known { b with store := b.store.setPrevious x } where
  rest := ⟨.setPrevious x, h.rest.tracks⟩
  registered := h.registered.setPrevious x
  factors id owned := by cases owned

end Known

section

variable [Device δ α]

theorem keepsTracks_known : KeepsTracks (Known (δ := δ) (α := α) (n := n)) where
  track h _ _ _ live := ⟨_, ⟨h.rest.rig live, .refl _⟩, Rig.keepsCommands_acts _,
    fun _ kept ↦ h.withEngine live kept.1 kept.2⟩
  beside h _ _ := ⟨⟨h.rest.paired, h.rest.tracks⟩,
    ⟨h.registered.known, h.registered.distinct, h.registered.owners⟩, h.factors⟩
  add h x overlay _ := h.add x overlay
  copy h _ _ live := h.copy live
  retire h _ _ live := h.retire live
  setPrevious h x := h.setPrevious x

/-- On every bench only identities that were given out own anything. -/
theorem run_known (device : δ) (communicator : Communicator α) (linear : LinearOptions α)
    (newton : Newton α) (history : List (Request α n)) :
    (run (empty device communicator linear newton n) history).Known :=
  run_preserves (empty_known device communicator linear newton)
    fun request _ ↦ keepsTracks_known.preserves_perform request.2

end

/-! ## Who has loaded the Jacobian -/

/-- What the tracks of a bench have come to: those that were there go by the identities that they
had, and if one of them owns the Jacobian, it owned it before, or a Jacobian was loaded for a track
in `On`, to which it belongs. -/
structure Since (On : Nat → Prop) (b b' : Bench δ α n) : Prop where
  known : b'.Known
  size : b.tracks.size ≤ b'.tracks.size
  loads : b.store.jacobianLoads ≤ b'.store.jacobianLoads
  track : ∀ {k t'}, k < b.tracks.size → b'.Live k t' → ∃ t, b.Live k t ∧
    t'.iterate.id = t.iterate.id ∧ (b'.store.owners.of .jacobian = some t.iterate.id →
      b.store.owners.of .jacobian = some t.iterate.id ∨
        On k ∧ b.store.jacobianLoads < b'.store.jacobianLoads)

namespace Since

variable {On : Nat → Prop} {b b' : Bench δ α n} {k : Nat} {t : Track α n}

theorem refl (h : b.Known) : b.Since On b where
  known := h
  size := Nat.le_refl _
  loads := Nat.le_refl _
  track _ live := ⟨_, live, rfl, .inl⟩

/-- What happens beside the tracks that were there, and without a load. -/
theorem aside (h : Since On b b') {b'' : Bench δ α n} (known : b''.Known)
    (size : b'.tracks.size ≤ b''.tracks.size)
    (loads : b''.store.jacobianLoads = b'.store.jacobianLoads)
    (track : ∀ {k t'}, k < b'.tracks.size → b''.Live k t' → b'.Live k t' ∧
      (b''.store.owners.of .jacobian = some t'.iterate.id →
        b'.store.owners.of .jacobian = some t'.iterate.id)) : Since On b b'' where
  known := known
  size := Nat.le_trans h.size size
  loads := loads ▸ h.loads
  track below live := by
    obtain ⟨live', owner⟩ := track (Nat.lt_of_lt_of_le below h.size) live
    obtain ⟨t, old, id, owned⟩ := h.track below live'
    refine ⟨t, old, id, fun here ↦ ?_⟩
    rw [loads]
    exact owned (id ▸ owner (id.symm ▸ here))

theorem withEngine (h : Since On b b') (on : On k) (live : b'.Live k t) {e : Engine δ α n}
    (rest : e.rig.AtRest) (acts : Rig.Acts ⟨b'.store, t⟩ e.rig) :
    Since On b (b'.withEngine k e) where
  known := h.known.withEngine live rest acts
  size := by
    show _ ≤ (b'.tracks.setIfInBounds _ _).size
    rw [Array.size_setIfInBounds]
    exact h.size
  loads := Nat.le_trans h.loads acts.store.loads
  track {k' t'} below live' := by
    rcases live_replace live' with ⟨rfl, same⟩ | ⟨other, old⟩
    · cases same
      obtain ⟨t₀, there, id, owned⟩ := h.track below live
      refine ⟨t₀, there, acts.id.trans id, fun here ↦ ?_⟩
      rcases acts.store.jacobian (here.trans (congrArg some id.symm)) with before | loaded
      · exact (owned (before.trans (congrArg some id))).imp_right
          fun ⟨on, loaded⟩ ↦ ⟨on, Nat.lt_of_lt_of_le loaded acts.store.loads⟩
      · exact .inr ⟨on, Nat.lt_of_le_of_lt h.loads loaded⟩
    · obtain ⟨t₀, there, id, owned⟩ := h.track below old
      have ne := h.known.registered.ne live old other
      refine ⟨t₀, there, id, fun here ↦ ?_⟩
      exact (owned (acts.store.spares.others .jacobian _ (id ▸ ne) here).1).imp_right
        fun ⟨on, loaded⟩ ↦ ⟨on, Nat.lt_of_lt_of_le loaded acts.store.loads⟩

/-- A track comes up. -/
theorem push (h : Since On b b') {s : Store δ α n}
    (known : Known { b' with store := s, tracks := b'.tracks.push (some t) })
    (loads : s.jacobianLoads = b'.store.jacobianLoads)
    (spares : b'.store.Spares (b'.store.lastId + 1) s) :
    Since On b { b' with store := s, tracks := b'.tracks.push (some t) } :=
  h.aside known (by rw [Array.size_push]; exact Nat.le_succ _) loads fun below live ↦ by
    rcases live_push live with ⟨rfl, _⟩ | old
    · exact absurd below (Nat.lt_irrefl _)
    · have ne := h.known.registered.ne_next old
      exact ⟨old, fun owned ↦ (spares.others .jacobian _ ne owned).1⟩

end Since

variable [Device δ α]

/-- A command loads the Jacobian for the track that it is for. -/
theorem hosts_since (On : Nat → Prop) (b : Bench δ α n) :
    Hosts On Rig.KeepsCommands (Since On b) where
  track {b'} h k t on live := ⟨_, ⟨h.known.rest.rig live, .refl _⟩, Rig.keepsCommands_acts _,
    fun _ kept ↦ h.withEngine on live kept.1 kept.2⟩
  beside h _ _ := ⟨keepsTracks_known.beside h.known _ _, h.size, h.loads, h.track⟩
  add h x overlay _ := h.push (h.known.add x overlay) rfl (.register ..)
  copy h _ t live := h.push (h.known.copy live) rfl (Registered.spares_deepClone _ t)
  retire {b'} h k t live := by
    have size : b'.tracks.size ≤ (b'.tracks.setIfInBounds k none).size :=
      Nat.le_of_eq Array.size_setIfInBounds.symm
    refine h.aside (h.known.retire live) size rfl fun _ live' ↦ ?_
    obtain ⟨other, old⟩ := live_of_retired live'
    have spares : b'.store.Spares t.iterate.id (b'.store.release t.iterate.id) := .release ..
    exact ⟨old, fun owned ↦
      (spares.others .jacobian _ (h.known.registered.ne live old other) owned).1⟩
  setPrevious {b'} h x := h.aside (h.known.setPrevious x) (Nat.le_refl _) rfl fun _ live ↦
    ⟨live, fun owned ↦ by rw [Store.setPrevious_owner] at owned; cases owned⟩

/-- One of the commands of a history is for a track, and a Jacobian is loaded in it. -/
def LoadsFor (b : Bench δ α n) (k : Nat) (history : List (Request α n)) : Prop :=
  ∃ before request after, history = before ++ request :: after ∧ request.2.track? = some k ∧
    (b.run before).store.jacobianLoads < (b.run (before ++ [request])).store.jacobianLoads

theorem LoadsFor.later {b : Bench δ α n} {k : Nat} {request : Request α n}
    {rest : List (Request α n)} (h : LoadsFor (b.run [request]) k rest) :
    LoadsFor b k (request :: rest) := by
  obtain ⟨before, later, after, same, mine, loads⟩ := h
  exact ⟨request :: before, later, after, congrArg _ same, mine, loads⟩

/-- **Nobody comes to own a Jacobian that was not loaded for it.**  A track that owns the Jacobian
after a history has gone by the same identity all the time, and it owned the Jacobian before, or a
command of the history was for the track and has loaded one. -/
theorem Known.loaded_of_owned {b : Bench δ α n} (h : b.Known) (history : List (Request α n))
    {k : Nat} (below : k < b.tracks.size) {t' : Track α n} (live : (b.run history).Live k t') :
    ∃ t, b.Live k t ∧ t'.iterate.id = t.iterate.id ∧
      ((b.run history).store.owners.of .jacobian = some t.iterate.id →
        b.store.owners.of .jacobian = some t.iterate.id ∨ b.LoadsFor k history) := by
  induction history generalizing b with
  | nil => exact ⟨t', live, rfl, .inl⟩
  | cons request rest ih =>
    have since : Since (fun k ↦ request.2.track? = some k) b (b.run [request]) :=
      ((hosts_since _ b).preserves_perform request.2 (fun _ same ↦ same) b (.refl h)).after
    obtain ⟨t₁, live₁, id₁, owned₁⟩ :=
      ih since.known (Nat.lt_of_lt_of_le below since.size) live
    obtain ⟨t, here, id, owned⟩ := since.track below live₁
    refine ⟨t, here, id₁.trans id, fun last ↦ ?_⟩
    rcases owned₁ (id ▸ last) with next | loads
    · exact (owned (id ▸ next)).imp_right
        fun ⟨mine, loads⟩ ↦ ⟨[], request, rest, rfl, mine, loads⟩
    · exact .inr loads.later

end Bench

end OperatingPoint
