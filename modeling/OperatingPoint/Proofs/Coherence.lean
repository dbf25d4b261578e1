import OperatingPoint.Proofs.Computations
import OperatingPoint.Proofs.LinearSolve
import OperatingPoint.Proofs.PureDevice

/-!
# Coherence of the shared quantities

A store holds one residual, Jacobian, Newton direction and gradient for all the iterates at it.  An
iterate that is told that one of them is valid takes what the store holds for its own.  This file
proves that it is, for a pure device layer and without anything laid over the equations: the four
computations keep the promise to the iterate that carries them out, and they leave the others what
is still theirs.

Flags and owners move independently.  A stale flag may stand beside an owner, and a flag stays up
when ownership is lost.  What is promised is therefore a property of both, `Coherent`, and one more
fact has to be carried along: an iterate that has a Jacobian and owns the residual has the residual
at which that Jacobian was loaded, which is what a gradient relies on.
-/

set_option autoImplicit false

namespace OperatingPoint

open Step

/-- Nothing is laid over the device equations, and no parameters are forwarded. -/
structure Overlay.IsPlain {α : Type} [LE α] (o : Overlay α) : Prop where
  strategy : o.strategy = none
  blend : o.blend = none
  forwarding : o.forwarding = false

theorem Overlay.IsPlain.augmentResidual {α : Type} [Scalar α] {o : Overlay α} {n : Nat}
    (h : o.IsPlain) (x f : Vector α n) : o.augmentResidual x f = .ok (o, f) := by
  obtain ⟨parameters, strategy, blend, forwarding⟩ := o
  obtain ⟨rfl, rfl, _⟩ := h
  rfl

theorem Overlay.IsPlain.augmentJacobian {α : Type} [Scalar α] {o : Overlay α} {n : Nat}
    (h : o.IsPlain) (load : Nat) (A : Mat α n n) : o.augmentJacobian load A = .ok (o, A) := by
  obtain ⟨parameters, strategy, blend, forwarding⟩ := o
  obtain ⟨rfl, rfl, _⟩ := h
  rfl

/-! ## What an operation leaves to the other iterates -/

namespace Store

variable {δ α : Type} [DirectSolver α] {n : Nat}

/-- Two stores hold the same quantity. -/
def Agrees (s s' : Store δ α n) : Quantity → Prop
  | .residual => s'.residual = s.residual
  | .jacobian => s'.jacobian = s.jacobian
  | .newton => s'.newton = s.newton
  | .gradient => s'.gradient = s.gradient
  | .auxState => True

/-- An operation of the iterate `id` that led from `s` to `s'` has left the other iterates alone.
They have gained nothing, and what is still theirs is what it was. -/
structure Spares (s : Store δ α n) (id : OwnerId) (s' : Store δ α n) : Prop where
  previous : s'.previous = s.previous
  options : s'.workspace.options = s.workspace.options
  lastId : s.lastId ≤ s'.lastId
  others : ∀ q other, other ≠ id → s'.owners.of q = some other →
    s.owners.of q = some other ∧ s.Agrees s' q

namespace Spares

variable {s s' s'' : Store δ α n} {id : OwnerId}

theorem refl (s : Store δ α n) (id : OwnerId) : s.Spares id s where
  previous := rfl
  options := rfl
  lastId := Nat.le_refl _
  others q other _ h := ⟨h, by cases q <;> first | exact rfl | exact trivial⟩

theorem trans (h : s.Spares id s') (h' : s'.Spares id s'') : s.Spares id s'' where
  previous := h'.previous.trans h.previous
  options := h'.options.trans h.options
  lastId := Nat.le_trans h.lastId h'.lastId
  others q other ne owned := by
    obtain ⟨owned', same'⟩ := h'.others q other ne owned
    obtain ⟨owned'', same⟩ := h.others q other ne owned'
    refine ⟨owned'', ?_⟩
    cases q with
    | auxState => trivial
    | _ => exact same'.trans same

/-- What an operation writes becomes its own or nobody's. -/
theorem of_written (qs : List Quantity) (good : Bool) (previous : s'.previous = s.previous)
    (options : s'.workspace.options = s.workspace.options) (lastId : s'.lastId = s.lastId)
    (owners : s'.owners = s.owners.putAll qs (if good then some id else none))
    (same : ∀ q, q ∈ qs ∨ s.Agrees s' q) : s.Spares id s' where
  previous := previous
  options := options
  lastId := Nat.le_of_eq lastId.symm
  others q other ne owned := by
    rw [owners, Owners.of_putAll] at owned
    split at owned
    · split at owned
      · exact absurd (Option.some.inj owned).symm ne
      · cases owned
    · rename_i unwritten
      exact ⟨owned, (same q).resolve_left unwritten⟩

theorem afterResidual (s : Store δ α n) (id : OwnerId) (load : Load δ (Vector α n))
    (f : Vector α n) : s.Spares id { s.afterResidual id load with residual := f } := by
  refine of_written _ load.ok rfl rfl rfl rfl fun q ↦ ?_
  cases q <;> first | exact .inr rfl | exact .inr trivial | exact .inl (by decide)

theorem afterJacobian (s : Store δ α n) (id : OwnerId) (load : Load δ (Mat α n n))
    (A : Mat α n n) : s.Spares id { s.afterJacobian id load with jacobian := A } := by
  refine of_written _ load.ok rfl rfl rfl rfl fun q ↦ ?_
  cases q <;> first | exact .inr rfl | exact .inr trivial | exact .inl (by decide)

theorem afterSolve [Scalar α] (s : Store δ α n) (id : OwnerId) {w : Workspace α}
    (options : w.options = s.workspace.options) (x : Vector α n) (stats : SolveStats α) :
    s.Spares id (s.afterSolve id w x stats) := by
  refine of_written _ (s.accepts x stats) rfl options rfl rfl fun q ↦ ?_
  cases q <;> first | exact .inr rfl | exact .inr trivial | exact .inl (by decide)

theorem afterRefusal [Scalar α] (s : Store δ α n) (id : OwnerId) {w : Workspace α}
    (options : w.options = s.workspace.options) : s.Spares id (s.afterRefusal w) := by
  refine of_written _ false rfl options rfl rfl fun q ↦ ?_
  cases q <;> first | exact .inr rfl | exact .inr trivial | exact .inl (by decide)

theorem withWorkspace (s : Store δ α n) (id : OwnerId) {w : Workspace α}
    (options : w.options = s.workspace.options) : s.Spares id { s with workspace := w } :=
  of_written [] true rfl options rfl rfl fun q ↦ by
    cases q <;> first | exact .inr rfl | exact .inr trivial

theorem withGradient (s : Store δ α n) (id : OwnerId) (g : Vector α n) :
    s.Spares id { s with
      gradient := g
      owners := s.owners.putAll [.gradient] (some id) } := by
  refine of_written _ true rfl rfl rfl rfl fun q ↦ ?_
  cases q <;> first | exact .inr rfl | exact .inr trivial | exact .inl (by decide)

theorem mem_ownedBy {q : Quantity} : q ∈ s.ownedBy id ↔ s.owners.of q = some id := by
  simp [ownedBy, Quantity.mem_all]

theorem register (s : Store δ α n) (id : OwnerId) : s.Spares id s.register.2 where
  previous := rfl
  options := rfl
  lastId := Nat.le_succ _
  others q other _ h := ⟨h, by cases q <;> first | exact rfl | exact trivial⟩

theorem release (s : Store δ α n) (id : OwnerId) : s.Spares id (s.release id) :=
  of_written (s.ownedBy id) false rfl rfl rfl rfl fun q ↦ by
    cases q <;> first | exact .inr rfl | exact .inr trivial

/-- What is moved away from one iterate is the other's. -/
theorem transfer (s : Store δ α n) (source target : OwnerId) :
    s.Spares target (s.transfer source target) :=
  of_written (s.ownedBy source) true rfl rfl rfl rfl fun q ↦ by
    cases q <;> first | exact .inr rfl | exact .inr trivial

end Spares

end Store

/-! ## What validity promises -/

section

variable {δ α : Type} [Scalar α] [DirectSolver α] [Device δ α] {n : Nat}

/-- What an iterate takes for its own is what belongs to its solution.  `afresh` says whether the
last linear solve at the store used no factors of an earlier one. -/
structure Coherent (P : PureDevice δ α) (v : P.View) (afresh : Bool) (s : Store δ α n)
    (it : Iterate α n) : Prop where
  residual : it.isValid s Quantity.residual = true → s.residual = P.residual v it.x s.previous
  jacobian : it.isValid s Quantity.jacobian = true → s.jacobian = P.jacobian v it.x s.previous
  /-- The direction is the answer of the linear solver. -/
  newton : it.isValid s Quantity.newton = true → afresh = true → ∃ stats,
    Workspace.answer s.workspace.options (P.jacobian v it.x s.previous)
      (Store.rightHandSide (P.residual v it.x s.previous)) = .ok (s.newton, stats) ∧
    stats.converged = true
  gradient : it.isValid s Quantity.gradient = true →
    s.gradient = (P.jacobian v it.x s.previous).transposeMulVec (P.residual v it.x s.previous)

/-- An iterate that has a Jacobian and owns the residual has the residual. -/
def Iterate.Rooted (it : Iterate α n) (s : Store δ α n) : Prop :=
  it.isValid s Quantity.jacobian = true → s.owners.of .residual = some it.id →
    it.isValid s Quantity.residual = true

/-- A track whose iterate can rely on what it takes for its own, at a device layer of view `v` with
nothing laid over it. -/
structure Rig.Sound (P : PureDevice δ α) (v : P.View) (afresh : Bool) (r : Rig δ α n) : Prop where
  plain : r.track.overlay.IsPlain
  view : P.view r.store.device = v
  coherent : Coherent P v afresh r.store r.track.iterate
  rooted : r.track.iterate.Rooted r.store

/-- What an operation of a track does, to its own iterate and to the others. -/
structure Rig.Advances (P : PureDevice δ α) (v : P.View) (afresh afresh' : Bool)
    (r r' : Rig δ α n) : Prop where
  sound : r'.Sound P v afresh'
  id : r'.track.iterate.id = r.track.iterate.id
  spares : r.store.Spares r.track.iterate.id r'.store
  /-- If there was a linear solve, the direction is no other iterate's any more. -/
  solve : afresh' = afresh ∨ ∀ other, other ≠ r.track.iterate.id →
    r'.store.owners.of .newton ≠ some other

namespace Rig

variable {P : PureDevice δ α} {v : P.View} {afresh afresh' : Bool} {r r' r'' : Rig δ α n}

theorem forward_off (off : r.track.overlay.forwarding = false) : forward r = .ok () r := by
  refine Ends.result (R := fun result ↦ result = .ok () r) ?_
  unfold forward
  simp [off]

/-- Forwarding that is turned off changes nothing. -/
theorem relay_of_off {device : δ} {overlay : Overlay α} (off : r.track.overlay.forwarding = false)
    (forwarded : forward r.computing = .ok () (r.computing.relay device overlay)) :
    device = r.store.device ∧ overlay = r.track.overlay := by
  have off : r.computing.track.overlay.forwarding = false := off
  rw [forward_off off] at forwarded
  injection forwarded with _ same
  exact ⟨congrArg (·.store.device) same.symm, congrArg (·.track.overlay) same.symm⟩

theorem Advances.refl (h : r.Sound P v afresh) : r.Advances P v afresh afresh r where
  sound := h
  id := rfl
  spares := .refl r.store r.track.iterate.id
  solve := .inl rfl

/-! ## The computations keep the promise -/

theorem computeResidual_advances (h : r.Sound P v afresh) :
    Ends computeResidual r (fun _ r' ↦ r.Advances P v afresh afresh r')
      (fun _ r' ↦ r.Advances P v afresh afresh r') := by
  obtain ⟨plain, view, coherent, rooted⟩ := h
  refine .of_result (computeResidual_run r) ?_ ?_
  · intro ok r' run
    cases run with
    | known valid => exact .refl ⟨plain, view, coherent, rooted⟩
    | unloaded invalid forwarded call failed =>
      obtain ⟨rfl, rfl⟩ := relay_of_off plain.forwarding forwarded
      subst call
      refine ⟨⟨plain, ?_, ?_, ?_⟩, rfl, .afterResidual .., .inl rfl⟩
      · exact (P.residual_view ..).trans view
      · exact {
          residual := fun h ↦ absurd h (Iterate.not_isValid_of_stale rfl)
          jacobian := fun h ↦ coherent.jacobian (Iterate.isValid_iff.2 (Iterate.isValid_iff.1 h))
          newton := fun h ↦ coherent.newton (Iterate.isValid_iff.2 (Iterate.isValid_iff.1 h))
          gradient := fun h ↦ coherent.gradient (Iterate.isValid_iff.2 (Iterate.isValid_iff.1 h)) }
      · intro _ owned
        rw [put_store, Store.afterResidual_owner, if_pos (.inl rfl), failed] at owned
        cases owned
    | loaded invalid forwarded call good augmented =>
      obtain ⟨rfl, rfl⟩ := relay_of_off plain.forwarding forwarded
      rw [plain.augmentResidual] at augmented
      injection augmented with same
      injection same with same same'
      subst same same' call
      refine ⟨⟨plain, ?_, ?_, ?_⟩, rfl, .afterResidual .., .inl rfl⟩
      · exact (P.residual_view ..).trans view
      · exact {
          residual := fun _ ↦ view ▸ P.residual_buffer r.store.device _ _ _ good
          jacobian := fun h ↦ absurd h (Iterate.not_isValid_of_stale rfl)
          newton := fun h ↦ absurd h (Iterate.not_isValid_of_stale rfl)
          gradient := fun h ↦ absurd h (Iterate.not_isValid_of_stale rfl) }
      · exact fun h ↦ absurd h (Iterate.not_isValid_of_stale rfl)
  · intro e r' run
    cases run with
    | reentered invalid busy => exact .refl ⟨plain, view, coherent, rooted⟩
    | refused invalid forwarded =>
      have off : r.computing.track.overlay.forwarding = false := plain.forwarding
      rw [forward_off off] at forwarded
      cases forwarded
    | stuck invalid forwarded call good augmented =>
      obtain ⟨rfl, rfl⟩ := relay_of_off plain.forwarding forwarded
      rw [plain.augmentResidual] at augmented
      cases augmented

theorem Advances.trans {fresh'' : Bool} (h : r.Advances P v afresh afresh' r')
    (h' : r'.Advances P v afresh' fresh'' r'') : r.Advances P v afresh fresh'' r'' where
  sound := h'.sound
  id := h'.id.trans h.id
  spares := h.spares.trans (h.id ▸ h'.spares)
  solve := by
    have spares := h.id ▸ h'.spares
    rcases h'.solve with same | mine
    · rcases h.solve with same' | mine
      · exact .inl (same.trans same')
      · refine .inr fun other ne owned ↦ ?_
        exact mine other ne (spares.others .newton other ne owned).1
    · exact .inr (h.id ▸ mine)

theorem Sound.outdated (h : r.Sound P v afresh) (invalid : r.isValid .jacobian = false) :
    r.outdated.Sound P v afresh where
  plain := h.plain
  view := h.view
  coherent := {
    residual := fun h ↦ absurd h (Iterate.not_isValid_of_stale rfl)
    jacobian := fun h' ↦ h.coherent.jacobian (Iterate.isValid_iff.2 (Iterate.isValid_iff.1 h'))
    newton := fun h' ↦ h.coherent.newton (Iterate.isValid_iff.2 (Iterate.isValid_iff.1 h'))
    gradient := fun h' ↦ h.coherent.gradient (Iterate.isValid_iff.2 (Iterate.isValid_iff.1 h')) }
  rooted := by
    intro h' _
    have valid : r.isValid .jacobian = true := Iterate.isValid_iff.2 (Iterate.isValid_iff.1 h')
    rw [invalid] at valid
    cases valid

theorem computeJacobian_advances (h : r.Sound P v afresh) :
    Ends computeJacobian r (fun _ r' ↦ r.Advances P v afresh afresh r')
      (fun _ r' ↦ r.Advances P v afresh afresh r') := by
  have refreshed : ∀ r', r.isValid .jacobian = false → Refreshed r r' →
      r.Advances P v afresh afresh r' := by
    intro r' invalid base
    cases base with
    | already valid owned => exact .refl h
    | renewed needed run =>
      have step := (computeResidual_advances (h.outdated invalid)).ok run
      exact ⟨step.sound, step.id, step.spares, step.solve⟩
  refine .of_result (computeJacobian_run r) ?_ ?_
  · intro ok r' run
    cases run with
    | known valid => exact .refl h
    | unrefreshed invalid needed run =>
      have step := (computeResidual_advances (h.outdated invalid)).ok run
      exact ⟨step.sound, step.id, step.spares, step.solve⟩
    | @unloaded invalid r₁ base load call failed =>
      have step := refreshed _ invalid base
      obtain ⟨plain, view, coherent, rooted⟩ := step.sound
      subst call
      refine step.trans ⟨⟨plain, ?_, ?_, ?_⟩, rfl, .afterJacobian .., .inl rfl⟩
      · exact (P.jacobian_view ..).trans view
      · exact {
          residual := fun h ↦ coherent.residual (Iterate.isValid_iff.2 (Iterate.isValid_iff.1 h))
          jacobian := fun h ↦ absurd h (Iterate.not_isValid_of_stale rfl)
          newton := fun h ↦ absurd h (Iterate.not_isValid_of_stale rfl)
          gradient := fun h ↦ absurd h (Iterate.not_isValid_of_stale rfl) }
      · exact fun h ↦ absurd h (Iterate.not_isValid_of_stale rfl)
    | @loaded invalid r₁ base load call good overlay A augmented =>
      have step := refreshed _ invalid base
      obtain ⟨plain, view, coherent, rooted⟩ := step.sound
      rw [plain.augmentJacobian] at augmented
      injection augmented with same
      injection same with same same'
      subst same same' call
      refine step.trans ⟨⟨plain, ?_, ?_, ?_⟩, rfl, .afterJacobian .., .inl rfl⟩
      · exact (P.jacobian_view ..).trans view
      · exact {
          residual := fun h ↦ coherent.residual (Iterate.isValid_iff.2 (Iterate.isValid_iff.1 h))
          jacobian := fun _ ↦ view ▸ P.jacobian_buffer r₁.store.device _ _ good
          newton := fun h ↦ absurd h (Iterate.not_isValid_of_stale rfl)
          gradient := fun h ↦ absurd h (Iterate.not_isValid_of_stale rfl) }
      · exact fun _ _ ↦ Iterate.isValid_iff.2 (Iterate.isValid_iff.1 base.spec.1)
  · intro e r' run
    cases run with
    | reentered invalid busy => exact .refl h
    | refused invalid needed run =>
      have step := (computeResidual_advances (h.outdated invalid)).error run
      exact ⟨step.sound, step.id, step.spares, step.solve⟩
    | stuck invalid base call good augmented =>
      have step := refreshed _ invalid base
      rw [step.sound.plain.augmentJacobian] at augmented
      cases augmented

/-- A direction that a linear solve without reuse has left is the answer. -/
theorem answer_of_solve (h : r.Sound P v afresh) {mayReuse : Bool} {x : Vector α n}
    {stats : SolveStats α} {w : Workspace α} (fresh : r.reuses mayReuse = false)
    (ready : r.isValid .residual = true)
    (ready' : r.reuses mayReuse = true ∨ r.isValid .jacobian = true)
    (run : r.store.linearSolve (r.reuses mayReuse) = .ok (x, stats) w) :
    Workspace.answer r.store.workspace.options (P.jacobian v r.track.x r.store.previous)
      (Store.rightHandSide (P.residual v r.track.x r.store.previous)) = .ok (x, stats) := by
  rw [fresh] at run ready'
  have valid := ready'.resolve_left Bool.false_ne_true
  have answer := (Workspace.ends_solve_answer r.store.jacobian
    (Store.rightHandSide r.store.residual) r.store.workspace).ok run
  rw [h.coherent.residual ready, h.coherent.jacobian valid] at answer
  exact answer

/-- After a linear solve everything but the direction is what it was. -/
theorem Sound.redirected (h : r.Sound P v afresh) {s : Store δ α n} {flag : Validity}
    (device : s.device = r.store.device) (previous : s.previous = r.store.previous)
    (same : ∀ q : Quantity, q ≠ .newton → s.owners.of q = r.store.owners.of q ∧ r.store.Agrees s q)
    (newton : (withNewton r.track.iterate flag).isValid s Quantity.newton = true → afresh' = true →
      ∃ stats, Workspace.answer s.workspace.options (P.jacobian v r.track.x r.store.previous)
          (Store.rightHandSide (P.residual v r.track.x r.store.previous)) = .ok (s.newton, stats) ∧
        stats.converged = true) :
    (r.put s (withNewton r.track.iterate flag) r.track.overlay).Sound P v afresh' := by
  have kept : ∀ q : Quantity, q ≠ .newton → (withNewton r.track.iterate flag).isValid s q = true →
      r.track.iterate.isValid r.store q = true := by
    intro q ne valid
    obtain ⟨flagged, owned⟩ := Iterate.isValid_iff.1 valid
    rw [(same q ne).1] at owned
    cases q with
    | newton => exact absurd rfl ne
    | _ => exact Iterate.isValid_iff.2 ⟨flagged, owned⟩
  refine ⟨h.plain, ?_, ?_, fun valid owned ↦ ?_⟩
  · rw [← h.view]
    exact congrArg P.view device
  · constructor
    · intro valid
      rw [put_store, previous]
      exact (same .residual nofun).2.trans (h.coherent.residual (kept _ nofun valid))
    · intro valid
      rw [put_store, previous]
      exact (same .jacobian nofun).2.trans (h.coherent.jacobian (kept _ nofun valid))
    · rw [put_store, previous]
      exact newton
    · intro valid
      rw [put_store, previous]
      exact (same .gradient nofun).2.trans (h.coherent.gradient (kept _ nofun valid))
  · have owned' := (same .residual nofun).1.symm.trans owned
    have valid' := h.rooted (kept _ nofun valid) owned'
    exact Iterate.isValid_iff.2 ⟨(Iterate.isValid_iff.1 valid').1, owned⟩

theorem computeNewton_advances (h : r.Sound P v afresh) (mayReuse : Bool) :
    Ends (computeNewton mayReuse) r
      (fun _ r' ↦ r.Advances P v afresh
        (if r.isValid .newton then afresh else !r.reuses mayReuse) r')
      (fun _ r' ↦ r.Advances P v afresh afresh r') := by
  have options : ∀ reuse, Ends (Workspace.solve (Table.ofSquare r.store.jacobian)
      (Store.rightHandSide r.store.residual) reuse) r.store.workspace
      (fun _ w ↦ w.options = r.store.workspace.options)
      (fun _ w ↦ w.options = r.store.workspace.options) :=
    fun reuse ↦ Workspace.ends_solve_options _ _ reuse _
  refine .of_result (computeNewton_run r mayReuse) ?_ ?_
  · intro ok r' run
    cases run with
    | known valid =>
      rw [if_pos valid]
      exact .refl h
    | @solved invalid ready ready' x stats w run =>
      rw [invalid, if_neg Bool.false_ne_true]
      have kept : w.options = r.store.workspace.options := (options _).ok run
      refine ⟨h.redirected rfl rfl (fun q ne ↦ ?_) fun valid fresh ↦ ?_, rfl,
        .afterSolve _ _ kept x stats, .inr fun other ne owned ↦ ?_⟩
      · cases q <;> first | exact ⟨rfl, rfl⟩ | exact ⟨rfl, trivial⟩ | exact absurd rfl ne
      · rw [Bool.not_eq_true'] at fresh
        have good := Validity.holds_of_valid (Iterate.isValid_iff.1 valid).1
        rw [Store.accepts, Bool.and_eq_true] at good
        refine ⟨stats, ?_, good.2⟩
        show Workspace.answer w.options _ _ = _
        rw [kept]
        exact answer_of_solve h fresh ready ready' run
      · rw [put_store, Store.afterSolve_owner, if_pos rfl] at owned
        split at owned
        · exact ne (Option.some.inj owned).symm
        · cases owned
    | @refused invalid ready ready' cause w run =>
      rw [invalid, if_neg Bool.false_ne_true]
      have kept : w.options = r.store.workspace.options := (options _).error run
      refine ⟨h.redirected rfl rfl (fun q ne ↦ ?_) fun valid ↦ ?_, rfl, .afterRefusal _ _ kept,
        .inr fun other _ owned ↦ ?_⟩
      · cases q <;> first | exact ⟨rfl, rfl⟩ | exact ⟨rfl, trivial⟩ | exact absurd rfl ne
      · exact absurd valid (Iterate.not_isValid_of_stale rfl)
      · rw [put_store, Store.afterRefusal_owner, if_pos rfl] at owned
        cases owned
  · intro e r' run
    cases run with
    | noResidual invalid h' => exact .refl h
    | noJacobian invalid ready h' h'' => exact .refl h
    | @stopped invalid ready ready' e w h' run =>
      have kept : w.options = r.store.workspace.options := (options _).error run
      refine ⟨h.redirected rfl rfl (fun q _ ↦ ?_) fun valid ↦ ?_, rfl, .withWorkspace _ _ kept,
        .inl rfl⟩
      · cases q <;> first | exact ⟨rfl, rfl⟩ | exact ⟨rfl, trivial⟩
      · exact absurd valid (Iterate.not_isValid_of_stale rfl)

theorem computeGradient_advances (h : r.Sound P v afresh) :
    Ends computeGradient r (fun _ r' ↦ r.Advances P v afresh afresh r')
      (fun _ r' ↦ r.Advances P v afresh afresh r') := by
  have coherent := h.coherent
  refine .of_result (computeGradient_run r) ?_ ?_
  · intro _ r' run
    cases run with
    | known valid => exact .refl h
    | computed invalid ready ready' =>
      refine ⟨⟨h.plain, h.view, ?_, ?_⟩, rfl, .withGradient .., .inl rfl⟩
      · exact {
          residual := fun h ↦ coherent.residual (Iterate.isValid_iff.2 (Iterate.isValid_iff.1 h))
          jacobian := fun h ↦ coherent.jacobian (Iterate.isValid_iff.2 (Iterate.isValid_iff.1 h))
          newton := fun h ↦ coherent.newton (Iterate.isValid_iff.2 (Iterate.isValid_iff.1 h))
          gradient := fun _ ↦ by
            show r.store.jacobian.transposeMulVec r.store.residual = _
            rw [coherent.residual (h.rooted ready ready'), coherent.jacobian ready]
            rfl }
      · exact fun h' h'' ↦ Iterate.isValid_iff.2 (Iterate.isValid_iff.1
          (h.rooted (Iterate.isValid_iff.2 (Iterate.isValid_iff.1 h')) h''))
  · intro e r' run
    cases run with
    | noJacobian invalid h' => exact .refl h
    | noResidual invalid ready h' => exact .refl h

end Rig

end

end OperatingPoint
