import OperatingPoint.Proofs.Coherence
import OperatingPoint.Proofs.Journals

/-!
# Traces of loads

A rig to which no parameters are forwarded gets from one state to another by changes of its iterate,
by linear solves, and by loads.  `Rig.LoadsTo` says so and lists the loads in their order, each with
what the device layer has answered and with what the store holds of the answer, once the overlay has
been laid over it.

The loads of a trace are no matter of choice: on a journal they are what the journal has written
down in between.
-/

set_option autoImplicit false

namespace OperatingPoint

open Step

/-- A load at a point, with the answer of the device layer and with what is stored of it.  There is
nothing of a load if the device layer could not evaluate, or if the overlay had no use for the
answer. -/
inductive Loading (α : Type) (n : Nat) where
  | residual (x answer stored : Vector α n)
  | jacobian (x : Vector α n) (answer stored : Mat α n n)
  | noResidual (x : Vector α n)
  | noJacobian (x : Vector α n)

namespace Loading

variable {α : Type} {n : Nat}

/-- What the device layer is asked to do. -/
def request : Loading α n → Device.Request α
  | residual x _ _ => .residual x.toArray
  | jacobian x _ _ => .jacobian x.toArray
  | noResidual x => .residual x.toArray
  | noJacobian x => .jacobian x.toArray

/-- Whether there is anything of the load. -/
def succeeds : Loading α n → Bool
  | residual _ _ _ => true
  | jacobian _ _ _ => true
  | noResidual _ => false
  | noJacobian _ => false

/-- What is stored is what the device layer has answered. -/
def Unmodified : Loading α n → Prop
  | residual _ answer stored => stored = answer
  | jacobian _ answer stored => stored = answer
  | noResidual _ => True
  | noJacobian _ => True

/-- A load that has come to nothing does not count. -/
theorem filter_lost {loads : List (Loading α n)} {l : Loading α n} (lost : l.succeeds = false) :
    (loads ++ [l]).filter succeeds = loads.filter succeeds := by
  simp [lost]

theorem filter_kept {loads : List (Loading α n)} {l : Loading α n} (kept : l.succeeds = true) :
    (loads ++ [l]).filter succeeds = loads.filter succeeds ++ [l] := by
  simp [kept]

end Loading

namespace Rig

variable {δ α : Type} [Scalar α] [DirectSolver α] [Device δ α] {n : Nat}

/-- A rig is reached from another by some loads. -/
inductive LoadsTo (r₀ : Rig δ α n) : List (Loading α n) → Rig δ α n → Prop
  | start : LoadsTo r₀ [] r₀
  | iterate {loads : List (Loading α n)} {r : Rig δ α n} (h : LoadsTo r₀ loads r)
    (it : Iterate α n) : LoadsTo r₀ loads (r.put r.store it r.track.overlay)
  | newton {loads : List (Loading α n)} {r : Rig δ α n} (h : LoadsTo r₀ loads r)
    (mayReuse : Bool) : LoadsTo r₀ loads (Step.after (computeNewton mayReuse) r)
  | residual {loads : List (Loading α n)} {r : Rig δ α n} (h : LoadsTo r₀ loads r)
    {load : Load δ (Vector α n)} (call : load = r.store.residualLoad r.track.x)
    (good : load.ok = true) {overlay : Overlay α} {f : Vector α n}
    (augmented : r.track.overlay.augmentResidual r.track.x load.buffer = .ok (overlay, f))
    (it : Iterate α n) :
    LoadsTo r₀ (loads ++ [.residual r.track.x load.buffer f])
      (r.put { r.store.afterResidual r.track.iterate.id load with residual := f } it overlay)
  | noResidual {loads : List (Loading α n)} {r : Rig δ α n} (h : LoadsTo r₀ loads r)
    {load : Load δ (Vector α n)} (call : load = r.store.residualLoad r.track.x)
    (lost : load.ok = false ∨
      ∃ stop, r.track.overlay.augmentResidual r.track.x load.buffer = .error stop)
    (it : Iterate α n) :
    LoadsTo r₀ (loads ++ [.noResidual r.track.x])
      (r.put (r.store.afterResidual r.track.iterate.id load) it r.track.overlay)
  | jacobian {loads : List (Loading α n)} {r : Rig δ α n} (h : LoadsTo r₀ loads r)
    {load : Load δ (Mat α n n)} (call : load = r.store.jacobianLoad r.track.x)
    (good : load.ok = true) {overlay : Overlay α} {A : Mat α n n}
    (augmented : r.track.overlay.augmentJacobian (r.store.jacobianLoads + 1) load.buffer =
      .ok (overlay, A))
    (it : Iterate α n) :
    LoadsTo r₀ (loads ++ [.jacobian r.track.x load.buffer A])
      (r.put { r.store.afterJacobian r.track.iterate.id load with jacobian := A } it overlay)
  | noJacobian {loads : List (Loading α n)} {r : Rig δ α n} (h : LoadsTo r₀ loads r)
    {load : Load δ (Mat α n n)} (call : load = r.store.jacobianLoad r.track.x)
    (lost : load.ok = false ∨ ∃ stop,
      r.track.overlay.augmentJacobian (r.store.jacobianLoads + 1) load.buffer = .error stop)
    (it : Iterate α n) :
    LoadsTo r₀ (loads ++ [.noJacobian r.track.x])
      (r.put (r.store.afterJacobian r.track.iterate.id load) it r.track.overlay)

/-- On a journal, the loads of a trace are what has been written down. -/
theorem LoadsTo.requests {r₀ r : Rig (Journal δ α) α n} {loads : List (Loading α n)}
    (h : r₀.LoadsTo loads r) :
    r.journal.requests = (loads.map Loading.request).reverse ++ r₀.journal.requests := by
  -- A load is noted before all that was noted earlier.
  have noted : ∀ {r : Rig (Journal δ α) α n} {loads : List (Loading α n)} (l : Loading α n),
      r.journal.requests = (loads.map Loading.request).reverse ++ r₀.journal.requests →
      l.request :: r.journal.requests =
        ((loads ++ [l]).map Loading.request).reverse ++ r₀.journal.requests := by
    intro r loads l written
    rw [written, List.map_append, List.reverse_append]
    rfl
  induction h with
  | start => rfl
  | iterate _ _ ih => exact ih
  | @newton _ r _ mayReuse ih =>
    have redirects : r.Redirects (Step.after (computeNewton mayReuse) r) :=
      (computeNewton_redirects r mayReuse).after
    exact (congrArg Journal.requests redirects.device).trans ih
  | residual _ call _ _ _ ih =>
    subst call
    exact noted (.residual _ _ _) ih
  | noResidual _ call _ _ ih =>
    subst call
    exact noted (.noResidual _) ih
  | jacobian _ call _ _ _ ih =>
    subst call
    exact noted (.jacobian _ _ _) ih
  | noJacobian _ call _ _ ih =>
    subst call
    exact noted (.noJacobian _) ih

end Rig

end OperatingPoint
