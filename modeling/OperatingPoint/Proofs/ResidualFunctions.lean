import OperatingPoint.Proofs.ConductanceTerms
import OperatingPoint.Proofs.ParameterValues

/-!
# Residuals as functions

The equations of a pure device layer have a residual at every point, and so have the equations under
an overlay: `PureDevice.overlaid` is that function.  Of a strategy it depends on what loads do not
change, and on two things that they do change: which unknowns are taken for such without an element,
and whether a seed is still to be used.

Before each load the parameters are forwarded, to the overlay and to the device layer, and each of
them has in the end the value that it was given last.  So an overlay that has been told its
parameters is not changed by being told again, and a device layer that is to have one residual in
all the loads of a line search has to take being told again in the same way: `PureDevice.Settles`.
-/

set_option autoImplicit false

namespace OperatingPoint

open Step

variable {α : Type} [Scalar α] {n : Nat}

/-! ## What a residual depends on -/

/-- Of conductances a residual shows everything but the notes of loads. -/
theorem Gmin.augmentResidual_of_unused {g g' : Gmin α} (unused : g'.unused = g.unused)
    (floating : g'.floating = g.floating) (x f : Vector α n) :
    g'.augmentResidual x f = g.augmentResidual x f := by
  obtain ⟨partition, progress, stop, floor, shift, floating₀⟩ := g
  obtain ⟨rfl, rfl, rfl, rfl⟩ := Gmin.unused_inj unused
  cases floating
  rfl

namespace Augmentation

variable {a a' : Augmentation α}

/-- The unknowns that a strategy takes for such without an element. -/
def floating? (a : Augmentation α) : Option IndexSet := a.gmin?.map Gmin.floating

/-- Whether a strategy is a seed that is still to be used. -/
def pends : Augmentation α → Bool
  | seed s => decide (s.phase = .pending)
  | _ => false

theorem augmentResidual_congr (unused : a'.unused = a.unused)
    (floating : a'.floating? = a.floating?) (pends : a'.pends = a.pends) (x f : Vector α n) :
    (a'.augmentResidual x f).map Prod.snd = (a.augmentResidual x f).map Prod.snd := by
  cases a with
  | gmin g =>
    cases a' with
    | gmin g' =>
      injection unused with unused
      have same := Gmin.augmentResidual_of_unused unused (Option.some.inj floating) x f
      simp only [augmentResidual, same]
      cases g.augmentResidual x f <;> rfl
    | _ => cases unused
  | pseudoTransient p =>
    cases a' with
    | pseudoTransient p' => rfl
    | _ => cases unused
  | clamp c =>
    cases a' with
    | clamp c' =>
      cases unused
      rfl
    | _ => cases unused
  | clampWithGmin g c =>
    cases a' with
    | clampWithGmin g' c' =>
      injection unused with unused clamped
      cases clamped
      have same := Gmin.augmentResidual_of_unused unused (Option.some.inj floating) x f
      simp only [augmentResidual, same]
      cases g.augmentResidual x f with
      | error stop => rfl
      | ok f =>
        show ((c.augmentResidual x f).bind _).map _ = ((c.augmentResidual x f).bind _).map _
        cases c.augmentResidual x f <;> rfl
    | _ => cases unused
  | seed s =>
    cases a' with
    | seed s' =>
      obtain ⟨p, phase⟩ := s
      obtain ⟨p', phase'⟩ := s'
      cases unused
      cases phase <;> cases phase' <;> first | rfl | cases pends
    | _ => cases unused

/-- A residual uses a seed up, and otherwise leaves a strategy as it is. -/
theorem augmentResidual_uses {x f f' : Vector α n} (run : a.augmentResidual x f = .ok (a', f')) :
    a'.pends = false ∧ a'.floating? = a.floating? ∧ (a.pends = false → a' = a) := by
  cases a with
  | gmin g =>
    obtain ⟨_, _, same⟩ := bind_eq_ok.1 run
    cases same
    exact ⟨rfl, rfl, fun _ ↦ rfl⟩
  | pseudoTransient p =>
    cases run
    exact ⟨rfl, rfl, fun _ ↦ rfl⟩
  | clamp c =>
    obtain ⟨_, _, same⟩ := bind_eq_ok.1 run
    cases same
    exact ⟨rfl, rfl, fun _ ↦ rfl⟩
  | clampWithGmin g c =>
    obtain ⟨_, _, run⟩ := bind_eq_ok.1 run
    obtain ⟨_, _, same⟩ := bind_eq_ok.1 run
    cases same
    exact ⟨rfl, rfl, fun _ ↦ rfl⟩
  | seed s =>
    obtain ⟨⟨s', _⟩, used, same⟩ := bind_eq_ok.1 run
    cases same
    unfold Seed.augmentResidual at used
    split at used
    · rename_i pending
      obtain ⟨_, _, same⟩ := bind_eq_ok.1 used
      cases same
      exact ⟨rfl, rfl, fun used ↦ absurd pending (of_decide_eq_false used)⟩
    · rename_i used'
      cases used
      exact ⟨decide_eq_false used', rfl, fun _ ↦ rfl⟩

/-- A Jacobian does not make a seed one that is still to be used. -/
theorem augmentJacobian_pends {A A' : Mat α n n} {load : Nat}
    (run : a.augmentJacobian A load = .ok (a', A')) (used : a.pends = false) :
    a'.pends = false := by
  cases a with
  | gmin g =>
    obtain ⟨_, _, same⟩ := bind_eq_ok.1 run
    cases same
    rfl
  | pseudoTransient p =>
    obtain ⟨_, _, same⟩ := bind_eq_ok.1 run
    cases same
    rfl
  | clamp c =>
    obtain ⟨_, _, same⟩ := bind_eq_ok.1 run
    cases same
    rfl
  | clampWithGmin g c =>
    obtain ⟨_, _, run⟩ := bind_eq_ok.1 run
    obtain ⟨_, _, same⟩ := bind_eq_ok.1 run
    cases same
    rfl
  | seed s =>
    obtain ⟨⟨s', _⟩, pinned, same⟩ := bind_eq_ok.1 run
    cases same
    unfold Seed.augmentJacobian at pinned
    split at pinned
    · obtain ⟨_, _, same⟩ := bind_eq_ok.1 pinned
      cases same
      rfl
    · cases pinned
      exact used

end Augmentation

namespace Overlay

variable {o o' : Overlay α}

/-- The unknowns that the strategy takes for such without an element. -/
def floating? (o : Overlay α) : Option IndexSet := o.strategy.bind Augmentation.floating?

/-- Whether the strategy is a seed that is still to be used. -/
def pends (o : Overlay α) : Bool := o.strategy.any Augmentation.pends

/-- The residual that an overlay makes is the blend of the one that its strategy makes. -/
theorem map_augmentResidual {a : Augmentation α} (there : o.strategy = some a)
    (x f : Vector α n) : (o.augmentResidual x f).map Prod.snd =
      ((a.augmentResidual x f).map Prod.snd).map (o.blendResidual x) := by
  rw [augmentResidual_some there]
  cases a.augmentResidual x f <;> rfl

theorem augmentResidual_congr (kin : o.Kin o') (floating : o'.floating? = o.floating?)
    (pends : o'.pends = o.pends) (x f : Vector α n) :
    (o'.augmentResidual x f).map Prod.snd = (o.augmentResidual x f).map Prod.snd := by
  have blend : (o'.blendResidual x : Vector α n → Vector α n) = o.blendResidual x := by
    funext f
    rw [blendResidual, blendResidual, kin.blend]
  have strategy := kin.strategy
  cases there : o.strategy with
  | none =>
    rw [there] at strategy
    rw [augmentResidual_none there, augmentResidual_none (Option.map_eq_none_iff.1 strategy),
      blend]
    rfl
  | some a =>
    rw [there] at strategy
    obtain ⟨a', there', unused⟩ := Option.map_eq_some_iff.1 strategy
    rw [floating?, floating?, there, there'] at floating
    rw [Overlay.pends, Overlay.pends, there, there'] at pends
    rw [map_augmentResidual there, map_augmentResidual there', blend,
      Augmentation.augmentResidual_congr unused floating pends]

theorem augmentResidual_uses {x f f' : Vector α n} (run : o.augmentResidual x f = .ok (o', f')) :
    o'.pends = false ∧ o'.floating? = o.floating? ∧ (o.pends = false → o' = o) := by
  cases there : o.strategy with
  | none =>
    rw [augmentResidual_none there] at run
    cases run
    exact ⟨by rw [pends, there]; rfl, rfl, fun _ ↦ rfl⟩
  | some a =>
    rw [augmentResidual_some there] at run
    obtain ⟨⟨a', _⟩, changed, same⟩ := bind_eq_ok.1 run
    cases same
    obtain ⟨used, floating, still⟩ := Augmentation.augmentResidual_uses changed
    refine ⟨used, ?_, fun used ↦ ?_⟩
    · rw [floating?, floating?, there]
      exact floating
    · rw [pends, there] at used
      rw [still used, ← there]

/-- Where there is no seed now, there was none that was still to be used. -/
theorem Kin.pends_of_unseeded (kin : o.Kin o') (unseeded : ∀ s, o'.strategy ≠ some (.seed s)) :
    o.pends = false := by
  have strategy := kin.strategy
  unfold pends
  cases there : o.strategy with
  | none => rfl
  | some a =>
    rw [there] at strategy
    obtain ⟨a', there', unused⟩ := Option.map_eq_some_iff.1 strategy
    cases a with
    | seed s =>
      cases a' with
      | seed s' => exact absurd there' (unseeded s')
      | _ => cases unused
    | _ => rfl

/-- Where nothing is taken for floating now, nothing was. -/
theorem Kin.floating?_eq_none (kin : o.Kin o') (grounded : o'.floating? = none) :
    o.floating? = none := by
  have strategy := kin.strategy
  unfold floating? at grounded ⊢
  cases there : o.strategy with
  | none => rfl
  | some a =>
    rw [there] at strategy
    obtain ⟨a', there', unused⟩ := Option.map_eq_some_iff.1 strategy
    rw [there'] at grounded
    have gmin := congrArg Augmentation.gmin? unused
    rw [Augmentation.gmin?_unused, Augmentation.gmin?_unused, Option.map_eq_none_iff.1 grounded]
      at gmin
    exact Option.map_eq_none_iff.2 (Option.map_eq_none_iff.1 gmin.symm)

theorem augmentJacobian_pends {A A' : Mat α n n} {load : Nat}
    (run : o.augmentJacobian load A = .ok (o', A')) (used : o.pends = false) :
    o'.pends = false := by
  cases there : o.strategy with
  | none =>
    rw [augmentJacobian_none there] at run
    cases run
    exact used
  | some a =>
    rw [augmentJacobian_some there] at run
    obtain ⟨⟨a', _⟩, changed, same⟩ := bind_eq_ok.1 run
    cases same
    rw [pends, there] at used
    exact Augmentation.augmentJacobian_pends changed used

end Overlay

/-! ## What parameters do -/

/-- The value that is given last under a name. -/
def Parameters.lastIn {α : Type} (name : String) : List (String × α) → Option α
  | [] => none
  | entry :: rest => (lastIn name rest).or (if entry.1 = name then some entry.2 else none)

/-- A strategy with its progress variable set, if it has one and there is a value. -/
def Augmentation.dialed (value : Option α) (a : Augmentation α) : Augmentation α :=
  (value.bind fun v ↦ (a.setProgress v).toOption).getD a

namespace Augmentation

variable {a a' : Augmentation α}

theorem dialed_of_setProgress {value : α} (told : a.setProgress value = .ok a') :
    a.dialed (some value) = a' := by
  rw [dialed, Option.bind_some, told]
  rfl

/-- Of two values the later one counts. -/
theorem dialed_dialed (later earlier : Option α) (a : Augmentation α) :
    (a.dialed earlier).dialed later = a.dialed (later.or earlier) := by
  cases later with
  | none => rfl
  | some v => cases earlier <;> cases a <;> rfl

/-- Neither the progress variable nor what loads leave has to do with the other. -/
theorem dialed_unused (value : Option α) (a : Augmentation α) :
    (a.unused.dialed value).unused = (a.dialed value).unused := by
  cases value <;> cases a <;> rfl

theorem dialed_floating? (value : Option α) (a : Augmentation α) :
    (a.dialed value).floating? = a.floating? := by
  cases value <;> cases a <;> rfl

theorem dialed_pends (value : Option α) (a : Augmentation α) :
    (a.dialed value).pends = a.pends := by
  cases value <;> cases a <;> rfl

end Augmentation

/-- A blend that is set, if there is a value. -/
def Blend.dialed (value : Option α) (b : Blend α) : Blend α := (value.map b.setLambda).getD b

theorem Blend.dialed_dialed (later earlier : Option α) (b : Blend α) :
    (b.dialed earlier).dialed later = b.dialed (later.or earlier) := by
  cases later <;> cases earlier <;> rfl

namespace Overlay

variable {o o' : Overlay α}

/-- An overlay with its progress variable and its blend set, as far as there are values. -/
def dialed (progress blend : Option α) (o : Overlay α) : Overlay α :=
  { o with
    strategy := o.strategy.map (Augmentation.dialed progress)
    blend := o.blend.map (Blend.dialed blend) }

/-- What an overlay comes to when its parameters are forwarded. -/
def told (o : Overlay α) : Overlay α :=
  if o.forwarding then
    o.dialed (Parameters.lastIn Parameters.progressName o.parameters.entries)
      (Parameters.lastIn Parameters.blendName o.parameters.entries)
  else o

/-- Being told its parameters does not change what an overlay is laid over a residual with. -/
def Obeys (o : Overlay α) : Prop := o.Kin o.told

@[simp] theorem dialed_none (o : Overlay α) : o.dialed none none = o := by
  obtain ⟨parameters, strategy, blend, forwarding⟩ := o
  cases strategy <;> cases blend <;> rfl

theorem dialed_of_setProgress {value : α} (told : o.setProgress value = .ok o') :
    o.dialed (some value) none = o' := by
  obtain ⟨parameters, strategy, blend, forwarding⟩ := o
  cases strategy with
  | none => cases told
  | some a =>
    obtain ⟨a', set, same⟩ := bind_eq_ok.1 told
    cases same
    rw [dialed, Option.map_some, Augmentation.dialed_of_setProgress set]
    cases blend <;> rfl

theorem dialed_of_setBlend {value : α} (told : o.setBlend value = .ok o') :
    o.dialed none (some value) = o' := by
  obtain ⟨parameters, strategy, blend, forwarding⟩ := o
  cases blend with
  | none => cases told
  | some b =>
    cases told
    cases strategy <;> rfl

theorem dialed_dialed (progress progress' blend blend' : Option α) (o : Overlay α) :
    (o.dialed progress' blend').dialed progress blend =
      o.dialed (progress.or progress') (blend.or blend') := by
  simp only [dialed, Option.map_map, Function.comp_def, Augmentation.dialed_dialed,
    Blend.dialed_dialed]

theorem dialed_floating? (progress blend : Option α) (o : Overlay α) :
    (o.dialed progress blend).floating? = o.floating? := by
  unfold floating? dialed
  cases o.strategy with
  | none => rfl
  | some a => exact a.dialed_floating? progress

theorem dialed_pends (progress blend : Option α) (o : Overlay α) :
    (o.dialed progress blend).pends = o.pends := by
  unfold pends dialed
  cases o.strategy with
  | none => rfl
  | some a => exact a.dialed_pends progress

@[simp] theorem told_parameters (o : Overlay α) : o.told.parameters = o.parameters := by
  unfold told
  split <;> rfl

@[simp] theorem told_forwarding (o : Overlay α) : o.told.forwarding = o.forwarding := by
  unfold told
  split <;> rfl

@[simp] theorem told_floating? (o : Overlay α) : o.told.floating? = o.floating? := by
  unfold told
  split
  · exact o.dialed_floating? _ _
  · rfl

@[simp] theorem told_pends (o : Overlay α) : o.told.pends = o.pends := by
  unfold told
  split
  · exact o.dialed_pends _ _
  · rfl

/-- To be told twice is to be told once. -/
@[simp] theorem told_told (o : Overlay α) : o.told.told = o.told := by
  by_cases on : o.forwarding = true
  · have once : o.told = o.dialed _ _ := if_pos on
    rw [told, if_pos (o.told_forwarding.trans on), told_parameters, once, dialed_dialed,
      Option.or_self, Option.or_self]
  · have once : o.told = o := if_neg on
    rw [once, once]

/-- What loads do not change of a strategy tells what they do not change of it when it is set. -/
theorem dialed_unused (progress blend : Option α) (o : Overlay α) :
    (o.dialed progress blend).strategy.map Augmentation.unused =
      (o.strategy.map Augmentation.unused).map fun a ↦ (a.dialed progress).unused := by
  simp only [dialed, Option.map_map, Function.comp_def, Augmentation.dialed_unused]

theorem obeys_told (o : Overlay α) : o.told.Obeys := by
  rw [Obeys, told_told]
  exact .refl _

/-- Whether an overlay obeys its parameters does not depend on what loads leave in it. -/
theorem Obeys.of_kin (h : o.Obeys) (kin : o.Kin o') (parameters : o'.parameters = o.parameters)
    (forwarding : o'.forwarding = o.forwarding) : o'.Obeys := by
  unfold Obeys told at h ⊢
  rw [forwarding]
  split at h
  · rename_i on
    rw [if_pos on, parameters]
    refine ⟨?_, ?_⟩
    · rw [dialed_unused, kin.strategy, ← dialed_unused]
      exact h.strategy
    · show o'.blend.map _ = o'.blend
      rw [kin.blend]
      exact h.blend
  · rename_i off
    rw [if_neg off]
    exact .refl o'

/-- What is laid over a residual by an overlay that obeys its parameters is what is laid over it
once they have been forwarded. -/
theorem Obeys.augmentResidual_told (h : o.Obeys) (x f : Vector α n) :
    (o.told.augmentResidual x f).map Prod.snd = (o.augmentResidual x f).map Prod.snd :=
  augmentResidual_congr h (o.told_floating?) (o.told_pends) x f

end Overlay

/-! ## The device layer -/

variable {δ : Type} [Device δ α]

/-- A device layer that has been given the listed parameters, but for those under reserved names. -/
def Device.told (device : δ) (entries : List (String × α)) : δ :=
  entries.foldl (fun d entry ↦
    if entry.1 = Parameters.progressName ∨ entry.1 = Parameters.blendName then d
    else (Device.setParameter d entry.1 entry.2).2) device

/-- What forwarding makes of the device layer. -/
def Overlay.tell (o : Overlay α) (device : δ) : δ :=
  if o.forwarding then Device.told device o.parameters.entries else device

namespace PureDevice

/-- To be told parameters twice in a row changes no more that a load depends on than to be told them
once. -/
def Settles (P : PureDevice δ α) : Prop :=
  ∀ (entries : List (String × α)) (d d' : δ), P.view d' = P.view (Device.told d entries) →
    P.view (Device.told d' entries) = P.view d'

/-- The residual at `x` with `previous` the solution of the previous point, under an overlay. -/
def overlaid (P : PureDevice δ α) (v : P.View) (o : Overlay α) (previous x : Vector α n) :
    Except Stop (Vector α n) :=
  (o.augmentResidual x (P.residual v x previous)).map Prod.snd

variable {P : PureDevice δ α} {v : P.View} {o o' : Overlay α}

theorem overlaid_congr (kin : o.Kin o') (floating : o'.floating? = o.floating?)
    (pends : o'.pends = o.pends) : P.overlaid (n := n) v o' = P.overlaid v o := by
  funext previous x
  exact Overlay.augmentResidual_congr kin floating pends x _

theorem overlaid_told (obeys : o.Obeys) : P.overlaid (n := n) v o.told = P.overlaid v o :=
  overlaid_congr obeys o.told_floating? o.told_pends

theorem Settles.tell (settles : P.Settles) {d d' : δ}
    (view : P.view d' = P.view (o.tell d)) : P.view (o.tell d') = P.view d' := by
  unfold Overlay.tell at view ⊢
  split
  · rename_i on
    rw [if_pos on] at view
    exact settles _ d d' view
  · rfl

end PureDevice

namespace Circuit

/-- A parameter of a circuit with the value that it is given last. -/
def settled (entries : List (String × Float)) (p : String × Float) : String × Float :=
  if p.1 = Parameters.progressName ∨ p.1 = Parameters.blendName then p
  else (p.1, (Parameters.lastIn p.1 entries).getD p.2)

theorem settled_settled (entries : List (String × Float)) (p : String × Float) :
    settled entries (settled entries p) = settled entries p := by
  unfold settled
  split
  · rfl
  · cases Parameters.lastIn p.1 entries <;> rfl

/-- One more value before the others counts where none of them does. -/
theorem settled_setIn {name : String}
    (free : ¬ (name = Parameters.progressName ∨ name = Parameters.blendName)) (value : Float)
    (entries parameters : List (String × Float)) :
    (setIn name value parameters).map (settled entries) =
      parameters.map (settled ((name, value) :: entries)) := by
  rw [setIn, List.map_map]
  refine List.map_congr_left fun p _ ↦ ?_
  rw [Function.comp_apply]
  split
  · rename_i same
    unfold settled
    rw [if_neg free, if_neg (same ▸ free), Parameters.lastIn, if_pos same.symm, same]
    cases Parameters.lastIn name entries <;> rfl
  · rename_i other
    unfold settled
    rw [Parameters.lastIn, if_neg (Ne.symm other), Option.or_none]

theorem equations_told (entries : List (String × Float)) (c : Circuit) :
    (Device.told c entries).equations =
      (c.equations.1, c.equations.2.map (settled entries)) := by
  induction entries generalizing c with
  | nil =>
    have same : settled [] = id := by
      funext p
      unfold settled
      split <;> rfl
    rw [same, List.map_id]
    rfl
  | cons entry rest ih =>
    unfold Device.told at ih ⊢
    rw [List.foldl_cons, ih]
    split
    · rename_i reserved
      refine congrArg (c.terms, ·) (List.map_congr_left fun p _ ↦ ?_)
      unfold settled
      split
      · rfl
      · rename_i free
        have other : entry.1 ≠ p.1 := fun same ↦ free (same ▸ reserved)
        rw [Parameters.lastIn, if_neg other, Option.or_none]
    · rename_i free
      have set := (setParameter_view c entry.1 entry.2).1
      have there : (Device.setParameter c entry.1 entry.2).2.equations = _ := set
      rw [there, settled_setIn free]
      rfl

/-- The parameters of a circuit settle: each has the value that it was given last. -/
theorem pure_settles : pure.Settles := by
  intro entries d d' view
  have view : d'.equations = (Device.told d entries).equations := view
  show (Device.told d' entries).equations = d'.equations
  rw [equations_told, view, equations_told, List.map_map]
  exact congrArg (d.terms, ·) (List.map_congr_left fun p _ ↦ settled_settled entries p)

end Circuit

namespace Rig

variable [DirectSolver α] {r : Rig δ α n}

theorem forwardOne_relays (name : String) (value : α) (r : Rig δ α n) :
    Ends (forwardOne name value) r
      (fun _ r' ↦ r' = r.relay (Device.told r.store.device [(name, value)])
        (r.track.overlay.dialed (Parameters.lastIn Parameters.progressName [(name, value)])
          (Parameters.lastIn Parameters.blendName [(name, value)])))
      (fun _ _ ↦ True) := by
  unfold forwardOne giveToDevice Parameters.lastIn Parameters.lastIn Device.told
  simp only [ends_bind, ends_get, ends_set, ends_ite, ends_orFault, ends_pure, ends_fault,
    Option.none_or, List.foldl_cons, List.foldl_nil]
  refine ⟨fun reserved ↦ ⟨fun overlay changed ↦ ?_, fun _ _ ↦ trivial⟩,
    fun free ↦ ⟨fun _ ↦ ?_, fun _ ↦ trivial⟩⟩
  · rw [if_pos reserved]
    split at changed
    · rename_i progress
      have other : name ≠ Parameters.blendName := progress ▸ by decide
      rw [if_pos progress, if_neg other, Overlay.dialed_of_setProgress changed]
      rfl
    · rename_i other
      rw [if_neg other, if_pos (reserved.resolve_left other), Overlay.dialed_of_setBlend changed]
      rfl
  · rw [if_neg free]
    rw [not_or] at free
    rw [if_neg free.1, if_neg free.2, Overlay.dialed_none]
    rfl

theorem forwardAll_relays (entries : List (String × α)) (r : Rig δ α n) :
    Ends (forwardAll entries) r
      (fun _ r' ↦ r' = r.relay (Device.told r.store.device entries)
        (r.track.overlay.dialed (Parameters.lastIn Parameters.progressName entries)
          (Parameters.lastIn Parameters.blendName entries)))
      (fun _ _ ↦ True) := by
  induction entries generalizing r with
  | nil =>
    rw [Parameters.lastIn, Parameters.lastIn, Overlay.dialed_none]
    rfl
  | cons entry rest ih =>
    rw [forwardAll, ends_bind]
    refine (forwardOne_relays entry.1 entry.2 r).mono ?_ fun _ _ h ↦ h
    rintro _ _ rfl
    refine (ih _).mono ?_ fun _ _ h ↦ h
    rintro _ _ rfl
    show r.relay _ ((r.track.overlay.dialed _ _).dialed _ _) = _
    rw [Overlay.dialed_dialed]
    rfl

/-- What forwarding comes to, if it comes to an end. -/
theorem forward_relays (r : Rig δ α n) :
    Ends forward r
      (fun _ r' ↦ r' = r.relay (r.track.overlay.tell r.store.device) r.track.overlay.told)
      (fun _ _ ↦ True) := by
  unfold forward Overlay.tell Overlay.told
  simp only [ends_bind, ends_get, ends_ite, ends_pure]
  refine ⟨fun on ↦ ?_, fun off ↦ ?_⟩
  · rw [if_pos on, if_pos on]
    exact forwardAll_relays _ r
  · rw [if_neg off, if_neg off]
    rfl

end Rig

end OperatingPoint
