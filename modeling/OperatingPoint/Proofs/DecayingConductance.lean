import OperatingPoint.Proofs.Conductances
import OperatingPoint.Proofs.LeadValues
import OperatingPoint.Proofs.Stages

/-!
# Conductances that decay

Gmin stepping takes the logarithm of a conductance along its way and lets a residual conductance
stay at the end.  In exact arithmetic, with any power function that increases, the conductance at
the points that it accepts never grows, is never below the one that stays, and comes to it at the
end of the way and not before.

There are three parts to this: the values of the lead only go towards the end, the strategy has the
value of the lead whenever a solve has ended, since it is told before the first load, and the
conductance follows from the value.
-/

set_option autoImplicit false

namespace OperatingPoint

open Step

/-! ## What the overlay was told -/

namespace Overlay

variable {α : Type} [Scalar α] {n : Nat} {o o' : Overlay α}

/-- The progress of the conductances that are attached. -/
def sweptTo? (o : Overlay α) : Option α := o.gmin?.map Gmin.progress

/-- The progress of the conductances is the value of its parameter. -/
def Heeds (o : Overlay α) : Prop :=
  ∀ v p, o.parameters.get? Parameters.progressName = some v → o.sweptTo? = some p → p = v

theorem reads_sweptTo : Reads Parameters.progressName (sweptTo? (α := α)) fun v ↦ v where
  own := by
    intro o o' value told
    unfold receive setProgress at told
    rw [if_pos rfl] at told
    split at told
    · rename_i a there
      obtain ⟨a', progressed, same⟩ := bind_eq_ok.1 told
      cases same
      rw [sweptTo?, sweptTo?, gmin?, gmin?, there, Option.bind_some, Option.bind_some,
        Augmentation.setProgress_gmin? progressed, Option.map_map, Option.map_map]
      rfl
    · cases told
  other := by
    intro o o' name' value other told
    unfold receive at told
    rw [if_neg other] at told
    split at told
    · rw [sweptTo?, sweptTo?, gmin?, gmin?, (setBlend_lambda told).2]
    · cases told
      rfl

theorem augmentResidual_sweptTo {x f f' : Vector α n}
    (run : o.augmentResidual x f = .ok (o', f')) : o'.sweptTo? = o.sweptTo? := by
  cases there : o.strategy with
  | none =>
    rw [augmentResidual_none there] at run
    cases run
    rfl
  | some a =>
    rw [augmentResidual_some there] at run
    obtain ⟨⟨a', _⟩, changed, same⟩ := bind_eq_ok.1 run
    cases same
    rw [sweptTo?, sweptTo?, gmin?, gmin?, there]
    exact congrArg (Option.map Gmin.progress) (Augmentation.augmentResidual_gmin? changed).1

theorem augmentJacobian_sweptTo {A A' : Mat α n n} {load : Nat}
    (run : o.augmentJacobian load A = .ok (o', A')) : o'.sweptTo? = o.sweptTo? := by
  cases there : o.strategy with
  | none =>
    rw [augmentJacobian_none there] at run
    cases run
    rfl
  | some a =>
    rw [augmentJacobian_some there] at run
    obtain ⟨⟨a', _⟩, changed, same⟩ := bind_eq_ok.1 run
    cases same
    rw [sweptTo?, sweptTo?, gmin?, gmin?, there, Option.bind_some, Option.bind_some,
      (Augmentation.augmentJacobian_gmin? changed).1, Option.map_map]
    rfl

theorem Heeds.of_same (h : o.Heeds) (parameters : o'.parameters = o.parameters)
    (swept : o'.sweptTo? = o.sweptTo?) : o'.Heeds := by
  rw [Heeds, parameters, swept]
  exact h

end Overlay

variable {δ α : Type} [Scalar α] [DirectSolver α] [Device δ α] {n : Nat} {layer : δ}
  {N : String → Prop} {L : Option (Augmentation α)} {B : Option (Array α)}

namespace Rig

variable {r r' : Rig δ α n}

/-- A rig that forwards its parameters, and whose conductances have been told theirs. -/
structure Swept (layer : δ) (L : Option (Augmentation α)) (B : Option (Array α))
    (r : Rig δ α n) : Prop where
  lays : r.Lays layer L B true
  heeds : r.track.overlay.Heeds

/-- A rig whose conductances are told their parameter before the next load, if they have not been
told. -/
structure Sweeps (layer : δ) (L : Option (Augmentation α)) (B : Option (Array α))
    (r : Rig δ α n) : Prop where
  lays : r.Lays layer L B true
  heeds : r.isValid .residual = true → r.track.overlay.Heeds

theorem forward_heeds (names : (r.track.overlay.parameters.entries.map Prod.fst).Nodup)
    (on : r.track.overlay.forwarding = true) :
    Ends forward r (fun _ r' ↦ r'.track.overlay.Heeds) (fun _ _ ↦ True) := by
  have alike := forward_alike r
  unfold forward at alike ⊢
  simp only [ends_bind, ends_get, ends_ite, on, not_true, false_implies, true_implies,
    and_true] at alike ⊢
  refine (alike.and (forwardAll_reads Overlay.reads_sweptTo names)).mono ?_ fun _ _ _ ↦ trivial
  rintro _ r' ⟨alike, told⟩ v p there swept
  rw [alike.parameters] at there
  rw [told v there] at swept
  obtain ⟨_, -, rfl⟩ := Option.map_eq_some_iff.1 swept
  rfl

/-- After a residual has been asked for the conductances have been told their parameter. -/
theorem computeResidual_swept (h : r.Sweeps layer L B) :
    Ends computeResidual r (fun _ r' ↦ r'.Swept layer L B) (fun _ _ ↦ True) := by
  have told := forward_heeds (r := r.computing) h.lays.names h.lays.forwarding
  have heeds : Ends computeResidual r (fun _ r' ↦ r'.track.overlay.Heeds) (fun _ _ ↦ True) := by
    refine .of_result (computeResidual_run r) (fun ok r' run ↦ ?_) fun _ _ _ ↦ trivial
    cases run with
    | known valid => exact h.heeds valid
    | unloaded _ run =>
      have heeds := told.ok run
      exact heeds
    | loaded _ run call good augmented =>
      have heeds := told.ok run
      exact heeds.of_same (Overlay.augmentResidual_alike augmented).parameters
        (Overlay.augmentResidual_sweptTo augmented)
  exact ((computeResidual_lays h.lays).and heeds).mono (fun _ _ kept ↦ ⟨kept.1.1, kept.2⟩)
    fun _ _ _ ↦ trivial

theorem Swept.sweeps (h : r.Swept layer L B) : r.Sweeps layer L B := ⟨h.lays, fun _ ↦ h.heeds⟩

theorem computeJacobian_swept (h : r.Swept layer L B) :
    Ends computeJacobian r (fun _ r' ↦ r'.Swept layer L B) (fun _ _ ↦ True) := by
  have renewed : Ends computeResidual r.outdated (fun _ r' ↦ r'.track.overlay.Heeds)
      (fun _ _ ↦ True) :=
    (computeResidual_swept ⟨h.lays.outdated, fun _ ↦ h.heeds⟩).mono (fun _ _ kept ↦ kept.heeds)
      fun _ _ _ ↦ trivial
  have refreshed : ∀ {r' : Rig δ α n}, Refreshed r r' → r'.track.overlay.Heeds :=
    fun base ↦ base.keeps h.heeds fun _ ↦ renewed
  have heeds : Ends computeJacobian r (fun _ r' ↦ r'.track.overlay.Heeds) (fun _ _ ↦ True) := by
    refine .of_result (computeJacobian_run r) (fun ok r' run ↦ ?_) fun _ _ _ ↦ trivial
    cases run with
    | known => exact h.heeds
    | unrefreshed _ _ run => exact renewed.ok run
    | unloaded _ base call =>
      have heeds := refreshed base
      exact heeds
    | loaded _ base call good augmented =>
      exact (refreshed base).of_same (Overlay.augmentJacobian_alike augmented).parameters
        (Overlay.augmentJacobian_sweptTo augmented)
  exact ((computeJacobian_lays h.lays).and heeds).mono (fun _ _ kept ↦ ⟨kept.1.1, kept.2⟩)
    fun _ _ _ ↦ trivial

/-- What a solve carries along in Gmin stepping. -/
theorem carries_swept :
    Carries (Sweeps (n := n) layer L B) (Swept layer L B) (Swept layer L B) (fun _ ↦ True)
      (fun _ ↦ True) fun _ ↦ True where
  opens h := h.sweeps
  settles h := h
  stops _ := trivial
  point _ := trivial
  enter h := computeResidual_swept h
  first h :=
    (computeJacobian_swept h).mono (fun _ _ kept ↦ ⟨kept, fun _ ↦ kept⟩) fun _ _ _ ↦ trivial
  residual h := computeResidual_swept h.sweeps
  jacobian h := computeJacobian_swept h
  newton {r} h mayReuse := by
    refine ((computeNewton_lays h.lays mayReuse).and (computeNewton_redirects r mayReuse)).mono
      (fun _ _ kept ↦ ⟨⟨kept.1.1, ?_⟩, fun _ ↦ trivial⟩) fun _ _ _ ↦ trivial
    rw [kept.2.overlay]
    exact h.heeds
  move h _ _ _ := ⟨keeps_lays.move h.lays _, h.heeds⟩

end Rig

namespace Stepper

variable {s : Stepper α} {e : Engine δ α n}

/-- What a stepper of conductances carries along. -/
theorem carries_swept (s : Stepper α) :
    s.Carries (Rig.Sweeps (n := n) layer L B) (Rig.Swept layer L B) (Rig.Swept layer L B)
      (fun _ ↦ True) (fun _ ↦ True) fun _ ↦ True where
  toCarries := Rig.carries_swept
  set {r} h value := by
    refine ⟨setAll_keeps Rig.keepsSteps_lays h.lays value, fun valid ↦ ?_⟩
    have same : s.setAll value r.track = r.track :=
      Rig.track_eq_of_valid (s.setAll_shifts value r.track) valid
    rw [same] at valid ⊢
    exact h.heeds valid
  back h _ := ⟨Rig.keeps_lays.move h.lays _, fun valid ↦ absurd valid
    (Iterate.not_isValid_of_stale (q := .residual) rfl)⟩
  accept h := ⟨Rig.keepsSteps_lays.accept h.lays, h.heeds⟩
  abandon h := ⟨Rig.keepsSteps_lays.abandon h.lays, h.heeds⟩

variable {V W S J : Rig δ α n → Prop} {X D : Vector α n → Prop} {a : s.Attempt δ n}
  {outcome : Outcome α} {e' : Engine δ α n}

/-- An attempt carries along what its solve does. -/
theorem Carries.attempt (carries : s.Carries V W S J X D) {value : α} (here : a = ⟨value, e⟩)
    (h : V e.rig) (solved : a.solve = .ok outcome e') : W e'.rig := by
  subst here
  exact (Engine.solve_carries (e := s.ready value e) carries.toCarries (carries.set h value)).ok
    solved

theorem Carries.succeeded (carries : s.Carries V W S J X D) (h : W e.rig) :
    W e.succeeded.rig := Rig.handedOver_keeps h (carries.accept h)

theorem Carries.wentBack (carries : s.Carries V W S J X D) (h : W e.rig) (value : α)
    {x : Vector α n} (accepted : X x) : V (s.wentBack value x e.failed).rig :=
  carries.set (carries.back (carries.abandon h) accepted) value

/-- Every attempt begins with what is known before a solve. -/
theorem Course.carried (carries : s.Carries V W S J X D) {attempts : Nat} {step : α}
    {x : Vector α n} {report : ContinuationReport α} {trace : List (s.Attempt δ n)}
    {result : EStateM.Result Stop (Engine δ α n) (ContinuationReport α)}
    (course : s.Course attempts step x report e trace result) (h : V e.rig) (accepted : X x) :
    ∀ a ∈ trace, V a.before.rig := by
  induction course with
  | usedUp => exact List.forall_mem_nil _
  | stopped here => exact List.forall_mem_singleton.2 (here ▸ h)
  | arrived here => exact List.forall_mem_singleton.2 (here ▸ h)
  | givenUp here => exact List.forall_mem_singleton.2 (here ▸ h)
  | onward here solved converged short course ih =>
    have kept := carries.succeeded (carries.attempt here h solved)
    exact List.forall_mem_cons.2 ⟨here ▸ h, ih (carries.opens kept) (carries.point kept)⟩
  | back here solved unconverged large course ih =>
    have kept := carries.attempt here h solved
    exact List.forall_mem_cons.2 ⟨here ▸ h, ih (carries.wentBack kept _ accepted) accepted⟩

theorem attempts_carried (carries : s.Carries V W S J X D) (h : V (forwarding e).rig) :
    ∀ a ∈ s.attempts e, V a.before.rig := by
  have opening := s.opening e
  generalize s.attempts e = trace, s.run e = result at opening ⊢
  cases opening with
  | stopped here => exact List.forall_mem_singleton.2 (here ▸ h)
  | unsolved here => exact List.forall_mem_singleton.2 (here ▸ h)
  | arrived here => exact List.forall_mem_singleton.2 (here ▸ h)
  | onward here solved converged short course =>
    have kept := carries.succeeded (carries.attempt here h solved)
    exact List.forall_mem_cons.2
      ⟨here ▸ h, course.carried carries (carries.opens kept) (carries.point kept)⟩

/-- No attempt but the last has found a solution at the end of the way. -/
theorem Course.short {attempts : Nat} {step : α} {x : Vector α n} {report : ContinuationReport α}
    {trace : List (s.Attempt δ n)}
    {result : EStateM.Result Stop (Engine δ α n) (ContinuationReport α)}
    (course : s.Course attempts step x report e trace result) :
    trace.Pairwise fun a _ ↦ a.arrives = false := by
  induction course with
  | usedUp => exact .nil
  | stopped | arrived | givenUp => exact List.pairwise_singleton ..
  | onward here solved converged short course ih =>
    exact List.pairwise_cons.2 ⟨fun _ _ ↦ by rw [Attempt.arrives, short, Bool.and_false], ih⟩
  | back here solved unconverged large course ih =>
    refine List.pairwise_cons.2 ⟨fun _ _ ↦ ?_, ih⟩
    rw [Attempt.arrives, Attempt.converged_of_ok solved, unconverged, Bool.false_and]

theorem attempts_short (s : Stepper α) (e : Engine δ α n) :
    (s.attempts e).Pairwise fun a _ ↦ a.arrives = false := by
  have opening := s.opening e
  generalize s.attempts e = trace, s.run e = result at opening ⊢
  cases opening with
  | stopped | unsolved | arrived => exact List.pairwise_singleton ..
  | onward here solved converged short course =>
    exact List.pairwise_cons.2
      ⟨fun _ _ ↦ by rw [Attempt.arrives, short, Bool.and_false], course.short⟩

end Stepper

/-! ## The conductance at an accepted point -/

namespace Stepper

variable {s : Stepper α} {e : Engine δ α n} {a : s.Attempt δ n} {b : Augmentation α} {g : Gmin α}

/-- The conductance that an attempt ends with. -/
def Attempt.conductance? (a : s.Attempt δ n) : Option α :=
  a.left.rig.track.overlay.gmin?.map Gmin.conductance

omit [DirectSolver α] [Device δ α] in
/-- The parameter of the lead is the value of the attempt. -/
theorem setAll_lead (exact : Scalar.Exact α) (single : s.coupled = []) (value : α) (t : Track α n) :
    (s.setAll value t).overlay.parameters.get? s.lead.name = some value := by
  rw [setAll, single, List.foldl_nil]
  rcases t.setParameter_overlay s.lead.name value with set | ⟨unchanged, old, known, equal⟩
  · rw [set]
    show (t.overlay.parameters.set s.lead.name value).get? s.lead.name = some value
    rw [Parameters.get?_set, if_pos rfl]
  · rw [unchanged, known, exact.eq_of_beq equal]

/-- An attempt that has found a solution has found it with the conductance of its value. -/
theorem Attempt.conductance?_eq (exact : Scalar.Exact α) (single : s.coupled = [])
    (name : s.lead.name = Parameters.progressName)
    (h : a.before.rig.Sweeps layer (some b.frame) B) (conducts : b.gmin? = some g)
    (found : a.converged = true) :
    a.conductance? = some (Gmin.conductanceAt a.value g.stop g.floor) := by
  cases solved : a.solve with
  | error stop e' =>
    rw [Attempt.converged_of_error solved] at found
    cases found
  | ok outcome e' =>
    obtain ⟨lays, heeds⟩ := (carries_swept s).attempt (e := a.before) rfl h solved
    have ready := setAll_keeps (s := s) Rig.keepsSteps_lays h.lays a.value
    have frames := ((Engine.solve_keeps (e := s.ready a.value a.before) (Rig.keeps_frames _)
      ⟨ready.rest, .refl _⟩).ok solved).arrives.keeps.2
    have told : e'.rig.track.overlay.parameters.get? Parameters.progressName = some a.value := by
      rw [frames.overlay.parameters, ← name]
      exact setAll_lead exact single a.value a.before.rig.track
    obtain ⟨c, attached, frame⟩ := Option.map_eq_some_iff.1 lays.strategy
    have same : c.frame.gmin? = b.frame.gmin? := congrArg Augmentation.gmin? frame
    rw [Augmentation.gmin?_frame, Augmentation.gmin?_frame, conducts] at same
    obtain ⟨g', conducts', same⟩ := Option.map_eq_some_iff.1 same
    injection same with _ _ stop floor
    have there : e'.rig.track.overlay.gmin? = some g' := by
      rw [Overlay.gmin?, attached]
      exact conducts'
    have progress : g'.progress = a.value := by
      refine heeds _ _ told ?_
      rw [Overlay.sweptTo?, there]
      rfl
    rw [conductance?, a.left_of_ok solved, there, Option.map_some, Gmin.conductance, progress, stop,
      floor]

end Stepper

/-! ## Along the way -/

variable {K : Type} [Field K] [LinearOrder K] [IsStrictOrderedRing K]

/-- The powers of ten are a function on the line that increases. -/
structure Scalar.Line.Steep (line : Scalar.Line K α) (power : K → K) : Prop where
  exp10 : ∀ p, Scalar.exp10 (line.of p) = line.of (power p)
  increasing : StrictMono power

/-- The extended rational numbers, with powers that increase. -/
def SteepRat : Type := ExtendedRat

namespace SteepRat

/-- A function that increases and is positive. -/
def power (p : ℚ) : ℚ := if 0 ≤ p then 1 + p else (1 - p)⁻¹

instance instScalar : Scalar SteepRat :=
  { ExtendedRat.instScalar with
    exp10 := fun a ↦ match a with
      | .number q => .number (power q)
      | a => a }

instance instDecidableEq : DecidableEq SteepRat := inferInstanceAs (DecidableEq ExtendedRat)

instance instDirectSolver : DirectSolver SteepRat := inferInstanceAs (DirectSolver ExtendedRat)

theorem exact : Scalar.Exact SteepRat := by
  obtain ⟨⟩ := ExtendedRat.exact
  constructor <;> assumption

def line : Scalar.Line ℚ SteepRat :=
  { ExtendedRat.line with }

theorem steep : line.Steep power where
  exp10 _ := rfl
  increasing := by
    intro p q lt
    unfold power
    split <;> split
    · linarith
    · linarith
    · rename_i p_neg q_nonneg
      have : (1 - p)⁻¹ < 1 := inv_lt_one_of_one_lt₀ (by linarith)
      linarith
    · exact inv_strictAnti₀ (by linarith) (by linarith)

end SteepRat

variable {line : Scalar.Line K α} {power : K → K}

namespace Gmin

variable {q v w f : K}

omit [DirectSolver α]

theorem conductanceAt_of (steep : line.Steep power) (above : q ≤ v) (f : K) :
    conductanceAt (line.of v) (line.of q) (line.of f) = line.of (power v - power q + f) := by
  have le : power q ≤ power v := steep.increasing.monotone above
  rw [conductanceAt, steep.exp10, steep.exp10, ← line.sub, ← line.add, line.max,
    max_eq_left (by linarith)]

theorem floor_le_conductanceAt (steep : line.Steep power) (above : q ≤ v) :
    line.of f ≤ conductanceAt (line.of v) (line.of q) (line.of f) := by
  have le := steep.increasing.monotone above
  rw [conductanceAt_of steep above, line.le_iff]
  linarith

theorem floor_lt_conductanceAt (steep : line.Steep power) (above : q < v) :
    line.of f < conductanceAt (line.of v) (line.of q) (line.of f) := by
  have lt := steep.increasing above
  rw [conductanceAt_of steep above.le, line.lt_iff]
  linarith

/-- Only at the end of the way does nothing but the floor stay. -/
theorem conductanceAt_eq_floor_iff (steep : line.Steep power) (above : q ≤ v) :
    conductanceAt (line.of v) (line.of q) (line.of f) = line.of f ↔ v = q := by
  rw [conductanceAt_of steep above]
  constructor
  · intro same
    exact steep.increasing.injective (by linarith [line.injective same])
  · rintro rfl
    rw [sub_self, zero_add]

/-- Conductances go down with their parameter. -/
theorem conductanceAt_le_conductanceAt (steep : line.Steep power) (above : q ≤ w) (below : w ≤ v) :
    conductanceAt (line.of w) (line.of q) (line.of f) ≤
      conductanceAt (line.of v) (line.of q) (line.of f) := by
  have le := steep.increasing.monotone below
  rw [conductanceAt_of steep above, conductanceAt_of steep (above.trans below), line.le_iff]
  linarith

end Gmin

namespace Stepper

variable {s : Stepper α} {e : Engine δ α n}

omit [Scalar α] [DirectSolver α] [Device δ α] in
/-- Numbers in order from one to another descend, if the one is not below the other. -/
theorem descends_of_ordered {d v q : K} {values : List K} (unit : d = 1 ∨ d = -1)
    (ordered : (v :: values ++ [q]).Pairwise fun u w ↦ d * u ≤ d * w) (above : q ≤ v) :
    values.Pairwise (fun u w ↦ w ≤ u) ∧ ∀ u ∈ values, q ≤ u := by
  obtain ⟨first, ordered⟩ := List.pairwise_cons.1 ordered
  obtain ⟨among, -, last⟩ := List.pairwise_append.1 ordered
  have first : ∀ u ∈ values, d * v ≤ d * u := fun u mem ↦ first u (List.mem_append_left _ mem)
  have last : ∀ u ∈ values, d * u ≤ d * q := fun u mem ↦ last u mem q (List.mem_singleton_self q)
  rcases unit with rfl | rfl
  · -- The way has no length, and all the numbers are the same.
    simp only [one_mul] at first last
    exact ⟨List.pairwise_of_forall_mem_list fun u mem w mem' ↦
      (last w mem').trans (above.trans (first u mem)), fun u mem ↦ above.trans (first u mem)⟩
  · simp only [neg_one_mul, neg_le_neg_iff] at among last
    exact ⟨among, last⟩

/-- The accepted values of a stepper that goes down. -/
theorem acceptedValues_descend (line : Scalar.Line K α) (proceeds : s.Proceeds)
    (descends : s.stop ≤ s.lead.start) (e : Engine δ α n) :
    ∃ (q : K) (values : List K), s.stop = line.of q ∧
      acceptedValues (s.attempts e) = values.map line.of ∧
      values.Pairwise (fun u w ↦ w ≤ u) ∧ ∀ u ∈ values, q ≤ u := by
  have opening := s.opening e
  generalize s.attempts e = trace at opening ⊢
  cases trace with
  | nil => cases opening
  | cons first rest =>
    obtain ⟨d, q, m, g, way, lies⟩ := proceeds.way line
    obtain ⟨start, leads, -⟩ := opening.leads
    obtain ⟨values, same, ordered⟩ := leads.ascends way lies
    obtain ⟨v, begins⟩ := line.finite_iff.1 proceeds.start
    rw [begins, way.stop, line.le_iff] at descends
    -- The start heads the list, and the end is its last entry.
    obtain ⟨v', values, rfl, head, tail⟩ := List.map_eq_cons_iff.1 same.symm
    obtain ⟨values, _, rfl, middle, last⟩ := List.map_eq_append_iff.1 tail
    obtain ⟨q', rfl, ending⟩ := List.map_eq_singleton_iff.1 last
    have ending : line.of q' = line.of q := ending.trans way.stop
    have head : line.of v' = line.of v := head.trans begins
    obtain rfl := line.injective ending
    obtain rfl := line.injective head
    by_cases found : first.converged = true
    · refine ⟨q', v' :: values, way.stop, ?_, descends_of_ordered way.unit (v := v')
        (List.pairwise_cons.2 ⟨fun w mem ↦ ?_, ordered⟩) descends⟩
      · rw [acceptedValues_cons_of_pos found, start, begins, ← middle]
        rfl
      · rcases List.mem_cons.1 mem with rfl | mem
        · exact le_rfl
        · exact (List.pairwise_cons.1 ordered).1 w mem
    · rw [acceptedValues_cons_of_neg found]
      exact ⟨q', values, way.stop, middle.symm, descends_of_ordered way.unit ordered descends⟩

/-- The conductances at those attempts that have found a solution. -/
def acceptedConductances (trace : List (s.Attempt δ n)) : List (Option α) :=
  (trace.filter Attempt.converged).map Attempt.conductance?

/-- The accepted conductances never grow, and one that is followed by another is above the one that
stays. -/
theorem conductances_of_attempts (exact : Scalar.Exact α) (steep : line.Steep power)
    (proceeds : s.Proceeds) (descends : s.stop ≤ s.lead.start) (single : s.coupled = [])
    (name : s.lead.name = Parameters.progressName) {b : Augmentation α} {g : Gmin α}
    (conducts : b.gmin? = some g) (same_stop : g.stop = s.stop)
    (finite : Scalar.isFinite g.floor = true)
    (h : (forwarding e).rig.Sweeps layer (some b.frame) B) :
    ∃ conductances : List α, acceptedConductances (s.attempts e) = conductances.map some ∧
      conductances.Pairwise (fun c c' ↦ g.floor < c ∧ c' ≤ c) ∧
      (∀ c ∈ conductances, g.floor ≤ c) ∧
      (g.floor ∈ conductances ↔ ∃ a ∈ s.attempts e, a.arrives = true) := by
  obtain ⟨q, values, stop, accepted, down, above⟩ := acceptedValues_descend line proceeds descends e
  obtain ⟨f, floor⟩ := line.finite_iff.1 finite
  have carried := attempts_carried (carries_swept s) h
  have short := (s.attempts_short e).filter Attempt.converged
  have member : ∀ a ∈ (s.attempts e).filter Attempt.converged,
      a ∈ s.attempts e ∧ a.converged = true := fun a mem ↦ List.mem_filter.1 mem
  have ordered : ((s.attempts e).filter Attempt.converged).Pairwise
      fun a b ↦ b.value ≤ a.value := by
    rw [← List.pairwise_map (f := Attempt.value) (R := fun u w ↦ w ≤ u),
      show ((s.attempts e).filter Attempt.converged).map Attempt.value = _ from accepted,
      List.pairwise_map]
    exact down.imp line.le_iff.2
  have number : ∀ a ∈ (s.attempts e).filter Attempt.converged, ∃ v, a.value = line.of v ∧ q ≤ v := by
    intro a mem
    have listed : a.value ∈ acceptedValues (s.attempts e) := List.mem_map_of_mem mem
    rw [accepted] at listed
    obtain ⟨v, known, there⟩ := List.mem_map.1 listed
    exact ⟨v, there.symm, above v known⟩
  generalize s.attempts e = trace at *
  rw [floor]
  refine ⟨(trace.filter Attempt.converged).map fun a ↦
    Gmin.conductanceAt a.value (line.of q) (line.of f), ?_, ?_, ?_, ?_⟩
  · rw [acceptedConductances, List.map_map]
    refine List.map_congr_left fun a mem ↦ ?_
    obtain ⟨made, found⟩ := member a mem
    rw [Attempt.conductance?_eq exact single name (carried a made) conducts found, same_stop, stop,
      floor]
    rfl
  · rw [List.pairwise_map]
    refine (short.and ordered).imp_of_mem fun {a b} mem mem' both ↦ ?_
    obtain ⟨v, value, high⟩ := number a mem
    obtain ⟨w, value', high'⟩ := number b mem'
    obtain ⟨early, below⟩ := both
    rw [Attempt.arrives, (member a mem).2, Bool.true_and, value, stop,
      line.beq_eq_false_iff] at early
    rw [value, value', line.le_iff] at below
    rw [value, value']
    exact ⟨Gmin.floor_lt_conductanceAt steep (lt_of_le_of_ne high early.symm),
      Gmin.conductanceAt_le_conductanceAt steep high' below⟩
  · intro c listed
    obtain ⟨a, mem, rfl⟩ := List.mem_map.1 listed
    obtain ⟨v, value, high⟩ := number a mem
    rw [value]
    exact Gmin.floor_le_conductanceAt steep high
  · rw [List.mem_map]
    refine exists_congr fun a ↦ ?_
    constructor
    · rintro ⟨mem, same⟩
      obtain ⟨v, value, high⟩ := number a mem
      obtain ⟨made, found⟩ := member a mem
      rw [value, Gmin.conductanceAt_eq_floor_iff steep high] at same
      refine ⟨made, ?_⟩
      rw [Attempt.arrives, found, value, stop, Bool.true_and, line.beq_iff]
      exact same
    · rintro ⟨made, there⟩
      obtain ⟨found, there⟩ := Bool.and_eq_true_iff.1 there
      have mem := List.mem_filter.2 ⟨made, found⟩
      obtain ⟨v, value, high⟩ := number a mem
      rw [value, stop, line.beq_iff] at there
      refine ⟨mem, ?_⟩
      rw [value]
      exact (Gmin.conductanceAt_eq_floor_iff steep high).2 there

/-- A run is finished if one of its attempts has found a solution at the end of the way. -/
theorem finished_iff (s : Stepper α) (e : Engine δ α n) :
    Ends s.run e (fun report _ ↦ report.finished = true) (fun _ _ ↦ False) ↔
      ∃ a ∈ s.attempts e, a.arrives = true := by
  have opening := s.opening e
  generalize s.attempts e = trace at opening ⊢
  cases trace with
  | nil => cases opening
  | cons first rest =>
    refine Iff.trans ?_ opening.counts.2.1
    cases run : s.run e with
    | ok report e' =>
      rw [ends_of_ok run]
      exact ⟨fun finished ↦ ⟨report, e', rfl, finished⟩, fun ⟨_, _, same, finished⟩ ↦ by
        cases same
        exact finished⟩
    | error stop e' =>
      rw [ends_of_error run]
      exact ⟨False.elim, fun ⟨_, _, same, _⟩ ↦ by cases same⟩

end Stepper

/-! ## Gmin stepping -/

/-- Options of a sweep down to its end, in finite numbers. -/
structure GminOptions.Descends (g : GminOptions α) : Prop where
  start : Scalar.isFinite g.start = true
  stop : Scalar.isFinite g.stop = true
  initialStep : Scalar.isFinite g.initialStep = true
  maxStep : Scalar.isFinite g.maxStep = true
  residualConductance : Scalar.isFinite g.residualConductance = true
  stop_le_start : g.stop ≤ g.start
  maxStep_nonneg : 0 ≤ g.maxStep

omit [DirectSolver α] in
/-- The stepper of a sweep grows its steps to twice their length. -/
theorem GminOptions.Descends.proceeds {g : GminOptions α} (h : g.Descends)
    (line : Scalar.Line K α) : Stepper.Proceeds ⟨g.sweep, g.stop, []⟩ where
  start := h.start
  stop := h.stop
  initialStep := h.initialStep
  maxStep := h.maxStep
  growthFactor := by
    show Scalar.isFinite ((2 : Nat) : α) = true
    rw [← line.natCast]
    exact line.finite _
  maxStep_nonneg := h.maxStep_nonneg
  growthFactor_nonneg := by
    show (0 : α) ≤ ((2 : Nat) : α)
    rw [← line.natCast, ← line.zero, line.le_iff]
    exact Nat.cast_nonneg 2

namespace Drive

variable {d : Drive δ α n} {ctx : ContinuationContext α} {options : ModeOptions α}

variable (ctx options) in
/-- Where the conductances are laid over the equations they are told their parameter before the
first load. -/
theorem layConductance_sweeps (laid : d.engine.rig.Lays layer none none false) :
    Ends (layConductance options ctx) d
      (fun _ d' ↦ ∃ (b : Augmentation α) (g : Gmin α), b.gmin? = some g ∧
        g.stop = options.continuation.gmin.stop ∧
        g.floor = options.continuation.gmin.residualConductance ∧
        (Stepper.forwarding d'.engine).rig.Sweeps layer (some b.frame) none)
      (fun _ _ ↦ True) := by
  -- A strategy that has just been attached leaves nothing computed.
  have told : ∀ {r : Rig δ α n} {b : Augmentation α} {t : Track α n},
      r.Lays layer none none false → r.track.attach b = .ok t →
      (r.withTrack ((t.setForwarding true).setForwarding true)).Sweeps layer (some b.frame)
        none := by
    intro r b t laid attached
    have shifts := (t.setForwarding_shifts true).trans ((t.setForwarding true).setForwarding_shifts
      true)
    refine ⟨((laid.attach attached).setForwarding true).setForwarding true, fun valid ↦ ?_⟩
    have fresh := Rig.not_isValid_of_fresh (r := r.withTrack t) (Track.attach_flags attached)
    rw [Rig.track_eq_of_valid (r := r.withTrack t) shifts valid] at valid
    exact absurd ((fresh _).symm.trans valid) Bool.false_ne_true
  unfold layConductance
  rw [ends_bind, ends_orFault]
  refine ⟨fun clamp _ ↦ ?_, fun _ _ ↦ trivial⟩
  cases clamp with
  | some clamp =>
    simp only [ends_bind, ends_impose, ends_attach, ends_modifyTrack]
    refine ⟨fun x _ ↦ ⟨fun t attached ↦ ?_, fun _ _ ↦ trivial⟩, fun _ _ ↦ trivial⟩
    have swept := told (Rig.keeps_lays.move laid x) attached
    exact ⟨.clampWithGmin _ clamp, _, rfl, rfl, rfl, swept⟩
  | none =>
    simp only [ends_bind, ends_attach, ends_modifyTrack]
    refine ⟨fun t attached ↦ ?_, fun _ _ ↦ trivial⟩
    have swept := told laid attached
    exact ⟨.gmin _, _, rfl, rfl, rfl, swept⟩

/-- The only stage of a sweep: its conductances do what those of its attempts do. -/
theorem conductances_of_stages (exact : Scalar.Exact α) (steep : line.Steep power)
    (laid : d.engine.rig.Lays layer none none false) {g : GminOptions α}
    (chosen : options.continuation.gmin = g) (descends : g.Descends) :
    ∀ stage ∈ stages options ctx .gminStepping d, ∃ conductances : List α,
      Stepper.acceptedConductances stage.attempts = conductances.map some ∧
      conductances.Pairwise (fun c c' ↦ g.residualConductance < c ∧ c' ≤ c) ∧
      (∀ c ∈ conductances, g.residualConductance ≤ c) ∧
      (g.residualConductance ∈ conductances ↔ stage.Finished) := by
  subst chosen
  intro stage listed
  have swept := layConductance_sweeps ctx options laid
  unfold stages at listed
  rw [show phasesOf options.continuation .gminStepping = .ok none from rfl] at listed
  dsimp only at listed
  split at listed
  · rename_i d' lays
    obtain rfl := List.mem_singleton.1 listed
    obtain ⟨b, g, conducts, stop, floor, sweeps⟩ := swept.ok lays
    have decays := Stepper.conductances_of_attempts exact steep (descends.proceeds line)
      descends.stop_le_start rfl rfl conducts stop (floor ▸ descends.residualConductance) sweeps
    rw [floor, ← Stepper.finished_iff] at decays
    exact decays
  · cases listed

end Drive

namespace Analysis

variable {c : Communicator α} {o : SolverOptions α} {a₀ : Analysis δ α}

/-- **Decay.**  In exact arithmetic, with powers of ten that increase, the conductances at the
points that a sweep accepts never grow and are never below the one that is to stay.  One of them is
the one that is to stay if and only if the sweep is finished, and then it is the last. -/
theorem conductances_of_history (exact : Scalar.Exact α) (steep : line.Steep power)
    (made : new layer c o = .ok a₀) (history : List (Request α))
    (sweeping : (a₀.run history).effectiveSolveType = .gminStepping)
    {g : GminOptions α}
    (chosen : (o.ofMode (a₀.run history).session.mode).continuation.gmin = g)
    (descends : g.Descends) :
    ∀ stage ∈ (a₀.run history).stages, ∃ conductances : List α,
      Stepper.acceptedConductances stage.attempts = conductances.map some ∧
      conductances.Pairwise (fun c c' ↦ g.residualConductance < c ∧ c' ≤ c) ∧
      (∀ c ∈ conductances, g.residualConductance ≤ c) ∧
      (g.residualConductance ∈ conductances ↔ stage.Finished) := by
  have settles : ∀ n, Rig.Settles layer (fun _ ↦ True)
      (Rig.Laid (α := α) (n := n) layer (fun _ ↦ True) none none false) :=
    fun _ ↦ Rig.settles_laid
  have kept := run_kept settles (fun _ _ _ _ ↦ .inl trivial) (kept_of_new settles made) history
  generalize a₀.run history = a at *
  have ready : Ends (ensureBuilt >>= fun _ ↦ ensureContext) a
      (fun _ ready ↦ ready.Prepared (fun n ↦ Rig.Laid (n := n) layer (fun _ ↦ True) none none
        false) c o) (fun _ _ ↦ True) := by
    rw [ends_bind]
    refine (ensureBuilt_keeps settles kept).mono (fun _ _ built ↦ ?_) fun _ _ _ ↦ trivial
    exact (ensureContext_keeps built.1).mono (fun _ _ read ↦ read.1) fun _ _ _ ↦ trivial
  intro stage listed
  unfold stages at listed
  split at listed
  · rename_i ctx a' run
    split at listed
    · rename_i e there
      have prepared := ready.ok run
      have ⟨options, mode, complete⟩ := (ready_same a).ok run
      have next : a'.effectiveSolveType = .gminStepping := by
        rw [← sweeping]
        unfold effectiveSolveType
        rw [options, mode, complete]
      rw [next, prepared.options, mode] at listed
      have fits := prepared.engine_fits there
      exact Drive.conductances_of_stages exact steep fits.keeps.toLays chosen descends stage listed
    · cases listed
  · cases listed

/-- A device layer of one resistor that carries a current. -/
structure SteepResistor where

instance SteepResistor.instDevice : Device SteepResistor SteepRat where
  unknowns _ := 1
  loadResidual r x _ _ := ⟨true, Vector.ofFn fun i ↦ x.get i - 1, r⟩
  loadJacobian r _ _ _ := ⟨true, Mat.ofFn fun _ _ ↦ 1, r⟩

/-- Options of a sweep from two to zero, in steps of one. -/
def unitSweep : SolverOptions SteepRat :=
  let standard : SolverOptions SteepRat := .standard
  { standard with
    dcOp := { standard.dcOp with
      continuation := { standard.dcOp.continuation with
        solveType := .gminStepping
        gmin := {
          start := 2.0
          stop := 0
          initialStep := 1
          minStep := 0.25
          maxStep := 1
          maxSteps := 4
          residualConductance := 0.5 } } } }

/-- The sweep is finished, with the conductance that stays. -/
theorem conductances_of_history_unitSweep :
    ∃ a₀ : Analysis SteepResistor SteepRat, new {} .serial unitSweep = .ok a₀ ∧
      ∃ stage ∈ (a₀.run []).stages,
        Stepper.acceptedConductances stage.attempts = [some 2.5, some 1.5, some 0.5] ∧
          stage.Finished := by
  have ran : Yields (new {} .serial unitSweep : Except Stop (Analysis SteepResistor SteepRat))
      fun a₀ ↦ a₀.effectiveSolveType = .gminStepping ∧
        a₀.session.mode = .dcOperatingPoint ∧
        (a₀.stages.map fun stage ↦ Stepper.acceptedConductances stage.attempts) =
          [[some 2.5, some 1.5, some 0.5]] := by
    decide +kernel
  obtain ⟨a₀, made, sweeping, mode, swept⟩ := ran.exists
  obtain ⟨stage, stages, accepted⟩ := List.map_eq_singleton_iff.1 swept
  have listed : stage ∈ (a₀.run []).stages := stages ▸ List.mem_singleton_self stage
  have chosen : (unitSweep.ofMode (a₀.run []).session.mode).continuation.gmin =
      unitSweep.dcOp.continuation.gmin := by
    rw [run, List.foldl_nil, mode]
    rfl
  obtain ⟨conductances, same, -, -, finished⟩ :=
    conductances_of_history SteepRat.exact SteepRat.steep made [] sweeping chosen
      ⟨rfl, rfl, rfl, rfl, rfl, by decide +kernel, by decide +kernel⟩ stage listed
  refine ⟨a₀, made, stage, listed, accepted, finished.1 ?_⟩
  obtain rfl : conductances = [2.5, 1.5, 0.5] :=
    (List.map_inj_right fun _ _ ↦ Option.some.inj).1 (same.symm.trans accepted)
  simp [unitSweep]

end Analysis

end OperatingPoint
