import OperatingPoint.Proofs.Attempts
import OperatingPoint.Proofs.BenchStops
import OperatingPoint.Proofs.Journals

/-!
# Captured points

A track hands its point to the device layer once in a generation, and notes the generation.  A
point that was handed over so is a *capture*.  `Rig.Recorded` says of a log of captures, by the
tracks that they come from, that it is right: its points are those that the device layer was given,
no generation of a track comes up twice, and the last capture of a track is the one that the track
has noted.

Between two captures the generation may go up and the iterate may move, but in the generation of a
capture the iterate is where it was captured.  `Rig.Silent` is that much, and nothing but an
accepted point does more.
-/

set_option autoImplicit false

namespace OperatingPoint

open Step

/-! ## What a journal says -/

namespace Device.Request

variable {α : Type}

/-- The point that is handed over. -/
def accepted? : Request α → Option (Array α)
  | accept x => some x
  | _ => none

/-- Whether a point is given up. -/
def isAbandon : Request α → Bool
  | abandon => true
  | _ => false

end Device.Request

namespace Journal

variable {δ α : Type}

/-- The points that were handed over, the latest first. -/
def accepted (j : Journal δ α) : List (Array α) := j.requests.filterMap Device.Request.accepted?

/-- How many points were given up. -/
def abandoned (j : Journal δ α) : Nat := j.requests.countP Device.Request.isAbandon

/-- Loads and parameters hand nothing over. -/
theorem lasts_accepted [Device δ α] (points : List (Array α)) :
    Device.Lasts (α := α) fun j : Journal δ α ↦ j.accepted = points where
  residual h _ _ _ _ := h
  jacobian h _ _ _ _ := h
  parameter h _ _ := h

/-- Loads and parameters give nothing up. -/
theorem lasts_abandoned [Device δ α] (count : Nat) :
    Device.Lasts (α := α) fun j : Journal δ α ↦ j.abandoned = count where
  residual h _ _ _ _ := h
  jacobian h _ _ _ _ := h
  parameter h _ _ := h

end Journal

/-! ## Logs -/

/-- A point that was handed over in a generation. -/
structure Capture (α : Type) where
  generation : Nat
  point : Array α

/-- Captures by the numbers of their tracks, the latest first. -/
abbrev CaptureLog (α : Type) := List (Nat × Capture α)

namespace CaptureLog

variable {α : Type} {log : CaptureLog α} {k : Nat} {c : Capture α}

/-- The points that were handed over. -/
def points (log : CaptureLog α) : List (Array α) := log.map fun entry ↦ entry.2.point

/-- The last capture of a track. -/
def last (k : Nat) (log : CaptureLog α) : Option (Capture α) :=
  (log.find? fun entry ↦ entry.1 == k).map Prod.snd

/-- The generations of each track go up. -/
def Increasing (log : CaptureLog α) : Prop :=
  log.Pairwise fun later earlier ↦
    later.1 = earlier.1 → earlier.2.generation < later.2.generation

theorem last_cons_self : last k ((k, c) :: log) = some c := by
  rw [last, List.find?_cons, beq_self_eq_true]
  rfl

theorem last_cons_other {k' : Nat} (other : k' ≠ k) : last k ((k', c) :: log) = last k log := by
  rw [last, List.find?_cons, beq_eq_false_iff_ne.2 other]
  rfl

/-- The captures of one track are none of another. -/
theorem last_append_other {own : CaptureLog α} {k' : Nat} (tracks : ∀ entry ∈ own, entry.1 = k)
    (other : k' ≠ k) : last k' (own ++ log) = last k' log := by
  induction own with
  | nil => rfl
  | cons first rest ih =>
    rw [List.forall_mem_cons] at tracks
    rw [List.cons_append]
    exact (last_cons_other fun same ↦ other (same.symm.trans tracks.1)).trans (ih tracks.2)

theorem last_eq_none (tracks : ∀ entry ∈ log, entry.1 ≠ k) : last k log = none := by
  rw [last, Option.map_eq_none_iff, List.find?_eq_none]
  exact fun entry mem same ↦ tracks entry mem (beq_iff_eq.1 same)

/-- No capture of a track is later than its last. -/
theorem Increasing.le_last (h : Increasing log) {entry : Nat × Capture α} (mem : entry ∈ log) :
    ∃ c, last entry.1 log = some c ∧ entry.2.generation ≤ c.generation := by
  induction log with
  | nil => cases mem
  | cons first rest ih =>
    rw [Increasing, List.pairwise_cons] at h
    by_cases same : first.1 = entry.1
    · refine ⟨first.2, by rw [← same]; exact last_cons_self, ?_⟩
      rcases List.mem_cons.1 mem with rfl | mem
      · exact Nat.le_refl _
      · exact Nat.le_of_lt (h.1 entry mem same)
    · rcases List.mem_cons.1 mem with rfl | mem
      · exact absurd rfl same
      · obtain ⟨c, there, le⟩ := ih h.2 mem
        exact ⟨c, (last_cons_other same).trans there, le⟩

end CaptureLog

variable {δ α : Type} [Scalar α] [DirectSolver α] [Device δ α] {n : Nat}

/-- What no load and no parameter changes, Newton's iteration does not change. -/
theorem Rig.keeps_lasts {K : δ → Prop} (lasts : Device.Lasts (α := α) K) :
    Rig.Keeps (fun r : Rig δ α n ↦ r.AtRest ∧ K r.store.device) fun _ ↦ True :=
  keeps_rest_and (fun h _ ↦ h) (computeResidual_lasts lasts) (computeJacobian_lasts lasts)
    computeNewton_lasts

/-! ## Between two captures -/

namespace Rig

variable {r r' r'' : Rig (Journal δ α) α n}

/-- From a rig to another while no point is handed over. -/
structure Silent (r r' : Rig (Journal δ α) α n) : Prop where
  rest : r'.AtRest
  accepted : r'.journal.accepted = r.journal.accepted
  captured : r'.track.captured = r.track.captured
  generation : r.track.iterate.generation ≤ r'.track.iterate.generation
  x : r'.track.iterate.generation = r.track.iterate.generation → r'.track.x = r.track.x

namespace Silent

omit [Device δ α] in
theorem refl (rest : r.AtRest) : r.Silent r := ⟨rest, rfl, rfl, Nat.le_refl _, fun _ ↦ rfl⟩

omit [Device δ α] in
theorem trans (h : r.Silent r') (h' : r'.Silent r'') : r.Silent r'' where
  rest := h'.rest
  accepted := h'.accepted.trans h.accepted
  captured := h'.captured.trans h.captured
  generation := Nat.le_trans h.generation h'.generation
  x same := by
    have generation := h.generation
    have generation' := h'.generation
    rw [h'.x (by omega), h.x (by omega)]

omit [Device δ α] in
theorem of_stays (stays : r.Stays r') (frames : r.Frames r')
    (accepted : r'.journal.accepted = r.journal.accepted) : r.Silent r' :=
  ⟨stays.rest, accepted, frames.captured, Nat.le_of_eq stays.generation.symm, fun _ ↦ stays.x⟩

omit [Device δ α] in
theorem move (rest : r.AtRest) (x : Vector α n) :
    r.Silent (r.put r.store (r.track.iterate.setX x) r.track.overlay) :=
  ⟨rest.move x, rfl, rfl, Nat.le_succ _, fun same ↦ absurd same (Nat.succ_ne_self _)⟩

omit [Device δ α] in
theorem shift (rest : r.AtRest) {t : Track α n} (shifts : r.track.Shifts t) :
    r.Silent { r with track := t } :=
  ⟨⟨rest.paired, shifts.rests rest.rests⟩, rfl, shifts.captured, shifts.generation,
    fun _ ↦ shifts.x⟩

omit [Device δ α] in
/-- The device layer is told something other than a point. -/
theorem tell (rest : r.AtRest) (device : Journal δ α)
    (accepted : device.accepted = r.journal.accepted) :
    r.Silent { r with store := { r.store with device := device } } :=
  ⟨⟨rest.paired, rest.rests⟩, accepted, rfl, Nat.le_refl _, fun _ ↦ rfl⟩

theorem residual (rest : r.AtRest) :
    Ends computeResidual r (fun _ r' ↦ r.Silent r') (fun _ r' ↦ r.Silent r') :=
  (((computeResidual_stays rest).and (computeResidual_frames r)).and
    (computeResidual_lasts (Journal.lasts_accepted _) r rfl)).mono
      (fun _ _ h ↦ of_stays h.1.1.1 h.1.2 h.2) fun _ _ h ↦ of_stays h.1.1 h.1.2 h.2

theorem jacobian (rest : r.AtRest) :
    Ends computeJacobian r (fun _ r' ↦ r.Silent r') (fun _ r' ↦ r.Silent r') :=
  (((computeJacobian_stays rest).and (computeJacobian_frames r)).and
    (computeJacobian_lasts (Journal.lasts_accepted _) r rfl)).mono
      (fun _ _ h ↦ of_stays h.1.1.1 h.1.2 h.2) fun _ _ h ↦ of_stays h.1.1 h.1.2 h.2

omit [Device δ α] in
theorem newton (rest : r.AtRest) (mayReuse : Bool) :
    Ends (computeNewton mayReuse) r (fun _ r' ↦ r.Silent r') (fun _ r' ↦ r.Silent r') :=
  (((computeNewton_stays rest mayReuse).and (computeNewton_frames r mayReuse)).and
    (computeNewton_lasts (K := fun j ↦ j.accepted = r.journal.accepted) mayReuse r rfl)).mono
      (fun _ _ h ↦ of_stays h.1.1.1 h.1.2 h.2) fun _ _ h ↦ of_stays h.1.1 h.1.2 h.2

omit [Device δ α] in
theorem gradient (rest : r.AtRest) :
    Ends computeGradient r (fun _ r' ↦ r.Silent r') (fun _ r' ↦ r.Silent r') := by
  have left := preserves_rest_computeGradient r rest
  refine .of_result (R := fun result ↦ GradientRun r result ∧ computeGradient r = result)
    ⟨computeGradient_run r, rfl⟩ ?_ ?_
  · rintro _ r' ⟨run, same⟩
    have rest' := left.ok same
    cases run with
    | known => exact .refl rest
    | computed => exact ⟨rest', rfl, rfl, Nat.le_refl _, fun _ ↦ rfl⟩
  · rintro stop r' ⟨run, -⟩
    cases run with
    | noJacobian => exact .refl rest
    | noResidual => exact .refl rest

end Silent

/-- What holds on as long as no point is handed over survives whatever a command does to a track,
unless a point of it is accepted. -/
theorem keepsQuiet_of_silent {I : Rig (Journal δ α) α n → Prop} (rest : ∀ {r}, I r → r.AtRest)
    (on : ∀ {r r'}, I r → r.Silent r' → I r') : KeepsQuiet I where
  rest := rest
  move h x := on h (.move (rest h) x)
  residual h := (Silent.residual (rest h)).mono (fun _ _ silent ↦ on h silent)
    fun _ _ silent ↦ ⟨trivial, on h silent⟩
  jacobian h := (Silent.jacobian (rest h)).mono (fun _ _ silent ↦ on h silent)
    fun _ _ silent ↦ ⟨trivial, on h silent⟩
  newton h _ mayReuse _ := (Silent.newton (rest h) mayReuse).mono (fun _ _ silent ↦ on h silent)
    fun _ _ silent ↦ ⟨trivial, on h silent⟩
  pseudo h _ _ _ _ := on h ⟨⟨(rest h).paired, Track.putPseudoTime_rests (rest h).rests _⟩, rfl, rfl,
    Nat.le_refl _, fun _ ↦ rfl⟩
  shift h _ shifts := on h (.shift (rest h) shifts)
  derivatives h := on h ⟨⟨(rest h).paired, (rest h).rests.residual, nofun⟩, rfl, rfl, Nat.le_refl _,
    fun _ ↦ rfl⟩
  gradient _ h := (Silent.gradient (rest h)).mono (fun _ _ silent ↦ on h silent)
    fun _ _ silent ↦ on h silent
  give h _ _ := on h (.tell (rest h) _ rfl)
  abandon h := on h (.tell (rest h) _ rfl)

theorem keepsQuiet_silent (r : Rig (Journal δ α) α n) : KeepsQuiet fun r' ↦ r.Silent r' :=
  keepsQuiet_of_silent (fun h ↦ h.rest) fun h h' ↦ h.trans h'

end Rig

/-! ## Rigs with a log -/

namespace Rig

/-- The capture that an accepted point comes to: none, if the point has been handed over already. -/
def capture? (r : Rig δ α n) : Option (Capture α) :=
  if r.track.captured = some r.track.iterate.generation then none
  else some ⟨r.track.iterate.generation, r.track.x.toArray⟩

variable {r r' : Rig (Journal δ α) α n} {k : Nat} {log : CaptureLog α}

/-- A rig whose log is right, as far as its own track goes. -/
structure Recorded (k : Nat) (log : CaptureLog α) (r : Rig (Journal δ α) α n) : Prop where
  rest : r.AtRest
  increasing : log.Increasing
  accepted : r.journal.accepted = log.points
  captured : r.track.captured = (log.last k).map Capture.generation
  since : ∀ c, log.last k = some c → c.generation ≤ r.track.iterate.generation ∧
    (c.generation = r.track.iterate.generation → c.point = r.track.x.toArray)

/-- The captures that an accepted point of a track comes to. -/
def captures (k : Nat) (r : Rig δ α n) : CaptureLog α := r.capture?.toList.map (k, ·)

namespace Recorded

omit [Device δ α] in
theorem silent (h : r.Recorded k log) (silent : r.Silent r') : r'.Recorded k log where
  rest := silent.rest
  increasing := h.increasing
  accepted := silent.accepted.trans h.accepted
  captured := silent.captured.trans h.captured
  since c last := by
    obtain ⟨le, same⟩ := h.since c last
    have generation := silent.generation
    refine ⟨Nat.le_trans le generation, fun here ↦ ?_⟩
    rw [silent.x (by omega)]
    exact same (by omega)

omit [Device δ α] in
/-- The track is left alone, and the log goes on with captures of other tracks. -/
theorem spared {s s' : Store (Journal δ α) α n} {t : Track α n} (h : Recorded k log ⟨s, t⟩)
    (paired : s'.Paired) {log' : CaptureLog α} (increasing : log'.Increasing)
    (accepted : s'.device.accepted = log'.points) (last : log'.last k = log.last k) :
    Recorded k log' ⟨s', t⟩ :=
  ⟨⟨paired, h.rest.rests⟩, increasing, accepted, last ▸ h.captured, last ▸ h.since⟩

omit [Device δ α] in
/-- A track that has captured nothing. -/
theorem of_none {s : Store (Journal δ α) α n} {t : Track α n} (rest : AtRest ⟨s, t⟩)
    (increasing : log.Increasing) (accepted : s.device.accepted = log.points)
    (captured : t.captured = none) (none : log.last k = none) : Recorded k log ⟨s, t⟩ := by
  refine ⟨rest, increasing, accepted, ?_, fun c last ↦ ?_⟩
  · rw [none]
    exact captured
  · rw [none] at last
    cases last

/-- An accepted point is handed over, unless it has been already. -/
theorem handedOver (h : r.Recorded k log) : r.handedOver.Recorded k (r.captures k ++ log) := by
  unfold Rig.handedOver captures capture?
  by_cases known : r.track.captured = some r.track.iterate.generation
  · rw [if_pos known, if_pos known]
    exact h
  · rw [if_neg known, if_neg known]
    refine ⟨⟨h.rest.paired, h.rest.rests⟩,
      List.pairwise_cons.2 ⟨fun entry mem own ↦ ?_, h.increasing⟩,
      congrArg (_ :: ·) h.accepted, ?_, fun c last ↦ ?_⟩
    · -- The last capture was in an earlier generation, since the track has noted it.
      have own : k = entry.1 := own
      obtain ⟨c, last, le⟩ := h.increasing.le_last mem
      rw [← own] at last
      have captured := h.captured
      rw [last] at captured
      have before : c.generation ≠ r.track.iterate.generation :=
        fun same ↦ known (captured.trans (congrArg some same))
      have upTo := (h.since c last).1
      show entry.2.generation < r.track.iterate.generation
      omega
    · show some r.track.iterate.generation = Option.map _ (CaptureLog.last k ((k, _) :: log))
      rw [CaptureLog.last_cons_self]
      rfl
    · obtain rfl := Option.some.inj (CaptureLog.last_cons_self.symm.trans last)
      exact ⟨Nat.le_refl _, fun _ ↦ rfl⟩

omit [Device δ α] in
/-- Where the point has been handed over, it is the one of the last capture. -/
theorem point (h : r.Recorded k log)
    (known : r.track.captured = some r.track.iterate.generation) :
    (log.last k).map Capture.point = some r.track.x.toArray := by
  rw [h.captured] at known
  obtain ⟨c, last, same⟩ := Option.map_eq_some_iff.1 known
  rw [last]
  exact congrArg some ((h.since c last).2 same)

end Recorded

theorem handedOver_captured (r : Rig δ α n) :
    r.handedOver.track.captured = some r.handedOver.track.iterate.generation := by
  unfold handedOver
  split
  · assumption
  · rfl

end Rig

end OperatingPoint
