import OperatingPoint.Proofs.CarriedRun
import OperatingPoint.Proofs.EndValues
import OperatingPoint.Proofs.ExactScalars
import OperatingPoint.Proofs.Journals

/-!
# Handing parameters back

A continuation in phases moves parameters of the device layer.  Where it comes to its end with a
code, each of them has been handed back: the last value that the device layer has taken for it is
its end.  After a success that rests on the last solve, before whose load all the parameters are
told; otherwise they are given one by one.

Where the continuation stops instead, they are given one by one too, but only up to the first that
has no end or is refused.  Those listed after it keep what they have.
-/

set_option autoImplicit false

namespace OperatingPoint

open Step

namespace ContinuationContext

variable {α : Type} {ctx : ContinuationContext α} {list more : List (Sweep α)}
  {value value' : String → Option α}

/-- Each parameter of the listed sweeps has the end of the last sweep of it. -/
def AtEnds (ctx : ContinuationContext α) (list : List (Sweep α)) (value : String → Option α) : Prop :=
  ∀ before sweep after, list = before ++ sweep :: after → sweep.name ∉ after.map Sweep.name →
    ∃ v, ctx.endOf sweep = .ok v ∧ value sweep.name = some v

namespace AtEnds

theorem nil : ctx.AtEnds [] value := by
  intro before sweep after same
  cases before <;> cases same

theorem singleton {sweep : Sweep α} {v : α} (ending : ctx.endOf sweep = .ok v)
    (there : value sweep.name = some v) : ctx.AtEnds [sweep] value := by
  intro before sweep' after same _
  cases before with
  | nil =>
    cases same
    exact ⟨v, ending, there⟩
  | cons _ rest => cases rest <;> cases same

/-- Sweeps that come later have the last word on their parameters, and none on the others. -/
theorem append (h : ctx.AtEnds list value) (later : ctx.AtEnds more value')
    (others : ∀ name, name ∉ more.map Sweep.name → value' name = value name) :
    ctx.AtEnds (list ++ more) value' := by
  intro before sweep after same last
  rcases List.append_eq_append_iff.1 same with ⟨between, rfl, there⟩ | ⟨between, there, rest⟩
  · exact later between sweep after there last
  · cases between with
    | nil => exact later [] sweep after rest.symm last
    | cons head between =>
      obtain ⟨rfl, rfl⟩ := List.cons.inj rest
      rw [List.append_eq, List.map_append, List.mem_append, not_or] at last
      obtain ⟨v, ending, known⟩ := h before sweep between there last.1
      exact ⟨v, ending, (others _ last.2).trans known⟩

/-- One more sweep. -/
theorem concat (h : ctx.AtEnds list value) {sweep : Sweep α} {v : α}
    (ending : ctx.endOf sweep = .ok v)
    (moved : ∀ other, value' other = if sweep.name = other then some v else value other) :
    ctx.AtEnds (list ++ [sweep]) value' := by
  refine h.append (singleton ending ?_) fun name other ↦ ?_
  · rw [moved, if_pos rfl]
  · rw [moved, if_neg]
    rintro rfl
    exact other (List.mem_singleton_self _)

end AtEnds

end ContinuationContext

/-! ## The parameters of a stepper -/

namespace Track

variable {α : Type} [Scalar α] {n : Nat}

/-- Setting a parameter leaves the others alone. -/
theorem get?_setParameter_of_ne (t : Track α n) {name other : String} (value : α)
    (foreign : other ≠ name) : (t.setParameter name value).overlay.parameters.get? other =
      t.overlay.parameters.get? other := by
  rcases t.setParameter_overlay name value with set | ⟨unchanged, -⟩
  · rw [set, Parameters.get?_set, if_neg foreign]
  · rw [unchanged]

/-- In exact arithmetic a parameter has the value that it was set to. -/
theorem get?_setParameter (exact : Scalar.Exact α) (t : Track α n) (name other : String)
    (value : α) : (t.setParameter name value).overlay.parameters.get? other =
      if name = other then some value else t.overlay.parameters.get? other := by
  rcases t.setParameter_overlay name value with set | ⟨unchanged, old, known, same⟩
  · rw [set, Parameters.get?_set]
    by_cases own : name = other
    · rw [if_pos own.symm, if_pos own]
    · rw [if_neg (Ne.symm own), if_neg own]
  · rw [unchanged]
    split
    · rename_i own
      rw [← own, known, exact.eq_of_beq same]
    · rfl

section

variable {β : Type} {name : β → String} {value : β → α} {list : List β}

/-- Setting some parameters leaves the others alone. -/
theorem get?_setParameters_of_notMem (t : Track α n) {other : String}
    (foreign : other ∉ list.map name) :
    (list.foldl (fun t b ↦ t.setParameter (name b) (value b)) t).overlay.parameters.get? other =
      t.overlay.parameters.get? other := by
  induction list generalizing t with
  | nil => rfl
  | cons b rest ih =>
    rw [List.map_cons, List.mem_cons, not_or] at foreign
    rw [List.foldl_cons, ih _ foreign.2, get?_setParameter_of_ne _ _ foreign.1]

/-- Of parameters of different names, each is left as setting it alone leaves it somewhere. -/
theorem exists_get?_setParameters (t : Track α n) (value : β → α) (distinct : (list.map name).Nodup)
    {b : β} (mem : b ∈ list) :
    ∃ before : Track α n,
      (list.foldl (fun t b ↦ t.setParameter (name b) (value b)) t).overlay.parameters.get? (name b) =
        (before.setParameter (name b) (value b)).overlay.parameters.get? (name b) := by
  induction list generalizing t with
  | nil => cases mem
  | cons first rest ih =>
    rw [List.map_cons, List.nodup_cons] at distinct
    rw [List.foldl_cons]
    rcases List.mem_cons.1 mem with rfl | later
    · exact ⟨t, get?_setParameters_of_notMem _ distinct.1⟩
    · exact ih _ distinct.2 later

/-- Parameters of different names have the values that they were set to. -/
theorem get?_setParameters (exact : Scalar.Exact α) (t : Track α n)
    (distinct : (list.map name).Nodup) {b : β} (mem : b ∈ list) :
    (list.foldl (fun t b ↦ t.setParameter (name b) (value b)) t).overlay.parameters.get? (name b) =
      some (value b) := by
  obtain ⟨before, same⟩ := t.exists_get?_setParameters value distinct mem
  rw [same, get?_setParameter exact, if_pos rfl]

end

end Track

namespace Stepper

variable {α : Type} [Scalar α] {n : Nat} {s : Stepper α}

/-- The parameters that a stepper moves. -/
def names (s : Stepper α) : List String := s.lead.name :: s.coupled.map ParameterPath.name

/-- A stepper leaves the other parameters alone. -/
theorem get?_setAll (exact : Scalar.Exact α) (value : α) (t : Track α n) {other : String}
    (foreign : other ∉ s.names) :
    (s.setAll value t).overlay.parameters.get? other = t.overlay.parameters.get? other := by
  rw [names, List.mem_cons, not_or] at foreign
  rw [setAll, Track.get?_setParameters_of_notMem _ foreign.2, Track.get?_setParameter exact,
    if_neg (Ne.symm foreign.1)]

/-- The parameters of a stepper have their values at a lead value, if their names are different. -/
theorem get?_setAll_own (exact : Scalar.Exact α) (distinct : s.names.Nodup) (value : α)
    (t : Track α n) :
    (s.setAll value t).overlay.parameters.get? s.lead.name = some value ∧
      ∀ path ∈ s.coupled, (s.setAll value t).overlay.parameters.get? path.name =
        some (path.at (s.fraction value)) := by
  rw [names, List.nodup_cons] at distinct
  refine ⟨?_, fun path mem ↦ Track.get?_setParameters exact _ distinct.2 mem⟩
  rw [setAll, Track.get?_setParameters_of_notMem _ distinct.1, Track.get?_setParameter exact,
    if_pos rfl]

/-- At its end the lead has gone its whole way. -/
theorem fraction_stop (exact : Scalar.Exact α) (start : Scalar.isFinite s.lead.start = true)
    (stop : Scalar.isFinite s.stop = true) : s.fraction s.stop = 1 := by
  unfold fraction
  dsimp only
  split
  · rfl
  · rename_i long
    exact exact.div_self (exact.finite_sub stop start) (Bool.not_eq_true _ ▸ long)

end Stepper

/-- The end of a way. -/
theorem ParameterPath.at_one {α : Type} [Scalar α] (exact : Scalar.Exact α) {p : ParameterPath α}
    (start : Scalar.isFinite p.start = true) (stop : Scalar.isFinite p.stop = true) :
    p.at 1 = p.stop := by
  rw [ParameterPath.at, exact.one_mul (exact.finite_sub stop start),
    exact.add_sub_cancel start stop]

namespace ContinuationContext

variable {α : Type} [Scalar α] {n : Nat} {ctx : ContinuationContext α}

/-- The values that a sweep goes through begin and end with numbers. -/
def Numeric (ctx : ContinuationContext α) (sweep : Sweep α) : Prop :=
  Scalar.isFinite sweep.start = true ∧
    ∀ v, ctx.endOf sweep = .ok v → Scalar.isFinite v = true

theorem Numeric.of_stop {sweep : Sweep α} {v : α} (stop : sweep.stop = some v)
    (start : Scalar.isFinite sweep.start = true) (finite : Scalar.isFinite v = true) :
    ctx.Numeric sweep := by
  refine ⟨start, fun v' ending ↦ ?_⟩
  rw [endOf, stop] at ending
  cases ending
  exact finite

/-- At the end of a stepper all of its parameters are at their ends. -/
theorem atEnds_setAll (exact : Scalar.Exact α) {lead : Sweep α} {rest : List (Sweep α)} {stop : α}
    {coupled : List (ParameterPath α)} (ending : ctx.endOf lead = .ok stop)
    (ways : rest.mapM ctx.path = .ok coupled)
    (numeric : ∀ sweep ∈ lead :: rest, ctx.Numeric sweep) (t : Track α n) :
    ctx.AtEnds (lead :: rest)
      ((Stepper.setAll ⟨lead, stop, coupled⟩ stop t).overlay.parameters.get?) := by
  rw [List.forall_mem_cons] at numeric
  let s : Stepper α := ⟨lead, stop, coupled⟩
  have along : ∀ (sweeps : List (Sweep α)) (paths : List (ParameterPath α)) (done : List (Sweep α))
      (t : Track α n), sweeps.mapM ctx.path = .ok paths → (∀ sweep ∈ sweeps, ctx.Numeric sweep) →
      ctx.AtEnds done t.overlay.parameters.get? →
      ctx.AtEnds (done ++ sweeps) (paths.foldl
        (fun t path ↦ t.setParameter path.name (path.at (s.fraction stop))) t).overlay.parameters.get? := by
    intro sweeps
    induction sweeps with
    | nil =>
      intro paths done t ways _ h
      cases ways
      rwa [List.append_nil]
    | cons sweep sweeps ih =>
      intro paths done t ways numeric' h
      rw [List.forall_mem_cons] at numeric'
      rw [List.mapM_cons] at ways
      obtain ⟨path, way, ways⟩ := bind_eq_ok.1 ways
      obtain ⟨paths', ways', same⟩ := bind_eq_ok.1 ways
      obtain ⟨v, ending', way⟩ := bind_eq_ok.1 way
      cases same
      cases way
      have there := ParameterPath.at_one exact (p := ⟨sweep.name, sweep.start, v⟩) numeric'.1.1
        (numeric'.1.2 v ending')
      have gone := Stepper.fraction_stop (s := s) exact numeric.1.1 (numeric.1.2 _ ending)
      rw [List.foldl_cons, List.append_cons]
      refine ih paths' (done ++ [sweep]) _ ways' numeric'.2 (h.concat ending' fun other ↦ ?_)
      rw [show s.fraction stop = 1 from gone, there]
      exact Track.get?_setParameter exact t sweep.name other v
  exact along rest coupled [lead] _ ways numeric.2
    (AtEnds.nil.concat ending (Track.get?_setParameter exact t lead.name · stop))

end ContinuationContext

/-- The ends that the device layer has been told. -/
theorem ContinuationContext.AtEnds.told {δ α : Type} [Scalar α] [DirectSolver α] {n : Nat}
    {ctx : ContinuationContext α} {list : List (Sweep α)} {r : Rig (Journal δ α) α n}
    (h : ctx.AtEnds list r.track.overlay.parameters.get?) (told : r.Told) :
    ctx.AtEnds list r.journal.lastTaken := by
  intro before sweep after same last
  obtain ⟨v, ending, there⟩ := h before sweep after same last
  exact ⟨v, ending, told _ _ there⟩

/-! ## What the device layer is told in a run -/

section

variable {δ α : Type} [Scalar α] [DirectSolver α] [Device δ α] {n : Nat}
  {layer : Journal δ α} {others : String → Option α}

/-- A rig while parameters are forwarded and nothing else is laid over the equations.  Parameters
under other names than the listed ones have the given values. -/
structure Rig.Forwards (layer : Journal δ α) (names : List String) (others : String → Option α)
    (r : Rig (Journal δ α) α n) : Prop where
  laid : r.Lays layer none none true
  others : ∀ name, name ∉ names → r.track.overlay.parameters.get? name = others name

theorem Rig.Forwards.of_frames {names : List String} {r r' : Rig (Journal δ α) α n}
    (h : r.Forwards layer names others) (kept : r'.Lays layer none none true ∧ r.Frames r') :
    r'.Forwards layer names others where
  laid := kept.1
  others name foreign := by
    rw [kept.2.overlay.parameters]
    exact h.others name foreign

section

variable {names : List String} {r : Rig (Journal δ α) α n}

theorem Rig.Forwards.setAll (exact : Scalar.Exact α) {s : Stepper α}
    (h : r.Forwards layer s.names others) (value : α) :
    (r.withTrack (s.setAll value r.track)).Forwards layer s.names others := by
  refine ⟨Stepper.setAll_keeps Rig.keepsSteps_lays h.laid value, fun name foreign ↦ ?_⟩
  rw [← h.others name foreign]
  exact Stepper.get?_setAll exact value r.track foreign

theorem Rig.Forwards.setX (h : r.Forwards layer names others) (x : Vector α n) :
    (r.withTrack (r.track.setX x)).Forwards layer names others :=
  ⟨Rig.keeps_lays.move h.laid x, h.others⟩

theorem Rig.Forwards.accept (h : r.Forwards layer names others) :
    (⟨{ r.store with device := Device.accept r.store.device r.track.x.toArray },
      { r.track with captured := some r.track.iterate.generation }⟩ :
      Rig (Journal δ α) α n).Forwards layer names others :=
  ⟨Rig.keepsSteps_lays.accept h.laid, h.others⟩

theorem Rig.Forwards.abandon (h : r.Forwards layer names others) :
    ({ r with store := { r.store with device := Device.abandon r.store.device } } :
      Rig (Journal δ α) α n).Forwards layer names others :=
  ⟨Rig.keepsSteps_lays.abandon h.laid, h.others⟩

end

/-- Whatever a stepper solves, it has told the device layer its parameters before. -/
theorem Stepper.carries_told (exact : Scalar.Exact α) (s : Stepper α) :
    s.Carries
      (fun r : Rig (Journal δ α) α n ↦
        r.Forwards layer s.names others ∧ (r.isValid .residual = true → r.Told))
      (fun r ↦ r.Forwards layer s.names others ∧ r.Told)
      (fun r ↦ r.Forwards layer s.names others ∧ r.Told) (fun _ ↦ True) (fun _ ↦ True)
      (fun _ ↦ True) where
  opens h := ⟨h.1, fun _ ↦ h.2⟩
  settles h := h
  stops _ := trivial
  point _ := trivial
  enter h := ((Rig.computeResidual_lays h.1.laid).and (Rig.computeResidual_told h.1.laid h.2)).mono
    (fun _ _ kept ↦ ⟨h.1.of_frames kept.1, kept.2⟩) fun _ _ _ ↦ trivial
  first h := ((Rig.computeJacobian_lays h.1.laid).and (Rig.computeJacobian_told h.1.laid h.2)).mono
    (fun _ _ kept ↦ ⟨⟨h.1.of_frames kept.1, kept.2⟩, fun _ ↦ ⟨h.1.of_frames kept.1, kept.2⟩⟩)
    fun _ _ _ ↦ trivial
  residual h :=
    ((Rig.computeResidual_lays h.1.laid).and
      (Rig.computeResidual_told h.1.laid fun _ ↦ h.2)).mono
      (fun _ _ kept ↦ ⟨h.1.of_frames kept.1, kept.2⟩) fun _ _ _ ↦ trivial
  jacobian h :=
    ((Rig.computeJacobian_lays h.1.laid).and (Rig.computeJacobian_told h.1.laid h.2)).mono
      (fun _ _ kept ↦ ⟨h.1.of_frames kept.1, kept.2⟩) fun _ _ _ ↦ trivial
  newton h mayReuse :=
    ((Rig.computeNewton_lays h.1.laid mayReuse).and (Rig.computeNewton_told h.2 mayReuse)).mono
      (fun _ _ kept ↦ ⟨⟨h.1.of_frames kept.1, kept.2⟩, fun _ ↦ trivial⟩) fun _ _ _ ↦ trivial
  move h _ _ _ :=
    ⟨⟨Rig.keeps_lays.move h.1.laid _, h.1.others⟩, h.2.of_same rfl rfl⟩
  set {r} h value := by
    refine ⟨h.1.setAll exact value, fun valid ↦ ?_⟩
    -- Where the residual is still valid, nothing has been set.
    have same := Rig.track_eq_of_valid (s.setAll_shifts value r.track) valid
    rw [same] at valid ⊢
    exact h.2 valid
  back {r x} h _ := by
    refine ⟨h.1.setX x, fun valid ↦ ?_⟩
    rw [Rig.not_isValid_of_fresh rfl _] at valid
    cases valid
  accept {r} h :=
    ⟨h.1.accept, h.2.of_same (Journal.lastTaken_accept ..) rfl⟩
  abandon {r} h :=
    ⟨h.1.abandon, h.2.of_same (Journal.lastTaken_abandon ..) rfl⟩

end

/-- A continuation that concludes with another code than that of a failure has come to its end. -/
theorem ContinuationReport.finished_of_ne {α : Type} {report : ContinuationReport α}
    (other : report.conclusion ≠ CodeTable.continuationFailed) : report.finished = true := by
  unfold conclusion at other
  split at other
  · split at other
    · rename_i finished
      exact finished
    · exact absurd rfl other
  · exact absurd rfl other

namespace Drive

variable {δ α : Type} [Scalar α] [DirectSolver α] [Device δ α] {n : Nat}
  {layer : Journal δ α} {d d' : Drive (Journal δ α) α n} {ctx : ContinuationContext α}

/-- What the device layer of a drive has written down. -/
def journal (d : Drive (Journal δ α) α n) : Journal δ α := d.engine.rig.journal

/-- How parameters are handed back one by one: up to one that has no end, or is refused. -/
theorem restoreEnds_atEnds {done : List (Sweep α)} (h : ctx.AtEnds done d.journal.lastTaken)
    (list : List (Sweep α)) :
    Ends (restoreEnds ctx list) d (fun _ d' ↦ ctx.AtEnds (done ++ list) d'.journal.lastTaken)
      (fun _ d' ↦ ∃ handed sweep rest, list = handed ++ sweep :: rest ∧
        ctx.AtEnds (done ++ handed) d'.journal.lastTaken ∧
        ((∃ cause, ctx.endOf sweep = .error cause ∧ (handed = [] → d'.journal = d.journal)) ∨
          ∃ v device j, ctx.endOf sweep = .ok v ∧
            d'.journal = Journal.note j device (.parameter sweep.name v false))) := by
  induction list generalizing d done with
  | nil =>
    rw [List.append_nil]
    exact h
  | cons sweep list ih =>
    unfold restoreEnds Rig.pushParameter
    simp only [ends_bind, ends_onEngine, Engine.ends_onRig, Rig.ends_modifyTrack]
    refine ends_orFault.2 ⟨fun v ending ↦ ?_, fun cause lacks ↦
      ⟨[], sweep, list, rfl, by rwa [List.append_nil], .inl ⟨cause, lacks, fun _ ↦ rfl⟩⟩⟩
    refine (Rig.giveToDevice_run sweep.name v).mono ?_ ?_
    · rintro _ r ⟨-, given, -⟩
      have handed : ctx.AtEnds (done ++ [sweep]) r.journal.lastTaken := h.concat ending given
      refine (ih (d := { d with engine := { d.engine with rig := r } }) handed).mono ?_ ?_
      · intro _ d' all
        rwa [List.append_assoc] at all
      · rintro stop d' ⟨handed', sweep', rest, rfl, upTo, why⟩
        refine ⟨sweep :: handed', sweep', rest, rfl, by rwa [List.append_assoc] at upTo, ?_⟩
        rcases why with ⟨cause, lacks, -⟩ | refused
        · exact .inl ⟨cause, lacks, fun empty ↦ by cases empty⟩
        · exact .inr refused
    · rintro stop r ⟨-, -, same, device, noted⟩
      refine ⟨[], sweep, list, rfl, ?_, .inr ⟨v, device, _, ending, noted⟩⟩
      rw [List.append_nil]
      show ctx.AtEnds done r.journal.lastTaken
      rw [same]
      exact h

/-! ## A continuation that comes to its end -/

/-- The parameters of the phases that have come to their ends are there, and after a success the
device layer has been told all of them. -/
structure Arrived (ctx : ContinuationContext α) (layer : Journal δ α) (done : List (Sweep α))
    (code : Int) (d : Drive (Journal δ α) α n) : Prop where
  laid : d.engine.rig.Lays layer none none true
  ends : ctx.AtEnds done d.engine.rig.track.overlay.parameters.get?
  fresh : d.engine.rig.isValid .residual = true → d.engine.rig.Told
  told : CodeTable.isSuccess code = true → d.engine.rig.Told

/-- One phase.  If it comes to its end, its parameters have come to theirs. -/
theorem phase_arrives (exact : Scalar.Exact α) {done : List (Sweep α)} {code : Int}
    (h : Arrived ctx layer done code d) {lead : Sweep α} {rest : List (Sweep α)} {stop : α}
    {coupled : List (ParameterPath α)} (ending : ctx.endOf lead = .ok stop)
    (ways : rest.mapM ctx.path = .ok coupled)
    (numeric : ∀ sweep ∈ lead :: rest, ctx.Numeric sweep) :
    Ends (Stepper.run ⟨lead, stop, coupled⟩) d.engine
      (fun report e ↦ report.finished = true →
        Arrived ctx layer (done ++ lead :: rest) report.conclusion
          { d with engine := e, last := report.last })
      (fun _ _ ↦ True) := by
  let s : Stepper α := ⟨lead, stop, coupled⟩
  have names : s.names = (lead :: rest).map Sweep.name := by
    rw [List.map_cons, ← names_of_ways ways]
    rfl
  have overlay := d.engine.rig.track.setForwarding_overlay true
  have started : ({ d.engine.rig with track := d.engine.rig.track.setForwarding true } :
      Rig (Journal δ α) α n).Forwards layer s.names d.engine.rig.track.overlay.parameters.get? := by
    refine ⟨h.laid.setForwarding true, fun name _ ↦ ?_⟩
    rw [overlay]
  have fresh : ({ d.engine.rig with track := d.engine.rig.track.setForwarding true } :
      Rig (Journal δ α) α n).isValid .residual = true →
      Rig.Told { d.engine.rig with track := d.engine.rig.track.setForwarding true } := by
    intro valid
    have same := Rig.track_eq_of_valid (d.engine.rig.track.setForwarding_shifts true) valid
    rw [same] at valid ⊢
    exact h.fresh valid
  refine ((Stepper.run_carries (Stepper.carries_told exact s) ⟨started, fresh⟩).and
    (Stepper.run_keeps Rig.keepsSteps_lays (h.laid.setForwarding true))).mono ?_ fun _ _ _ ↦ trivial
  rintro report e ⟨⟨⟨forwards, -⟩, settled⟩, reported⟩ finished
  obtain ⟨-, told⟩ := settled finished
  obtain ⟨outcome, value, -, -, there, stands⟩ := reported.finished finished
  obtain ⟨t, parameters⟩ := stands.parameters
  refine ⟨forwards.laid, h.ends.append ?_ fun name foreign ↦ ?_, fun _ ↦ told, fun _ ↦ told⟩
  · show ctx.AtEnds (lead :: rest) e.rig.track.overlay.parameters.get?
    rw [parameters, exact.eq_of_beq there]
    exact ctx.atEnds_setAll exact ending ways numeric t
  · exact forwards.others name (by rw [names]; exact foreign)

theorem runPhases_arrives (exact : Scalar.Exact α) {done : List (Sweep α)} {code : Int}
    (h : Arrived ctx layer done code d) (list : List (List (Sweep α)))
    (numeric : ∀ sweep ∈ list.flatten, ctx.Numeric sweep) :
    Ends (runPhases ctx code list) d
      (fun code d' ↦ CodeTable.isSuccess code = true →
        Arrived ctx layer (done ++ list.flatten) code d')
      (fun _ _ ↦ True) := by
  induction list generalizing d done code with
  | nil =>
    intro _
    rw [List.flatten_nil, List.append_nil]
    exact h
  | cons phase phases ih =>
    rw [List.flatten_cons, List.forall_mem_append] at numeric
    cases phase with
    | nil => exact ih h numeric.2
    | cons lead rest =>
      unfold runPhases
      simp only [ends_bind, ends_orFault, ends_onEngine, ends_conclude, ends_ite, ends_pure,
        implies_true, and_true]
      intro coupled ways stop ending
      refine (phase_arrives exact h ending ways numeric.1).mono ?_ fun _ _ _ ↦ trivial
      intro report e arrives
      refine ⟨fun failed success ↦ ?_, fun other ↦ ?_⟩
      · rw [failed] at success
        cases success
      · refine (ih (arrives (ContinuationReport.finished_of_ne other)) numeric.2).mono ?_
          fun _ _ _ ↦ trivial
        intro code d' arrived success
        rw [List.flatten_cons, ← List.append_assoc]
        exact arrived success

theorem phases_atEnds (exact : Scalar.Exact α)
    (laid : d.engine.rig.Lays layer none none false) (list : List (List (Sweep α)))
    (numeric : ∀ sweep ∈ list.flatten, ctx.Numeric sweep) :
    Ends (phases ctx list) d (fun _ d' ↦ ctx.AtEnds list.flatten d'.journal.lastTaken)
      (fun _ _ ↦ True) := by
  let t := list.flatten.foldl (fun t sweep ↦ t.setParameter sweep.name sweep.start)
    d.engine.rig.track
  have laid : (d.engine.rig.withTrack t).Lays layer none none false := laid.setStarts list.flatten
  have start : Arrived ctx layer [] CodeTable.continuationFailed { d with engine := { d.engine with
      rig := d.engine.rig.withTrack (t.setForwarding true) } } := by
    refine ⟨laid.setForwarding true, .nil, fun valid ↦ ?_, nofun⟩
    have same := Rig.track_eq_of_valid (r := d.engine.rig.withTrack t)
      (t.setForwarding_shifts true) valid
    have on : (t.setForwarding true).overlay.forwarding = true :=
      (laid.setForwarding true).forwarding
    rw [same, laid.forwarding] at on
    cases on
  unfold phases
  simp only [ends_bind, ends_modifyTrack, ends_attempt]
  refine (runPhases_arrives exact start list numeric).mono ?_ ?_
  · intro code d' arrived
    simp only [ends_ite, ends_pure, ends_bind]
    refine ⟨fun success ↦ ?_, fun _ ↦ ?_⟩
    · -- Nothing is handed back after a success: the last solve has seen to it.
      have arrived := arrived success
      exact arrived.ends.told (arrived.told success)
    · exact (restoreEnds_atEnds .nil list.flatten).mono (fun _ _ ends ↦ ends) fun _ _ _ ↦ trivial
  · intro stop d' _
    simp only [ends_throw]
    exact Ends.of_result (R := fun _ ↦ True) trivial (fun _ _ _ ↦ trivial) fun _ _ _ ↦ trivial

/-- **Parameters are handed back.**  In exact arithmetic, a continuation in phases that ends with a
code leaves the device layer with the end value of every parameter of every phase as the last value
that it has taken, whatever the code and wherever the continuation ended. -/
theorem run_handsBack (exact : Scalar.Exact α) (laid : d.engine.rig.Lays layer none none false)
    (options : ModeOptions α) {solveType : SolveType} {list : List (List (Sweep α))}
    (phased : phasesOf options.continuation solveType = .ok (some list))
    (numeric : ∀ sweep ∈ list.flatten, ctx.Numeric sweep) :
    Ends (run options ctx solveType) d
      (fun _ d' ↦ ctx.AtEnds list.flatten d'.journal.lastTaken) (fun _ _ ↦ True) := by
  unfold run
  simp only [phased, ends_bind, ends_orFault_ok]
  exact phases_atEnds exact laid list numeric

/-- Options with parameters to step. -/
def stepping (sweeps : List (Sweep ExtendedRat)) : ModeOptions ExtendedRat :=
  let standard : ModeOptions ExtendedRat := .standard
  { standard with continuation := { standard.continuation with parameters := sweeps } }

/-- A context that knows no ends but those that are configured. -/
def configured : ContinuationContext ExtendedRat := ⟨.full 1, none, []⟩

/-- A conductor with a journal, about to be stepped. -/
def conducting (sweeps : List (Sweep ExtendedRat)) :
    Drive (Journal Conductors ExtendedRat) ExtendedRat 1 :=
  atZero ⟨{}, []⟩ .serial (stepping sweeps) 1

/-- A current that is listed twice, with something else between. -/
def twice : List (Sweep ExtendedRat) :=
  [.ramp "current", .ramp "gain",
    { (Sweep.ramp "current" : Sweep ExtendedRat) with stop := some 2.0 }]

-- What is said of the run is not to be compared by carrying it out.
seal Ends in
/-- A current that is listed twice is handed back at the end that is listed last. -/
theorem run_handsBack_twice :
    Ends (run (stepping twice) configured .vectorParameter) (conducting twice)
      (fun code d' ↦ code = 1 ∧ configured.AtEnds [twice].flatten d'.journal.lastTaken)
      (fun _ _ ↦ False) := by
  have numeric : ∀ sweep ∈ [twice].flatten, configured.Numeric sweep := by
    have one : ∀ name, configured.Numeric (.ramp name) := fun _ ↦ .of_stop (v := 1) rfl rfl rfl
    have two : configured.Numeric
        { (Sweep.ramp "current" : Sweep ExtendedRat) with stop := some 2.0 } :=
      .of_stop (v := 2.0) rfl rfl rfl
    rw [List.flatten_cons, List.flatten_nil, List.append_nil, twice, List.forall_mem_cons,
      List.forall_mem_cons, List.forall_mem_cons]
    exact ⟨one _, one _, two, List.forall_mem_nil _⟩
  have success : Ends (run (stepping twice) configured .vectorParameter) (conducting twice)
      (fun code _ ↦ code = 1) (fun _ _ ↦ False) := by decide +kernel
  have phased : phasesOf (stepping twice).continuation .vectorParameter = .ok (some [twice]) := rfl
  have back := run_handsBack (d := conducting twice) ExtendedRat.exact (atZero_lays _ _ _ _)
    (stepping twice) phased numeric
  exact (success.and back).mono (fun _ _ kept ↦ kept) fun _ _ kept ↦ kept.1

/-! ## A continuation that stops -/

/-- What a continuation that stopped has handed back, from the journal before it to the one after
it. -/
inductive Returned (ctx : ContinuationContext α) (list : List (Sweep α)) (before : Journal δ α) :
    Journal δ α → Prop
  /-- The first parameter has no end, and nothing at all was asked of the device layer. -/
  | untouched {sweep rest cause} (first : list = sweep :: rest)
    (lacks : ctx.endOf sweep = .error cause) : Returned ctx list before before
  /-- All of them, to their ends. -/
  | all {after} (ends : ctx.AtEnds list after.lastTaken) : Returned ctx list before after
  /-- Those before one that has no end. -/
  | lacking {handed sweep rest cause after} (upTo : list = handed ++ sweep :: rest)
    (nonempty : handed ≠ []) (lacks : ctx.endOf sweep = .error cause)
    (ends : ctx.AtEnds handed after.lastTaken) : Returned ctx list before after
  /-- Those before one that is refused, which is the last thing that was tried. -/
  | refused {handed sweep rest v device j} (upTo : list = handed ++ sweep :: rest)
    (ending : ctx.endOf sweep = .ok v)
    (ends : ctx.AtEnds handed (Journal.note j device (.parameter sweep.name v false)).lastTaken) :
    Returned ctx list before (Journal.note j device (.parameter sweep.name v false))

/-- Phases do not begin without an end for the first sweep. -/
theorem runPhases_lacking {phases : List (List (Sweep α))} {sweep : Sweep α} {rest : List (Sweep α)}
    (first : phases.flatten = sweep :: rest) {cause : Fault}
    (lacks : ctx.endOf sweep = .error cause) (code : Int) :
    Ends (runPhases ctx code phases) d (fun _ _ ↦ False) (fun _ d' ↦ d' = d) := by
  induction phases with
  | nil => cases first
  | cons phase phases ih =>
    cases phase with
    | nil => exact ih first
    | cons lead coupled =>
      obtain ⟨rfl, -⟩ := List.cons.inj first
      unfold runPhases
      simp only [ends_bind, lacks, ends_orFault_error]
      exact ends_orFault.2 ⟨fun _ _ ↦ rfl, fun _ _ ↦ rfl⟩

theorem restoreEnds_returned {before : Journal δ α} {list : List (Sweep α)}
    (first : ∀ sweep rest cause, list = sweep :: rest → ctx.endOf sweep = .error cause →
      d.journal = before) :
    Ends (restoreEnds ctx list) d (fun _ d' ↦ Returned ctx list before d'.journal)
      (fun _ d' ↦ Returned ctx list before d'.journal) := by
  refine (restoreEnds_atEnds .nil list).mono (fun _ _ all ↦ .all all) ?_
  rintro stop d' ⟨handed, sweep, rest, upTo, ends, ⟨cause, lacks, unchanged⟩ | refused⟩
  · cases handed with
    | nil =>
      rw [unchanged rfl, first sweep rest cause upTo lacks]
      exact .untouched upTo lacks
    | cons head handed => exact .lacking upTo nofun lacks ends
  · obtain ⟨v, device, j, ending, noted⟩ := refused
    rw [List.nil_append, noted] at ends
    rw [noted]
    exact .refused upTo ending ends

theorem phases_returned (list : List (List (Sweep α))) :
    Ends (phases ctx list) d (fun _ _ ↦ True)
      (fun _ d' ↦ Returned ctx list.flatten d.journal d'.journal) := by
  -- Where the first sweep has no end, the phases have done nothing.
  have run : ∀ d₁ : Drive (Journal δ α) α n, d₁.journal = d.journal →
      Ends (runPhases ctx CodeTable.continuationFailed list) d₁
        (fun _ d₂ ↦ ∀ sweep rest cause, list.flatten = sweep :: rest →
          ctx.endOf sweep = .error cause → d₂.journal = d.journal)
        (fun _ d₂ ↦ ∀ sweep rest cause, list.flatten = sweep :: rest →
          ctx.endOf sweep = .error cause → d₂.journal = d.journal) := by
    intro d₁ same
    refine .forall fun sweep ↦ .forall fun rest ↦ .forall fun cause ↦ .forall fun first ↦
      .forall fun lacks ↦ (runPhases_lacking first lacks _).mono (fun _ _ h ↦ h.elim) ?_
    rintro stop d₂ rfl
    exact same
  unfold phases
  simp only [ends_bind, ends_modifyTrack, ends_attempt]
  refine Ends.mono (run _ (by rfl)) ?_ ?_
  · intro code d₂ first
    simp only [ends_ite, ends_pure, ends_bind]
    exact ⟨fun _ ↦ trivial, fun _ ↦ Ends.mono (restoreEnds_returned (by exact first))
      (fun _ _ _ ↦ trivial) fun _ _ returned ↦ returned⟩
  · intro stop d₂ first
    simp only [ends_throw]
    exact Ends.mono (restoreEnds_returned (by exact first)) (fun _ _ returned ↦ returned)
      fun _ _ returned ↦ returned

/-- **A continuation in phases that stops.**  Its parameters are handed back in the order in which
they are listed, up to the first that has no end or that the device layer refuses.  If already the
first has no end, nothing is asked of the device layer. -/
theorem run_stopped_returned (d : Drive (Journal δ α) α n) (options : ModeOptions α)
    (ctx : ContinuationContext α) {solveType : SolveType}
    (phased : phasesOf options.continuation solveType ≠ .ok none) :
    Ends (run options ctx solveType) d (fun _ _ ↦ True) (fun stop d' ↦
      (∃ cause, phasesOf options.continuation solveType = .error cause ∧ stop = .fault cause ∧
        d' = d) ∨
      ∃ list, phasesOf options.continuation solveType = .ok (some list) ∧
        Returned ctx list.flatten d.journal d'.journal) := by
  unfold run
  rw [ends_bind, ends_orFault]
  refine ⟨fun list chosen ↦ ?_, fun cause unchosen ↦ .inl ⟨cause, unchosen, rfl, rfl⟩⟩
  cases list with
  | none => exact absurd chosen phased
  | some list =>
    exact (phases_returned list).mono (fun _ _ _ ↦ trivial)
      fun _ _ returned ↦ .inr ⟨list, chosen, returned⟩

/-- A current, something that has no end, and something else. -/
def openInBetween : List (Sweep ExtendedRat) :=
  [.ramp "current", { (Sweep.ramp "bias" : Sweep ExtendedRat) with stop := none }, .ramp "gain"]

/-- The current is handed back, and what comes after the one without an end stays where it began,
though its end is configured. -/
theorem run_stopped_returned_partly :
    Ends (run (stepping openInBetween) configured .multiParameter) (conducting openInBetween)
      (fun _ _ ↦ False) (fun _ d' ↦
        d'.journal.lastTaken "current" = some 1 ∧ d'.journal.lastTaken "gain" = some 0 ∧
        ∃ list, phasesOf (stepping openInBetween).continuation .multiParameter = .ok (some list) ∧
          Returned configured list.flatten (conducting openInBetween).journal d'.journal) := by
  have values : Ends (run (stepping openInBetween) configured .multiParameter)
      (conducting openInBetween) (fun _ _ ↦ False) (fun _ d' ↦
        d'.journal.lastTaken "current" = some 1 ∧ d'.journal.lastTaken "gain" = some 0) := by
    decide +kernel
  refine (values.and (run_stopped_returned (conducting openInBetween) (stepping openInBetween)
    configured (by nofun : phasesOf _ .multiParameter ≠ .ok none))).mono (fun _ _ h ↦ h.1) ?_
  rintro _ d' ⟨⟨current, gain⟩, ⟨_, unchosen, -⟩ | returned⟩
  · cases unchosen
  · exact ⟨current, gain, returned⟩

end Drive

end OperatingPoint
