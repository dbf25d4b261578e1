import OperatingPoint.Proofs.Coherence
import OperatingPoint.Proofs.ParameterNames
import OperatingPoint.Strategy

/-!
# What a strategy leaves

Every strategy takes off what it has laid over the equations, turns the forwarding of parameters off
again, and takes back the reserved parameter that it has stepped, on each of its ways out.  Where it
has not only followed Newton's iteration it leaves nothing computed either.  So a property of rigs
survives a whole solve if Newton's iteration keeps it, and if it holds wherever nothing is laid over
the equations and nothing is computed: this is `Rig.Settles`.

A strategy is attached where there is none, and so that never clashes.  What a strategy may stop for
is `Stop.OfStrategy`.
-/

set_option autoImplicit false

namespace OperatingPoint

open Step

variable {δ α : Type} [Scalar α] [DirectSolver α] [Device δ α] {n : Nat} {layer : δ}
  {N : String → Prop} {L : Option (Augmentation α)} {B : Option (Array α)} {forwarding : Bool}

/-! ## What is said of rigs -/

theorem Rig.Lays.isPlain {r : Rig δ α n} (h : r.Lays layer none none false) :
    r.track.overlay.IsPlain :=
  ⟨Option.map_eq_none_iff.1 h.strategy, Option.map_eq_none_iff.1 h.blend, h.forwarding⟩

/-- A rig with nothing laid over the equations and nothing computed. -/
structure Rig.Blank (layer : δ) (N : String → Prop) (r : Rig δ α n) : Prop where
  laid : r.Laid layer N none none false
  flags : r.track.iterate.flags = {}

/-- A property of rigs that Newton's iteration keeps while nothing is laid over the equations, and
that holds where in addition nothing is computed. -/
structure Rig.Settles (layer : δ) (N : String → Prop) (I : Rig δ α n → Prop) : Prop extends
    Rig.Keeps I fun _ ↦ True where
  laid : ∀ {r}, I r → r.Laid layer N none none false
  blank : ∀ {r}, r.Blank layer N → I r

theorem Rig.settles_laid :
    Rig.Settles layer N (Rig.Laid (n := n) layer N none none false) where
  toKeeps := Rig.keeps_laid
  laid h := h
  blank h := h.laid

/-- What a strategy may stop for: a routine reason, or the end that one of its sweeps lacks. -/
inductive Stop.OfStrategy (ctx : ContinuationContext α) (sweeps : List (Sweep α)) : Stop → Prop
  | routine {e : Stop} (h : e.Routine) : OfStrategy ctx sweeps e
  | noEnd {sweep : Sweep α} (mem : sweep ∈ sweeps) {cause : Fault}
    (h : ctx.endOf sweep = .error cause) : OfStrategy ctx sweeps (.fault cause)

omit [Scalar α] [DirectSolver α] [Device δ α] in
theorem Stop.OfStrategy.not_clashes {ctx : ContinuationContext α} {sweeps : List (Sweep α)}
    {e : Stop} (h : e.OfStrategy ctx sweeps) : ¬ e.Clashes := by
  cases h with
  | routine h => exact h.not_clashes
  | noEnd mem h =>
    rintro ⟨new, old, same⟩
    unfold ContinuationContext.endOf at h
    split at h
    · cases h
    · split at h <;> cases h
      cases same

/-- The code that a continuation concludes with. -/
def ContinuationReport.conclusion {α : Type} (report : ContinuationReport α) : Int :=
  match report.last with
  | some outcome => if report.finished then outcome.code else CodeTable.continuationFailed
  | none => CodeTable.continuationFailed

/-- A continuation that concludes with a success has come to its end. -/
theorem ContinuationReport.finished_of_success {α : Type} {report : ContinuationReport α}
    (success : CodeTable.isSuccess report.conclusion = true) : report.finished = true := by
  unfold conclusion at success
  split at success
  · split at success
    · rename_i finished
      exact finished
    · cases success
  · cases success

namespace Drive

variable {d d' d₀ : Drive δ α n} {ctx : ContinuationContext α} {I : Rig δ α n → Prop}

omit [Device δ α] in
@[simp] theorem ends_onEngine {β : Type} {act : Step (Engine δ α n) β}
    {done : β → Drive δ α n → Prop} {stopped : Stop → Drive δ α n → Prop} :
    Ends (onEngine act) d done stopped ↔
      Ends act d.engine (fun b e ↦ done b { d with engine := e })
        (fun stop e ↦ stopped stop { d with engine := e }) := ends_zoom

omit [Device δ α] in
@[simp] theorem ends_modifyTrack {change : Track α n → Track α n}
    {done : PUnit → Drive δ α n → Prop} {stopped : Stop → Drive δ α n → Prop} :
    Ends (modifyTrack change) d done stopped ↔ done ⟨⟩ { d with engine := { d.engine with
      rig := d.engine.rig.withTrack (change d.engine.rig.track) } } := Iff.rfl

omit [Device δ α] in
@[simp] theorem ends_attach {a : Augmentation α} {done : PUnit → Drive δ α n → Prop}
    {stopped : Stop → Drive δ α n → Prop} :
    Ends (attach a) d done stopped ↔
      (∀ t, d.engine.rig.track.attach a = .ok t →
        done ⟨⟩ { d with engine := { d.engine with rig := d.engine.rig.withTrack t } }) ∧
      ∀ cause, d.engine.rig.track.attach a = .error cause → stopped (.fault cause) d := by
  unfold attach
  simp only [ends_bind, ends_get, ends_orFault, ends_modifyTrack]

omit [Device δ α] in
theorem ends_impose {c : Clamp α} {done : PUnit → Drive δ α n → Prop}
    {stopped : Stop → Drive δ α n → Prop} :
    Ends (impose c) d done stopped ↔
      (∀ x, c.impose d.engine.iterate.x = .ok x → done ⟨⟩ { d with engine := { d.engine with
        rig := d.engine.rig.withTrack (d.engine.rig.track.setX x) } }) ∧
      ∀ stop, c.impose d.engine.iterate.x = .error stop → stopped stop d := by
  unfold impose
  simp only [ends_bind, ends_get, ends_lift, ends_modifyTrack]

omit [Device δ α] in
theorem ends_conclude {report : ContinuationReport α} {done : Int → Drive δ α n → Prop}
    {stopped : Stop → Drive δ α n → Prop} :
    Ends (conclude report) d done stopped ↔
      done report.conclusion { d with last := report.last } := by
  unfold conclude ContinuationReport.conclusion
  rw [ends_bind, ends_modify]
  cases report.last with
  | some outcome => rw [ends_pure]
  | none => rw [ends_pure]

/-- The sweeps that a strategy steps. -/
def stepped {α : Type} [Scalar α] (c : ContinuationOptions α) (solveType : SolveType) :
    List (Sweep α) :=
  match phasesOf c solveType with
  | .ok (some list) => list.flatten
  | .ok none =>
    match solveType with
    | .gminStepping => [c.gmin.sweep]
    | .artificialHomotopy => [c.homotopy]
    | _ => []
  | .error _ => []

/-- The sweeps of parameters of the device layer that are written in the options. -/
def written {α : Type} (c : ContinuationOptions α) : List (Sweep α) :=
  c.parameters ++ [c.device.gain, c.device.nonlinear, c.device.size, c.source]

/-- What a strategy steps: sweeps that are written in the options, sweeps of blocks that are made
out of that of the gain, or the reserved parameter of the strategy. -/
inductive Steps {α : Type} [Scalar α] (c : ContinuationOptions α) : SolveType → Sweep α → Prop
  | device {solveType : SolveType} {sweep : Sweep α} (mem : sweep ∈ written c) :
    Steps c solveType sweep
  | block {name : String} (mem : name ∈ c.device.blockGainNames) :
    Steps c .blockGainscale { c.device.gain with name := name }
  | progress : Steps c .gminStepping c.gmin.sweep
  | blend : Steps c .artificialHomotopy c.homotopy

theorem steps_of_mem {α : Type} [Scalar α] {c : ContinuationOptions α} {solveType : SolveType}
    {sweep : Sweep α} (mem : sweep ∈ stepped c solveType) : Steps c solveType sweep := by
  have parameter : sweep ∈ c.parameters → Steps c solveType sweep :=
    fun there ↦ .device (List.mem_append_left _ there)
  have own : sweep ∈ [c.device.gain, c.device.nonlinear, c.device.size, c.source] →
      Steps c solveType sweep := fun there ↦ .device (List.mem_append_right _ there)
  unfold stepped at mem
  cases solveType with
  | naturalParameter =>
    refine parameter ?_
    cases there : c.parameters with
    | nil => simp [phasesOf, there] at mem
    | cons first rest =>
      simp only [phasesOf, there, List.flatten_cons, List.flatten_nil, List.append_nil,
        List.mem_singleton] at mem
      simp [mem]
  | multiParameter =>
    cases nothing : c.parameters.isEmpty with
    | true => simp [phasesOf, nothing] at mem
    | false =>
      simp only [phasesOf, nothing, Bool.false_eq_true, if_false, List.mem_flatten,
        List.mem_map] at mem
      obtain ⟨_, ⟨own, there, rfl⟩, same⟩ := mem
      obtain rfl := List.mem_singleton.1 same
      exact parameter there
  | vectorParameter =>
    cases nothing : c.parameters.isEmpty with
    | true => simp [phasesOf, nothing] at mem
    | false =>
      simp only [phasesOf, nothing, Bool.false_eq_true, if_false, List.flatten_cons,
        List.flatten_nil, List.append_nil] at mem
      exact parameter mem
  | blockGainscale =>
    cases nothing : c.device.blockGainNames.isEmpty with
    | true => simp [phasesOf, nothing] at mem
    | false =>
      simp only [phasesOf, nothing, Bool.false_eq_true, if_false, List.flatten_append,
        List.mem_append, List.mem_flatten, List.mem_map, List.flatten_cons, List.flatten_nil,
        List.append_nil, List.mem_singleton] at mem
      rcases mem with ⟨_, ⟨block, there, rfl⟩, same⟩ | same
      · obtain rfl := List.mem_singleton.1 same
        exact .block there
      · exact own (by simp [same])
  | deviceGainThenNonlinear | deviceNonlinearThenGain | deviceSizeGainNonlinear | deviceSimultaneous
  | sourceStepping =>
    simp only [phasesOf, List.flatten_cons, List.flatten_nil, List.append_nil, List.cons_append,
      List.nil_append, List.mem_cons, List.not_mem_nil, or_false] at mem
    refine own ?_
    simp only [List.mem_cons]
    grind
  | gminStepping =>
    obtain rfl := List.mem_singleton.1 mem
    exact .progress
  | artificialHomotopy =>
    obtain rfl := List.mem_singleton.1 mem
    exact .blend
  | newton | pseudoTransient => cases mem

/-- From a drive to one whose rig has a property, and whose driver is set up as it was. -/
structure Settled (I : Rig δ α n → Prop) (d d' : Drive δ α n) : Prop where
  keeps : I d'.engine.rig
  alike : d.engine.newton.battery.Alike d'.engine.newton.battery

/-! ## Newton's iteration -/

theorem solveNewton_settles (settles : Rig.Settles layer N I) (h : d₀.Settled I d) :
    Ends solveNewton d (fun _ d' ↦ d₀.Settled I d')
      (fun stop d' ↦ stop.Routine ∧ d₀.Settled I d') := by
  have opened := h.alike.trans (Battery.reset_alike _)
  unfold solveNewton
  simp only [ends_bind, ends_onEngine, ends_modify, ends_pure]
  refine (Engine.solve_keeps settles.toKeeps.routine h.keeps).mono ?_ ?_
  · rintro outcome e ⟨handed, arrives⟩
    exact ⟨arrives.keeps, opened.trans arrives.alike⟩
  · rintro stop e ⟨routine, halts⟩
    exact ⟨routine, halts.keeps, h.alike.trans halts.alike⟩

/-- A solve under a strategy, which comes off whatever becomes of it. -/
theorem solveUnder_settles (settles : Rig.Settles layer N I) (h : d₀.Settled I d)
    (a : Augmentation α) :
    Ends (solveUnder a) d (fun _ d' ↦ d₀.Settled I d')
      (fun stop d' ↦ stop.Routine ∧ d₀.Settled I d') := by
  have off : ∀ {e : Engine δ α n}, e.rig.Laid layer N (some a.frame) none false →
      I (e.rig.withTrack e.rig.track.detach) :=
    fun laid ↦ settles.blank ⟨laid.detach, Track.detach_flags laid.isSome_strategy⟩
  have laid := settles.laid h.keeps
  unfold solveUnder solveNewton
  simp only [ends_bind, ends_attach, ends_attempt, ends_onEngine, ends_modify, ends_pure,
    ends_modifyTrack, ends_lift_ok, ends_lift_error]
  refine ⟨fun t attached ↦ ?_,
    fun cause refused ↦ ⟨Track.attach_routine laid.strategy_eq_none a cause refused, h⟩⟩
  refine (Engine.solve_keeps (e := { d.engine with rig := d.engine.rig.withTrack t })
    Rig.keeps_laid.routine (laid.attach attached)).mono ?_ ?_
  · rintro outcome e ⟨handed, arrives⟩
    exact ⟨off arrives.keeps, (h.alike.trans (Battery.reset_alike _)).trans arrives.alike⟩
  · rintro stop e ⟨routine, halts⟩
    exact ⟨routine, off halts.keeps, h.alike.trans halts.alike⟩

/-- Moving the iterate to where a clamp holds it. -/
theorem impose_settles (settles : Rig.Settles layer N I) (h : d₀.Settled I d) (c : Clamp α) :
    Ends (impose c) d (fun _ d' ↦ d₀.Settled I d')
      (fun stop d' ↦ stop.Routine ∧ d₀.Settled I d') := by
  rw [ends_impose]
  refine ⟨fun x _ ↦ ⟨settles.move h.keeps x, h.alike⟩, fun stop outside ↦ ⟨?_, h⟩⟩
  exact writeAll_stops (fun _ _ _ ↦ trivial) _ stop outside

omit [Scalar α] [DirectSolver α] [Device δ α] in
theorem clamp?_routine (options : ModeOptions α) (ctx : ContinuationContext α) :
    StopsOnly Fault.Routine (clamp? options ctx) := by
  unfold clamp?
  split
  · split
    · refine .map ?_ _
      unfold Clamp.ofValues
      split
      · exact .ok _
      · exact .error trivial
    · exact .ok _
  · exact .ok _

theorem newton_settles (settles : Rig.Settles layer N I) (h : d₀.Settled I d)
    (options : ModeOptions α) (ctx : ContinuationContext α) :
    Ends (newton options ctx) d (fun _ d' ↦ d₀.Settled I d')
      (fun stop d' ↦ stop.Routine ∧ d₀.Settled I d') := by
  unfold newton
  rw [ends_bind, ends_orFault]
  refine ⟨fun clamp _ ↦ ?_, fun cause refused ↦ ⟨clamp?_routine options ctx cause refused, h⟩⟩
  cases clamp with
  | some clamp =>
    rw [ends_bind]
    exact (impose_settles settles h clamp).mono
      (fun _ d₁ moved ↦ solveUnder_settles settles moved _) fun _ _ stopped ↦ stopped
  | none =>
    simp only [ends_bind, ends_get]
    split
    · simp only [ends_bind, ends_modify]
      exact solveUnder_settles (d := { d with seed := none }) settles ⟨h.keeps, h.alike⟩ _
    · exact solveNewton_settles settles h

/-! ## Phases -/

omit [Scalar α] [DirectSolver α] [Device δ α] in
/-- There is a way for every sweep, or one of them lacks its end. -/
theorem paths_stops (list : List (Sweep α)) : StopsOnly
    (fun cause ↦ ∃ sweep ∈ list, ctx.endOf sweep = .error cause) (list.mapM ctx.path) := by
  refine .mapM fun sweep mem ↦ .bind ?_ fun _ _ ↦ .ok _
  exact fun cause missing ↦ ⟨sweep, mem, missing⟩

omit [Scalar α] [DirectSolver α] [Device δ α] in
/-- The ways of sweeps are under their names. -/
theorem names_of_ways {list : List (Sweep α)} {paths : List (ParameterPath α)}
    (ways : list.mapM ctx.path = .ok paths) :
    paths.map ParameterPath.name = list.map Sweep.name := by
  induction list generalizing paths with
  | nil =>
    cases ways
    rfl
  | cons sweep rest ih =>
    rw [List.mapM_cons] at ways
    obtain ⟨path, way, ways⟩ := bind_eq_ok.1 ways
    obtain ⟨paths', ways', same⟩ := bind_eq_ok.1 ways
    obtain ⟨v, -, way⟩ := bind_eq_ok.1 way
    cases same
    cases way
    rw [List.map_cons, List.map_cons, ih ways']

theorem runPhases_settles (h : d₀.Settled (Rig.Laid layer N none none true) d) (code : Int)
    (list : List (List (Sweep α))) (own : ∀ sweep ∈ list.flatten, N sweep.name)
    {sweeps : List (Sweep α)} (among : ∀ sweep ∈ list.flatten, sweep ∈ sweeps) :
    Ends (runPhases ctx code list) d
      (fun _ d' ↦ d₀.Settled (Rig.Laid layer N none none true) d')
      (fun stop d' ↦ stop.OfStrategy ctx sweeps ∧
        d₀.Settled (Rig.Laid layer N none none true) d') := by
  induction list generalizing d code with
  | nil => exact h
  | cons phase phases ih =>
    rw [List.flatten_cons, List.forall_mem_append] at own among
    cases phase with
    | nil => exact ih h code own.2 among.2
    | cons lead rest =>
      rw [List.forall_mem_cons] at own among
      unfold runPhases
      simp only [ends_bind, ends_orFault, ends_onEngine, ends_conclude, ends_ite, ends_pure]
      refine ⟨fun coupled ways ↦ ⟨fun stop _ ↦ ?_, fun cause missing ↦
        ⟨.noEnd among.1.1 missing, h⟩⟩, fun cause lost ↦ ?_⟩
      · have named : ∀ path ∈ coupled, N path.name := by
          intro path mem
          have mem := List.mem_map_of_mem (f := ParameterPath.name) mem
          rw [names_of_ways ways] at mem
          obtain ⟨sweep, there, same⟩ := List.mem_map.1 mem
          rw [← same]
          exact own.1.2 sweep there
        refine (Stepper.run_laid (s := ⟨lead, stop, coupled⟩) own.1.1 named
          (h.keeps.setForwarding true)).mono ?_ ?_
        · rintro report e ⟨laid, alike⟩
          have left : d₀.Settled (Rig.Laid layer N none none true)
              { d with engine := e, last := report.last } := ⟨laid, h.alike.trans alike⟩
          exact ⟨fun _ ↦ left, fun _ ↦ ih left _ own.2 among.2⟩
        · rintro stop e ⟨routine, laid, alike⟩
          exact ⟨.routine routine, laid, h.alike.trans alike⟩
      · obtain ⟨sweep, mem, missing⟩ := paths_stops rest cause lost
        exact ⟨.noEnd (among.1.2 sweep mem) missing, h⟩

/-- Parameters are handed back where nothing is computed, so that nothing gets out of step. -/
theorem restoreEnds_settles (h : d₀.Settled (Rig.Blank layer N) d) {list sweeps : List (Sweep α)}
    (own : ∀ sweep ∈ list, N sweep.name) (among : ∀ sweep ∈ list, sweep ∈ sweeps) :
    Ends (restoreEnds ctx list) d (fun _ d' ↦ d₀.Settled (Rig.Blank layer N) d')
      (fun stop d' ↦ stop.OfStrategy ctx sweeps ∧ d₀.Settled (Rig.Blank layer N) d') := by
  induction list generalizing d with
  | nil => exact h
  | cons sweep rest ih =>
    rw [List.forall_mem_cons] at own among
    unfold restoreEnds Rig.pushParameter Rig.giveToDevice
    simp only [ends_bind, ends_orFault, ends_onEngine, Engine.ends_onRig, ends_get, ends_set,
      ends_ite, ends_pure, ends_fault, Rig.ends_modifyTrack]
    refine ⟨fun stop _ ↦ ?_, fun cause missing ↦ ⟨.noEnd among.1 missing, h⟩⟩
    have set := h.keeps.laid.setParameter own.1 stop
    have flags := (d.engine.rig.track.setParameter_shifts sweep.name stop).fresh h.keeps.flags
    -- The device layer is another one now, whether or not it has taken the value.
    have given : d₀.Settled (Rig.Blank layer N) { d with engine := { d.engine with rig := {
        store := { d.engine.rig.store with
          device := (Device.setParameter d.engine.rig.store.device sweep.name stop).2 }
        track := d.engine.rig.track.setParameter sweep.name stop } } } := by
      refine ⟨⟨set.of_lays ?_ rfl, flags⟩, h.alike⟩
      exact ⟨⟨set.rest.paired, set.rest.rests⟩, .parameter set.holds _ _, set.names, set.strategy,
        set.blend, set.forwarding⟩
    exact ⟨fun _ ↦ ih given own.2 among.2, fun _ ↦ ⟨.routine trivial, given⟩⟩

/-- A continuation in phases. -/
theorem phases_settles (settles : Rig.Settles layer N I) (h : d₀.Settled I d)
    (list : List (List (Sweep α))) (own : ∀ sweep ∈ list.flatten, N sweep.name) :
    Ends (phases ctx list) d (fun _ d' ↦ d₀.Settled I d')
      (fun stop d' ↦ stop.OfStrategy ctx list.flatten ∧ d₀.Settled I d') := by
  -- Turning the forwarding off leaves nothing computed.
  have off : ∀ {d' : Drive δ α n}, d₀.Settled (Rig.Laid layer N none none true) d' →
      d₀.Settled (Rig.Blank layer N) { d' with engine := { d'.engine with
        rig := d'.engine.rig.withTrack (d'.engine.rig.track.setForwarding false) } } :=
    fun h ↦ ⟨⟨h.keeps.setForwarding false, Track.setForwarding_flags h.keeps.forwarding⟩, h.alike⟩
  have back : ∀ {d' : Drive δ α n}, d₀.Settled (Rig.Blank layer N) d' → d₀.Settled I d' :=
    fun h ↦ ⟨settles.blank h.keeps, h.alike⟩
  let t := list.flatten.foldl (fun t sweep ↦ t.setParameter sweep.name sweep.start)
    d.engine.rig.track
  have started : d₀.Settled (Rig.Laid layer N none none true) { d with engine := { d.engine with
      rig := d.engine.rig.withTrack (t.setForwarding true) } } :=
    ⟨((settles.laid h.keeps).setStarts own).setForwarding true, h.alike⟩
  unfold phases
  simp only [ends_bind, ends_modifyTrack, ends_attempt]
  refine (runPhases_settles started _ list own fun _ mem ↦ mem).mono ?_ ?_
  · intro code d' phased
    simp only [ends_ite, ends_pure, ends_bind]
    refine ⟨fun _ ↦ back (off phased), fun _ ↦ ?_⟩
    exact (restoreEnds_settles (off phased) own fun _ mem ↦ mem).mono (fun _ _ left ↦ back left)
      fun _ _ stopped ↦ ⟨stopped.1, back stopped.2⟩
  · rintro stop d' ⟨known, phased⟩
    simp only [ends_throw]
    exact (restoreEnds_settles (off phased) own fun _ mem ↦ mem).mono
      (fun _ _ left ↦ ⟨known, back left⟩) fun _ _ stopped ↦ ⟨known, back stopped.2⟩

/-! ## Other continuations -/

/-- A stepper without coupled parameters that is cleaned up after. -/
theorem runStepper_settles (settles : Rig.Settles layer N I) {lead : Sweep α} {stop : α}
    {cleanUp : Track α n → Track α n} {N' : String → Prop} (own : N' lead.name)
    (h : d₀.Settled (Rig.Laid layer N' L B forwarding) d)
    (clean : ∀ {r : Rig δ α n}, r.Laid layer N' L B false →
      (r.withTrack (cleanUp r.track)).Blank layer N) :
    Ends (runStepper ⟨lead, stop, []⟩ cleanUp) d (fun _ d' ↦ d₀.Settled I d')
      (fun stop d' ↦ stop.Routine ∧ d₀.Settled I d') := by
  have left : ∀ {e : Engine δ α n}, e.rig.Laid layer N' L B true →
      I (e.rig.withTrack (cleanUp (e.rig.track.setForwarding false))) :=
    fun laid ↦ settles.blank (clean (laid.setForwarding false))
  unfold runStepper
  simp only [ends_bind, ends_attempt, ends_onEngine, ends_modifyTrack, ends_lift_ok,
    ends_lift_error, ends_conclude]
  refine (Stepper.run_laid (s := ⟨lead, stop, []⟩) own
    (fun _ mem ↦ absurd mem List.not_mem_nil) (h.keeps.setForwarding true)).mono ?_ ?_
  · exact fun _ e run ↦ ⟨left run.1, h.alike.trans run.2⟩
  · exact fun _ e run ↦ ⟨run.1, left run.2.1, h.alike.trans run.2.2⟩

/-- Stepping of conductances, beside a clamp or alone. -/
theorem gmin_settles (settles : Rig.Settles layer N I) (h : d₀.Settled I d)
    (options : ModeOptions α) (ctx : ContinuationContext α) :
    Ends (gmin options ctx) d (fun _ d' ↦ d₀.Settled I d')
      (fun stop d' ↦ stop.Routine ∧ d₀.Settled I d') := by
  have attached : ∀ {d₁ : Drive δ α n} (a : Augmentation α), d₀.Settled I d₁ →
      Ends (attach a) d₁
        (fun _ d' ↦ d₀.Settled (Rig.Laid layer (fun name ↦ N name ∨ name = Parameters.progressName)
          (some a.frame) none false) d')
        (fun stop d' ↦ stop.Routine ∧ d₀.Settled I d') := by
    intro d₁ a h
    have laid := settles.laid h.keeps
    rw [ends_attach]
    exact ⟨fun t attached ↦ ⟨(laid.attach attached).weaken fun _ ↦ .inl, h.alike⟩,
      fun cause refused ↦ ⟨Track.attach_routine laid.strategy_eq_none a cause refused, h⟩⟩
  -- Beside a clamp or not, the sweep and the clean-up are the same.
  have stepped : ∀ {d₁ : Drive δ α n} {a : Augmentation α}, d₀.Settled (Rig.Laid layer
      (fun name ↦ N name ∨ name = Parameters.progressName) (some a.frame) none false) d₁ →
      Ends (do
        modifyTrack fun t ↦ t.setForwarding true
        runStepper ⟨options.continuation.gmin.sweep, options.continuation.gmin.stop, []⟩
          fun t ↦ (t.removeParameter Parameters.progressName).detach) d₁
        (fun _ d' ↦ d₀.Settled I d') (fun stop d' ↦ stop.Routine ∧ d₀.Settled I d') := by
    intro d₁ a h
    rw [ends_bind, ends_modifyTrack]
    refine runStepper_settles settles (.inr rfl) ⟨h.keeps.setForwarding true, h.alike⟩ ?_
    intro r laid
    have removed := laid.removeParameter
    exact ⟨removed.detach, Track.detach_flags removed.isSome_strategy⟩
  unfold gmin
  rw [ends_bind, ends_orFault]
  refine ⟨fun clamp _ ↦ ?_, fun cause refused ↦ ⟨clamp?_routine options ctx cause refused, h⟩⟩
  cases clamp with
  | some clamp =>
    simp only [ends_bind]
    refine (impose_settles settles h clamp).mono (fun _ d₁ moved ↦ ?_) fun _ _ stopped ↦ stopped
    exact (attached _ moved).mono (fun _ d₂ laid ↦ ends_bind.1 (stepped laid))
      fun _ _ stopped ↦ stopped
  | none =>
    rw [ends_bind]
    exact (attached _ h).mono (fun _ d₁ laid ↦ stepped laid) fun _ _ stopped ↦ stopped

/-- Homotopy from the solution at hand. -/
theorem homotopy_settles (settles : Rig.Settles layer N I) (h : d₀.Settled I d)
    (options : ModeOptions α) (ctx : ContinuationContext α)
    (own : N options.continuation.homotopy.name ∨
      options.continuation.homotopy.name = Parameters.blendName) :
    Ends (homotopy options ctx) d (fun _ d' ↦ d₀.Settled I d')
      (fun stop d' ↦ stop.OfStrategy ctx [options.continuation.homotopy] ∧ d₀.Settled I d') := by
  let start := d.engine.rig.track.x.toArray
  let d₁ : Drive δ α n := { d with engine := { d.engine with
    rig := d.engine.rig.withTrack (d.engine.rig.track.attachBlend (.atStart start)) } }
  have blended : d₀.Settled (Rig.Laid layer (fun name ↦ N name ∨ name = Parameters.blendName)
      none (some start) false) d₁ :=
    ⟨((settles.laid h.keeps).attachBlend (.atStart start)).weaken fun _ ↦ .inl, h.alike⟩
  unfold homotopy
  simp only [ends_bind, ends_orFault, ends_modifyTrack]
  refine ⟨fun stop _ ↦ ?_, fun cause missing ↦ ⟨.noEnd (.head _) missing, h⟩⟩
  refine (runStepper_settles settles own blended ?_).mono (fun _ _ left ↦ left)
    fun _ _ stopped ↦ ⟨.routine stopped.1, stopped.2⟩
  intro r laid
  have removed := laid.removeParameter
  exact ⟨removed.detachBlend, Track.detachBlend_flags removed.isSome_blend⟩

/-- A march in pseudo-time, then Newton. -/
theorem pseudoTransient_settles (settles : Rig.Settles layer N I) (h : d₀.Settled I d)
    (options : ModeOptions α) (ctx : ContinuationContext α) :
    Ends (pseudoTransient options ctx) d (fun _ d' ↦ d₀.Settled I d')
      (fun stop d' ↦ stop.Routine ∧ d₀.Settled I d') := by
  have laid := settles.laid h.keeps
  unfold pseudoTransient
  simp only [ends_bind, ends_lift, ends_attach, ends_attempt, ends_onEngine, Engine.ends_onRig,
    ends_modifyTrack, ends_ite, ends_pure]
  refine ⟨fun term _ ↦ ⟨fun t attached ↦ ?_, fun cause refused ↦
    ⟨Track.attach_routine laid.strategy_eq_none _ cause refused, h⟩⟩,
    fun stop refused ↦ ⟨PseudoTime.ofStep_routine _ _ _ _ _ _ stop refused, h⟩⟩
  have off : ∀ {r : Rig δ α n},
      r.Laid layer N (some (Augmentation.pseudoTransient term).frame) none false →
        d₀.Settled I { d with engine := { d.engine with rig := r.withTrack r.track.detach } } :=
    fun laid ↦ ⟨settles.blank ⟨laid.detach, Track.detach_flags laid.isSome_strategy⟩, h.alike⟩
  refine (March.guards_run Rig.keepsMarch_laid _ _ (laid.attach attached)).mono ?_ ?_
  · intro report r kept
    refine ⟨fun _ _ ↦ ⟨fun _ ↦ off kept, fun _ ↦ solveNewton_settles settles (off kept)⟩,
      fun _ same ↦ by cases same⟩
  · rintro stop r ⟨routine, kept⟩
    refine ⟨fun _ same ↦ (by cases same), fun _ same ↦ ?_⟩
    cases same
    exact ⟨routine, off kept⟩

/-! ## All strategies -/

/-- The reserved parameter that a strategy steps, and takes back itself. -/
def TakesBack : SolveType → String → Prop
  | .gminStepping, name => name = Parameters.progressName
  | .artificialHomotopy, name => name = Parameters.blendName
  | _, _ => False

omit [Scalar α] [DirectSolver α] [Device δ α] in
theorem not_takesBack_of_phases {c : ContinuationOptions α} {solveType : SolveType}
    {list : List (List (Sweep α))} (phased : phasesOf c solveType = .ok (some list))
    (name : String) : ¬ TakesBack solveType name := by
  cases solveType with
  | gminStepping | artificialHomotopy => cases phased
  | _ => exact id

omit [Scalar α] [DirectSolver α] [Device δ α] in
theorem phasesOf_routine (c : ContinuationOptions α) (solveType : SolveType) :
    StopsOnly Fault.Routine (phasesOf c solveType) := by
  cases solveType with
  | naturalParameter | multiParameter | vectorParameter | blockGainscale =>
    dsimp only [phasesOf]
    split
    · exact .error trivial
    · exact .ok _
  | _ => exact .ok _

/-- **Settling.**  A property that Newton's iteration keeps, and that holds where nothing is laid
over the equations and nothing is computed, is kept by a solve by any strategy, whether it comes to
its end or stops.  It stops for a routine reason, or because something that it steps has no end. -/
theorem run_settles (settles : Rig.Settles layer N I) (h : I d.engine.rig)
    (options : ModeOptions α) (ctx : ContinuationContext α) (solveType : SolveType)
    (own : ∀ sweep ∈ stepped options.continuation solveType,
      N sweep.name ∨ TakesBack solveType sweep.name) :
    Ends (run options ctx solveType) d (fun _ d' ↦ d.Settled I d')
      (fun stop d' ↦ stop.OfStrategy ctx (stepped options.continuation solveType) ∧
        d.Settled I d') := by
  have here : d.Settled I d := ⟨h, .refl _⟩
  have routine : ∀ {act : Step (Drive δ α n) Int} {sweeps : List (Sweep α)},
      Ends act d (fun _ d' ↦ d.Settled I d') (fun stop d' ↦ stop.Routine ∧ d.Settled I d') →
        Ends act d (fun _ d' ↦ d.Settled I d')
          (fun stop d' ↦ stop.OfStrategy ctx sweeps ∧ d.Settled I d') :=
    fun ends ↦ ends.mono (fun _ _ left ↦ left) fun _ _ stopped ↦ ⟨.routine stopped.1, stopped.2⟩
  unfold run
  rw [ends_bind, ends_orFault]
  refine ⟨fun list chosen ↦ ?_, fun cause lacking ↦
    ⟨.routine (phasesOf_routine _ _ cause lacking), here⟩⟩
  unfold stepped at own ⊢
  rw [chosen] at own ⊢
  cases list with
  | some list =>
    exact phases_settles settles here list fun sweep mem ↦
      (own sweep mem).resolve_right (not_takesBack_of_phases chosen _)
  | none =>
    cases solveType with
    | gminStepping => exact routine (gmin_settles settles here options ctx)
    | pseudoTransient => exact routine (pseudoTransient_settles settles here options ctx)
    | artificialHomotopy => exact homotopy_settles settles here options ctx (own _ (.head _))
    | _ => exact routine (newton_settles settles here options ctx)

end Drive

end OperatingPoint
