import OperatingPoint.Proofs.HandedBack
import OperatingPoint.Proofs.LoadValues
import OperatingPoint.Proofs.Stages

/-!
# The schedule of phases

A continuation in phases moves its parameters in a fixed order.  Whenever a residual is loaded in
a phase, the device layer holds the ends of the parameters of earlier phases and the starts of those
of later ones.  The lead of the phase has the value that is attempted, and what is coupled to it is
as far on its own way as the lead is on its.

The values are set in one place, forwarded before a load, and taken back after an attempt without a
solution.  So the schedule is first shown of the attempts of one stepper, each of which starts with
the parameters that it has set itself, and then of the stages in turn.
-/

set_option autoImplicit false

namespace OperatingPoint

open Step Device.Request

variable {δ α : Type} [Scalar α] [DirectSolver α] [Device δ α] {n : Nat} {layer : Journal δ α}
  {others : String → Option α}

/-! ## The attempts of a stepper -/

namespace Stepper

variable {s : Stepper α} {e e' : Engine (Journal δ α) α n} {a : s.Attempt (Journal δ α) n}

/-- A load that is one of an attempt's own. -/
def Attempt.During (a : s.Attempt (Journal δ α) n) (older : List (Device.Request α)) : Prop :=
  LoadsBetween a.before.rig.requests a.left.rig.requests older

/-- A load in one of some attempts.  It finds the values that the attempt has set, and for other
parameters those that they have all along. -/
def Meets (layer : Journal δ α) (others : String → Option α) (s : Stepper α)
    (trace : List (s.Attempt (Journal δ α) n)) (older : List (Device.Request α)) : Prop :=
  ∃ a ∈ trace, a.During older ∧ a.before.rig.Forwards layer s.names others ∧
    (s.ready a.value a.before).rig.Meets older

/-- From an engine to another: the parameters are still forwarded, and all loads are in some
attempts. -/
structure Follows (layer : Journal δ α) (others : String → Option α) (s : Stepper α)
    (e : Engine (Journal δ α) α n) (trace : List (s.Attempt (Journal δ α) n))
    (e' : Engine (Journal δ α) α n) : Prop where
  forwards : e'.rig.Forwards layer s.names others
  loads : AtLoads e.rig.requests e'.rig.requests (s.Meets layer others trace)

theorem Follows.cons {trace : List (s.Attempt (Journal δ α) n)} {e₁ : Engine (Journal δ α) α n}
    (first : s.Follows layer others e [a] e₁) (rest : s.Follows layer others e₁ trace e') :
    s.Follows layer others e (a :: trace) e' := by
  refine ⟨rest.forwards, .trans (first.loads.mono ?_) (rest.loads.mono ?_)⟩
  · rintro older - ⟨b, mem, met⟩
    exact ⟨b, List.mem_singleton.1 mem ▸ .head _, met⟩
  · rintro older - ⟨b, mem, met⟩
    exact ⟨b, .tail _ mem, met⟩

/-- After an attempt, changes of the track and what the device layer is told of the attempt load
nothing. -/
theorem Follows.then {trace : List (s.Attempt (Journal δ α) n)} {e₁ : Engine (Journal δ α) α n}
    (h : s.Follows layer others e trace e₁) (forwards : e'.rig.Forwards layer s.names others)
    (asked : AtLoads e₁.rig.requests e'.rig.requests fun _ ↦ False) :
    s.Follows layer others e trace e' :=
  ⟨forwards, h.loads.trans (asked.mono fun _ _ none ↦ none.elim)⟩

variable (exact : Scalar.Exact α)
include exact

/-- The loads of one attempt. -/
theorem Attempt.follows {value : α} (here : a = ⟨value, e⟩)
    (h : e.rig.Forwards layer s.names others) : s.Follows layer others e [a] a.left := by
  subst here
  have ready : (s.ready value e).rig.Forwards layer s.names others := h.setAll exact value
  have finds : Rig.Finds layer (s.ready value e).rig
      (Attempt.left (⟨value, e⟩ : s.Attempt (Journal δ α) n)).rig :=
    (Engine.solve_finds ready.laid).after
  refine ⟨ready.of_frames ⟨finds.laid, finds.frames⟩, finds.loads.mono fun older here meets ↦ ?_⟩
  exact ⟨_, List.mem_singleton_self _, here, h, meets⟩

theorem Attempt.follows_succeeded {value : α} (here : a = ⟨value, e⟩)
    (h : e.rig.Forwards layer s.names others) : s.Follows layer others e [a] a.left.succeeded := by
  have follows := Attempt.follows exact here h
  exact Rig.handedOver_keeps (P := fun r ↦ s.Follows layer others e [a] { a.left with rig := r })
    follows (follows.then follows.forwards.accept ((AtLoads.refl _).skip (by simp)))

theorem Attempt.follows_failed {value : α} (here : a = ⟨value, e⟩)
    (h : e.rig.Forwards layer s.names others) : s.Follows layer others e [a] a.left.failed := by
  have follows := Attempt.follows exact here h
  exact follows.then follows.forwards.abandon ((AtLoads.refl _).skip (by simp))

theorem Follows.wentBack {trace : List (s.Attempt (Journal δ α) n)}
    (h : s.Follows layer others e trace e') (value : α) (x : Vector α n) :
    s.Follows layer others e trace (s.wentBack value x e') :=
  h.then ((h.forwards.setX x).setAll exact value) (.refl _)

/-- All loads from the last accepted solution on are in the attempts that follow. -/
theorem Course.follows {attempts : Nat} {step : α} {x : Vector α n}
    {report : ContinuationReport α} {trace : List (s.Attempt (Journal δ α) n)}
    {result : EStateM.Result Stop (Engine (Journal δ α) α n) (ContinuationReport α)}
    (course : s.Course attempts step x report e trace result)
    (h : e.rig.Forwards layer s.names others) :
    s.Follows layer others e trace (Step.left result) := by
  induction course with
  | usedUp => exact ⟨h, .refl _⟩
  | stopped here solved =>
    have follows := Attempt.follows exact here h
    rwa [Attempt.left_of_error solved] at follows
  | arrived here solved =>
    have follows := Attempt.follows_succeeded exact here h
    rwa [Attempt.left_of_ok solved] at follows
  | onward here solved converged short course ih =>
    have follows := Attempt.follows_succeeded exact here h
    rw [Attempt.left_of_ok solved] at follows
    exact follows.cons (ih follows.forwards)
  | givenUp here solved =>
    have follows := Attempt.follows_failed exact here h
    rw [Attempt.left_of_ok solved] at follows
    exact follows.wentBack exact _ _
  | back here solved unconverged large course ih =>
    have follows := Attempt.follows_failed exact here h
    rw [Attempt.left_of_ok solved] at follows
    exact (follows.wentBack exact _ _).cons (ih (follows.wentBack exact _ _).forwards)

/-- All loads of a run are in its attempts. -/
theorem run_follows (s : Stepper α)
    (h : (forwarding e).rig.Forwards layer s.names others) :
    s.Follows layer others (forwarding e) (s.attempts e) (Step.left (s.run e)) := by
  have opening := s.opening e
  generalize s.attempts e = trace, s.run e = result at opening ⊢
  cases opening with
  | stopped here solved =>
    have follows := Attempt.follows exact here h
    rwa [Attempt.left_of_error solved] at follows
  | unsolved here solved =>
    have follows := Attempt.follows_failed exact here h
    rwa [Attempt.left_of_ok solved] at follows
  | arrived here solved =>
    have follows := Attempt.follows_succeeded exact here h
    rwa [Attempt.left_of_ok solved] at follows
  | onward here solved converged short course =>
    have follows := Attempt.follows_succeeded exact here h
    rw [Attempt.left_of_ok solved] at follows
    exact follows.cons (course.follows exact follows.forwards)

end Stepper

/-! ## The schedule -/

namespace ContinuationContext

variable {ctx : ContinuationContext α}

omit [Scalar α] [DirectSolver α] in
/-- The ways of some sweeps. -/
theorem path_mem_ways {list : List (Sweep α)} {paths : List (ParameterPath α)}
    (ways : list.mapM ctx.path = .ok paths) {sweep : Sweep α} (mem : sweep ∈ list) :
    ∃ v, ctx.endOf sweep = .ok v ∧ ⟨sweep.name, sweep.start, v⟩ ∈ paths := by
  induction list generalizing paths with
  | nil => cases mem
  | cons first rest ih =>
    rw [List.mapM_cons] at ways
    obtain ⟨path, way, ways⟩ := bind_eq_ok.1 ways
    obtain ⟨paths', ways', same⟩ := bind_eq_ok.1 ways
    obtain ⟨v, ending, way⟩ := bind_eq_ok.1 way
    cases same
    cases way
    rcases List.mem_cons.1 mem with rfl | later
    · exact ⟨v, ending, .head _⟩
    · obtain ⟨v', ending', there⟩ := ih ways' later
      exact ⟨v', ending', .tail _ there⟩

/-- Sweeps whose parameters are at their ends. -/
def Past (ctx : ContinuationContext α) (list : List (Sweep α)) (value : String → Option α) : Prop :=
  ∀ sweep ∈ list, ∃ v, ctx.endOf sweep = .ok v ∧ value sweep.name = some v

/-- Sweeps whose parameters are at their starts. -/
def Future (list : List (Sweep α)) (value : String → Option α) : Prop :=
  ∀ sweep ∈ list, value sweep.name = some sweep.start

/-- A phase at a lead value: what is coupled to the lead is as far on its way as the lead is. -/
def Present (ctx : ContinuationContext α) (lead : Sweep α) (rest : List (Sweep α)) (leadValue : α)
    (value : String → Option α) : Prop :=
  value lead.name = some leadValue ∧ ∃ stop, ctx.endOf lead = .ok stop ∧
    ∀ sweep ∈ rest, ∃ v, ctx.endOf sweep = .ok v ∧
      value sweep.name = some (ParameterPath.at ⟨sweep.name, sweep.start, v⟩
        (Stepper.fraction ⟨lead, stop, []⟩ leadValue))

/-- The schedule of phases while one of them, counted from zero, is at a lead value. -/
structure Scheduled (ctx : ContinuationContext α) (list : List (List (Sweep α))) (phase : Nat)
    (leadValue : α) (value : String → Option α) : Prop where
  past : ctx.Past (list.take phase).flatten value
  present : ∃ lead rest, list[phase]? = some (lead :: rest) ∧ ctx.Present lead rest leadValue value
  future : Future (list.drop (phase + 1)).flatten value

end ContinuationContext

namespace Drive

variable {d d' : Drive (Journal δ α) α n} {ctx : ContinuationContext α}
  {done phases : List (List (Sweep α))} {e e' : Engine (Journal δ α) α n}

/-- An engine between two phases. -/
structure Between (ctx : ContinuationContext α) (layer : Journal δ α)
    (done phases : List (List (Sweep α))) (e : Engine (Journal δ α) α n) : Prop where
  laid : e.rig.Lays layer none none true
  past : ctx.Past done.flatten e.rig.track.overlay.parameters.get?
  future : ContinuationContext.Future phases.flatten e.rig.track.overlay.parameters.get?

/-- A load in an attempt of a stage, with the values of its schedule. -/
def OnSchedule (ctx : ContinuationContext α) (list : List (List (Sweep α)))
    (stages : List (Stage (Journal δ α) α)) (older : List (Device.Request α)) : Prop :=
  ∃ stage ∈ stages, ∃ a ∈ stage.attempts, a.During older ∧
    ctx.Scheduled list stage.phase a.value (held older)

variable {lead : Sweep α} {rest : List (Sweep α)} {stop : α} {coupled : List (ParameterPath α)}

omit [Scalar α] [DirectSolver α] in
/-- The names of a phase are different, and they are other ones than those of other phases. -/
theorem names_apart {phase : List (Sweep α)}
    (distinct : ((done ++ phase :: phases).flatten.map Sweep.name).Nodup) :
    (phase.map Sweep.name).Nodup ∧
      (∀ sweep ∈ done.flatten, sweep.name ∉ phase.map Sweep.name) ∧
      ∀ sweep ∈ phases.flatten, sweep.name ∉ phase.map Sweep.name := by
  rw [List.flatten_append, List.flatten_cons, List.map_append, List.map_append,
    List.nodup_append, List.nodup_append] at distinct
  obtain ⟨-, ⟨own, -, later⟩, earlier⟩ := distinct
  refine ⟨own, fun sweep mem there ↦ ?_, fun sweep mem there ↦ ?_⟩
  · exact earlier _ (List.mem_map_of_mem mem) _ (List.mem_append_left _ there) rfl
  · exact later _ there _ (List.mem_map_of_mem mem) rfl

omit [Scalar α] [DirectSolver α] [Device δ α] in
theorem names_of_phase (ways : rest.mapM ctx.path = .ok coupled) :
    Stepper.names ⟨lead, stop, coupled⟩ = (lead :: rest).map Sweep.name := by
  rw [List.map_cons, ← names_of_ways ways]
  rfl

/-- A load in an attempt of a phase is on schedule. -/
theorem scheduled_of_meets (exact : Scalar.Exact α) (ending : ctx.endOf lead = .ok stop)
    (ways : rest.mapM ctx.path = .ok coupled)
    (distinct : ((done ++ (lead :: rest) :: phases).flatten.map Sweep.name).Nodup)
    (past : ctx.Past done.flatten others)
    (future : ContinuationContext.Future phases.flatten others)
    {trace : List ((⟨lead, stop, coupled⟩ : Stepper α).Attempt (Journal δ α) n)}
    {older : List (Device.Request α)}
    (meets : Stepper.Meets layer others ⟨lead, stop, coupled⟩ trace older) :
    ∃ a ∈ trace, a.During older ∧
      ctx.Scheduled (done ++ (lead :: rest) :: phases) done.length a.value (held older) := by
  let s : Stepper α := ⟨lead, stop, coupled⟩
  have names : s.names = (lead :: rest).map Sweep.name := names_of_phase ways
  obtain ⟨own, earlier, later⟩ := names_apart distinct
  rw [← names] at own earlier later
  obtain ⟨a, mem, during, forwards, meets⟩ := meets
  -- Other parameters are as they were before the attempt.
  have foreign : ∀ {name : String} {v : α}, name ∉ s.names → others name = some v →
      held older name = some v := by
    intro name v foreign known
    refine meets name v ?_
    rw [← known, ← forwards.others name foreign]
    exact Stepper.get?_setAll exact _ _ foreign
  obtain ⟨first, along⟩ := Stepper.get?_setAll_own exact own a.value a.before.rig.track
  refine ⟨a, mem, during, ?_, ⟨lead, rest, ?_, ?_, stop, ending, fun sweep there ↦ ?_⟩, ?_⟩
  · rw [List.take_left]
    intro sweep there
    obtain ⟨v, ending', known⟩ := past sweep there
    exact ⟨v, ending', foreign (earlier sweep there) known⟩
  · rw [List.getElem?_append_right (Nat.le_refl _), Nat.sub_self]
    rfl
  · exact meets _ _ first
  · obtain ⟨v, ending', way⟩ := ContinuationContext.path_mem_ways ways there
    exact ⟨v, ending', meets _ _ (along _ way)⟩
  · rw [List.drop_append, List.drop_of_length_le (Nat.le_succ _), Nat.add_sub_cancel_left]
    intro sweep there
    exact foreign (later sweep there) (future sweep there)

omit [Scalar α] [DirectSolver α] [Device δ α] in
/-- Where the names are different, the last sweep of a name is the only one. -/
theorem past_of_atEnds {list : List (Sweep α)} (distinct : (list.map Sweep.name).Nodup)
    {value : String → Option α} (ends : ctx.AtEnds list value) : ctx.Past list value := by
  intro sweep mem
  obtain ⟨before, after, split⟩ := List.append_of_mem mem
  refine ends before sweep after split fun again ↦ ?_
  rw [split, List.map_append, List.map_cons, List.nodup_append, List.nodup_cons] at distinct
  exact distinct.2.1.1 again

/-- A phase that is run between others: if it comes to its end, so do its parameters. -/
theorem phase_between (exact : Scalar.Exact α) (ending : ctx.endOf lead = .ok stop)
    (ways : rest.mapM ctx.path = .ok coupled)
    (distinct : ((done ++ (lead :: rest) :: phases).flatten.map Sweep.name).Nodup)
    (numeric : ∀ sweep ∈ lead :: rest, ctx.Numeric sweep)
    (h : Between ctx layer done ((lead :: rest) :: phases) e) :
    Ends (Stepper.run ⟨lead, stop, coupled⟩) e
      (fun report e' ↦
        (report.finished = true → Between ctx layer (done ++ [lead :: rest]) phases e') ∧
        AtLoads e.rig.requests e'.rig.requests
          (OnSchedule ctx (done ++ (lead :: rest) :: phases)
            [⟨done.length, ⟨lead, stop, coupled⟩, n, e⟩]))
      (fun _ e' ↦ AtLoads e.rig.requests e'.rig.requests
        (OnSchedule ctx (done ++ (lead :: rest) :: phases)
          [⟨done.length, ⟨lead, stop, coupled⟩, n, e⟩])) := by
  let s : Stepper α := ⟨lead, stop, coupled⟩
  let others := e.rig.track.overlay.parameters.get?
  have names : s.names = (lead :: rest).map Sweep.name := names_of_phase ways
  obtain ⟨own, earlier, later⟩ := names_apart distinct
  have future : ContinuationContext.Future phases.flatten others :=
    fun sweep mem ↦ h.future sweep (List.mem_append_right _ mem)
  have started : (Stepper.forwarding e).rig.Forwards layer s.names others := by
    refine ⟨h.laid.setForwarding true, fun name _ ↦ ?_⟩
    show (e.rig.track.setForwarding true).overlay.parameters.get? name = others name
    rw [Track.setForwarding_overlay]
  have follows := Stepper.run_follows exact s started
  have loads : AtLoads e.rig.requests (Step.left (s.run e)).rig.requests
      (OnSchedule ctx (done ++ (lead :: rest) :: phases) [⟨done.length, s, n, e⟩]) := by
    refine follows.loads.mono fun older _ meets ↦ ?_
    obtain ⟨a, mem, during, scheduled⟩ :=
      scheduled_of_meets exact ending ways distinct h.past future meets
    exact ⟨_, .head _, a, mem, during, scheduled⟩
  refine ((Ends.of_left (P := fun e' : Engine (Journal δ α) α n ↦
    e'.rig.Forwards layer s.names others ∧ AtLoads e.rig.requests e'.rig.requests
      (OnSchedule ctx (done ++ (lead :: rest) :: phases) [⟨done.length, s, n, e⟩]))
    ⟨follows.forwards, loads⟩).and (Stepper.run_keeps Rig.keepsSteps_lays
      (h.laid.setForwarding true))).mono ?_ fun _ _ stopped ↦ stopped.1.2
  rintro report e' ⟨⟨forwards, loads⟩, reported⟩
  refine ⟨fun finished ↦ ⟨forwards.laid, ?_, fun sweep mem ↦ ?_⟩, loads⟩
  · obtain ⟨outcome, value, -, -, there, stands⟩ := reported.finished finished
    obtain ⟨t, parameters⟩ := stands.parameters
    rw [List.flatten_append, List.flatten_cons, List.flatten_nil, List.append_nil]
    intro sweep mem
    rcases List.mem_append.1 mem with before | here
    · rw [forwards.others _ (names ▸ earlier sweep before)]
      exact h.past sweep before
    · rw [parameters, exact.eq_of_beq there]
      exact past_of_atEnds own (ctx.atEnds_setAll exact ending ways numeric t) sweep here
  · rw [forwards.others _ (names ▸ later sweep mem)]
    exact future sweep mem

theorem OnSchedule.mono {list : List (List (Sweep α))}
    {stages more : List (Stage (Journal δ α) α)} {older : List (Device.Request α)}
    (h : OnSchedule ctx list stages older) (among : stages ⊆ more) :
    OnSchedule ctx list more older := by
  obtain ⟨stage, mem, scheduled⟩ := h
  exact ⟨stage, among mem, scheduled⟩

/-- The loads of phases that are run between others. -/
theorem runPhases_onSchedule (exact : Scalar.Exact α) (code : Int)
    (h : Between ctx layer done phases d.engine)
    (distinct : ((done ++ phases).flatten.map Sweep.name).Nodup)
    (numeric : ∀ sweep ∈ phases.flatten, ctx.Numeric sweep) :
    Ends (runPhases ctx code phases) d
      (fun _ d' ↦ AtLoads d.engine.rig.requests d'.engine.rig.requests
        (OnSchedule ctx (done ++ phases) (phaseStages ctx done.length phases d.engine)))
      (fun _ d' ↦ AtLoads d.engine.rig.requests d'.engine.rig.requests
        (OnSchedule ctx (done ++ phases) (phaseStages ctx done.length phases d.engine))) := by
  induction phases generalizing d done code with
  | nil => exact .refl _
  | cons phase phases ih =>
    -- The phase is among those that are done when the ones after it are run.
    have moved : (done ++ [phase]) ++ phases = done ++ phase :: phases :=
      (List.append_cons ..).symm
    have length : (done ++ [phase]).length = done.length + 1 := by
      rw [List.length_append, List.length_singleton]
    rw [List.flatten_cons, List.forall_mem_append] at numeric
    cases phase with
    | nil =>
      have between : Between ctx layer (done ++ [[]]) phases d.engine := by
        refine ⟨h.laid, ?_, h.future⟩
        rw [List.flatten_append]
        exact fun sweep mem ↦ h.past sweep ((List.append_nil _).subst mem)
      have rest := ih code between (moved.symm ▸ distinct) numeric.2
      rw [moved, length] at rest
      exact rest
    | cons lead rest =>
      unfold runPhases
      simp only [ends_bind, ends_onEngine, ends_conclude, ends_ite, ends_pure]
      refine ends_orFault.2 ⟨fun coupled ways ↦ ends_orFault.2 ⟨fun stop ending ↦ ?_,
        fun _ _ ↦ .refl _⟩, fun _ _ ↦ .refl _⟩
      let stage : Stage (Journal δ α) α := ⟨done.length, ⟨lead, stop, coupled⟩, n, d.engine⟩
      have own : [stage] ⊆ phaseStages ctx done.length ((lead :: rest) :: phases) d.engine :=
        List.cons_subset.2 ⟨phaseStages_head _ _ _ ways ending, List.nil_subset _⟩
      have phase := phase_between exact ending ways distinct numeric.1 h
      refine .of_result (R := fun result ↦ stage.stepper.run d.engine = result) rfl
        (fun report e run ↦ ?_) fun _ _ run ↦ (phase.error run).mono fun _ _ met ↦ met.mono own
      obtain ⟨between, loads⟩ := phase.ok run
      have loads := loads.mono fun _ _ met ↦ met.mono own
      refine ⟨fun _ ↦ loads, fun other ↦ ?_⟩
      have finished := ContinuationReport.finished_of_ne other
      have later : phaseStages ctx (done.length + 1) phases e ⊆
          phaseStages ctx done.length ((lead :: rest) :: phases) d.engine := by
        rw [phaseStages_of_ok ways ending run, finished, if_pos rfl]
        exact List.subset_cons_self _ _
      have next := ih (d := { d with engine := e, last := report.last }) report.conclusion
        (between finished) (moved.symm ▸ distinct) numeric.2
      rw [moved, length] at next
      exact next.mono (fun _ _ after ↦ loads.trans (after.mono fun _ _ met ↦ met.mono later))
        fun _ _ after ↦ loads.trans (after.mono fun _ _ met ↦ met.mono later)

/-- Handing parameters back loads nothing. -/
theorem restoreEnds_atLoads {before : List (Device.Request α)}
    {Φ : List (Device.Request α) → Prop} (list : List (Sweep α)) :
    Preserves (restoreEnds ctx list)
      fun d : Drive (Journal δ α) α n ↦ AtLoads before d.engine.rig.requests Φ := by
  induction list with
  | nil => exact .pure ()
  | cons sweep list ih =>
    refine .bind (.orFault _) fun stop ↦ .bind (fun d h ↦ ?_) fun _ ↦ ih
    unfold Rig.pushParameter
    simp only [ends_onEngine, Engine.ends_onRig, ends_bind, Rig.ends_modifyTrack]
    exact Rig.giveToDevice_atLoads sweep.name stop _ h

/-- **The schedule of phases.**  In exact arithmetic, for phases whose parameters have different
names: whenever a residual is loaded in the course of a continuation, this is in an attempt of one
of its phases, and the device layer holds the ends of the parameters of the phases before, the
starts of those of the phases after, and for those of the phase itself the lead value that is
attempted and what goes with it. -/
theorem phases_onSchedule (exact : Scalar.Exact α)
    (laid : d.engine.rig.Lays layer none none false) (list : List (List (Sweep α)))
    (distinct : (list.flatten.map Sweep.name).Nodup)
    (numeric : ∀ sweep ∈ list.flatten, ctx.Numeric sweep) :
    Ends (Drive.phases ctx list) d
      (fun _ d' ↦ AtLoads d.engine.rig.requests d'.engine.rig.requests
        (OnSchedule ctx list (phaseStages ctx 0 list (atStarts list d.engine))))
      (fun _ d' ↦ AtLoads d.engine.rig.requests d'.engine.rig.requests
        (OnSchedule ctx list (phaseStages ctx 0 list (atStarts list d.engine)))) := by
  have between : Between ctx layer [] list (atStarts list d.engine) := by
    refine ⟨(laid.setStarts list.flatten).setForwarding true, nofun, fun sweep mem ↦ ?_⟩
    show (Track.setForwarding _ true).overlay.parameters.get? sweep.name = _
    rw [Track.setForwarding_overlay]
    exact Track.get?_setParameters exact _ distinct mem
  have run := runPhases_onSchedule (d := { d with engine := atStarts list d.engine }) exact
    CodeTable.continuationFailed between distinct numeric
  unfold Drive.phases
  simp only [ends_bind, ends_modifyTrack, ends_attempt]
  refine Ends.mono run ?_ ?_
  · intro code d' loads
    simp only [ends_ite, ends_pure, ends_bind]
    exact ⟨fun _ ↦ loads, fun _ ↦ restoreEnds_atLoads list.flatten _ loads⟩
  · intro stop d' loads
    simp only [ends_throw]
    exact restoreEnds_atLoads list.flatten _ loads

/-- A current with a gain coupled to it that stays where it is, and a bias after them. -/
def currentThenBias : List (List (Sweep ExtendedRat)) :=
  [[.ramp "current",
      { (Sweep.ramp "gain" : Sweep ExtendedRat) with start := 3.0, stop := some 3.0 }],
    [.ramp "bias"]]

-- What is said of the run is not to be compared by carrying it out.
seal Ends in
/-- The phases come to their ends, a residual has been loaded on the way, and that was on
schedule. -/
theorem phases_onSchedule_currentThenBias :
    Ends (Drive.phases configured currentThenBias) (conducting [])
      (fun code d' ↦ code = 1 ∧ ∃ older x, (residual x :: older) <:+ d'.engine.rig.requests ∧
        OnSchedule configured currentThenBias (phaseStages configured 0 currentThenBias
          (atStarts currentThenBias (conducting []).engine)) older)
      (fun _ _ ↦ False) := by
  have numeric : ∀ sweep ∈ currentThenBias.flatten, configured.Numeric sweep := by
    rw [currentThenBias, List.flatten_cons, List.flatten_cons, List.flatten_nil, List.append_nil,
      List.cons_append, List.cons_append, List.nil_append, List.forall_mem_cons,
      List.forall_mem_cons, List.forall_mem_cons]
    exact ⟨.of_stop (v := 1) rfl rfl rfl, .of_stop (v := 3.0) rfl rfl rfl,
      .of_stop (v := 1) rfl rfl rfl, List.forall_mem_nil _⟩
  have ran : Ends (Drive.phases configured currentThenBias) (conducting [])
      (fun code d' ↦ code = 1 ∧ (d'.engine.rig.requests.any fun request ↦
        match request with
        | .residual _ => true
        | _ => false) = true) (fun _ _ ↦ False) := by
    decide +kernel
  have loads := phases_onSchedule (d := conducting []) ExtendedRat.exact (atZero_lays _ _ _ _)
    currentThenBias (by decide) numeric
  refine (ran.and loads).mono ?_ fun _ _ stopped ↦ stopped.1
  rintro code d' ⟨⟨success, some⟩, -, loads⟩
  obtain ⟨request, mem, load⟩ := List.any_eq_true.1 some
  obtain ⟨newer, older, split⟩ := List.append_of_mem mem
  cases request with
  | residual x =>
    have upTo : (residual x :: older) <:+ d'.engine.rig.requests := ⟨newer, split.symm⟩
    exact ⟨success, older, x, upTo, loads older x (List.nil_suffix) upTo⟩
  | _ => cases load

end Drive

end OperatingPoint
