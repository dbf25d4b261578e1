import OperatingPoint.Linear.FullPivot
import OperatingPoint.Proofs.SettledRun

/-!
# Ends that are read from the device layer

A sweep whose end is left open goes to the value that the device layer held when the context was
built.  The context reads that value for the sweeps that are written in the options, and for no
others; what it knows is `ContinuationContext.lookup_endValues`.

The sweeps that a strategy steps are among those, with one exception.  Block gain stepping makes a
sweep for each block out of that of the gain.  If the gain has no end of its own, neither have the
blocks, and the names of the blocks are not among those that were read.
-/

set_option autoImplicit false

namespace OperatingPoint

open Step

namespace ContinuationContext

variable {δ α : Type} [Device δ α] {device : δ} {modes : List (ModeOptions α)}
  {conditions : InitialConditions α} {ctx : ContinuationContext α}

/-- The names whose values are read from the device layer. -/
def openNames (modes : List (ModeOptions α)) : List String :=
  ((modes.flatMap sweeps).filter fun sweep ↦ sweep.stop.isNone).map Sweep.name

/-- What is read under some names is found under these names, and nothing else is. -/
theorem lookup_read (read : String → Option α) (list : List (Sweep α)) (name : String) :
    (list.filterMap fun sweep ↦ (read sweep.name).map fun value ↦ (sweep.name, value)).reverse.lookup
        name =
      if name ∈ list.map Sweep.name then read name else none := by
  induction list with
  | nil => rfl
  | cons sweep rest ih =>
    -- An earlier value of the name is looked at after the later ones.
    have earlier : ∀ {value : α}, ([(sweep.name, value)] : List (String × α)).lookup name =
        if name = sweep.name then some value else none := by
      intro value
      by_cases same : name = sweep.name
      · rw [if_pos same, same, List.lookup_cons_self]
      · rw [if_neg same, List.lookup_cons, beq_eq_false_iff_ne.2 same, List.lookup_nil]
    simp only [List.filterMap_cons, List.map_cons, List.mem_cons]
    cases there : read sweep.name with
    | none =>
      rw [Option.map_none]
      dsimp only
      rw [ih]
      by_cases same : name = sweep.name
      · subst same
        simp [there]
      · simp [same]
    | some value =>
      rw [Option.map_some]
      dsimp only
      rw [List.reverse_cons, List.lookup_append, ih, earlier]
      by_cases same : name = sweep.name
      · subst same
        rw [there]
        split <;> simp
      · simp [same]

/-- What a context knows of the end values. -/
theorem lookup_endValues (built : build device modes conditions = .ok ctx) (name : String) :
    ctx.endValues.lookup name =
      if name ∈ openNames modes then Device.parameter? device name else none := by
  obtain ⟨_, _, built⟩ := bind_eq_ok.1 built
  obtain ⟨_, _, same⟩ := bind_eq_ok.1 built
  cases same
  exact lookup_read (Device.parameter? device) _ name

/-- The end of a sweep that is left open. -/
theorem endOf_of_open (built : build device modes conditions = .ok ctx) {sweep : Sweep α}
    (openEnd : sweep.stop = none) :
    ctx.endOf sweep =
      match if sweep.name ∈ openNames modes then Device.parameter? device sweep.name else none with
      | some value => .ok value
      | none => .error (.config (.noEnd sweep.name)) := by
  have read := lookup_endValues built sweep.name
  unfold endOf
  simp only [openEnd]
  cases there : ctx.endValues.lookup sweep.name with
  | none => rw [← read, there]
  | some value => rw [← read, there]

omit [Device δ α] in
theorem mem_openNames {o : ModeOptions α} (mem : o ∈ modes) {sweep : Sweep α}
    (written : sweep ∈ sweeps o) (openEnd : sweep.stop = none) : sweep.name ∈ openNames modes := by
  refine List.mem_map_of_mem (List.mem_filter.2 ⟨List.mem_flatMap.2 ⟨o, mem, written⟩, ?_⟩)
  rw [openEnd]
  rfl

end ContinuationContext

namespace Drive

/-- A sweep with an open end that is stepped is one of those that are read, or that of a block. -/
theorem mem_stepped {α : Type} [Scalar α] {o : ModeOptions α} {solveType : SolveType}
    {sweep : Sweep α} (mem : sweep ∈ stepped o.continuation solveType)
    (openEnd : sweep.stop = none) :
    sweep ∈ ContinuationContext.sweeps o ∨
      solveType = .blockGainscale ∧ ∃ block ∈ o.continuation.device.blockGainNames,
        sweep = { o.continuation.device.gain with name := block } := by
  cases steps_of_mem mem with
  | device there =>
    refine .inl ?_
    simp only [written, List.mem_append] at there
    simp only [ContinuationContext.sweeps, List.mem_append]
    refine there.imp id fun scale ↦ ?_
    exact List.mem_append_left [o.continuation.homotopy] scale
  | @block name there => exact .inr ⟨rfl, name, there, rfl⟩
  | progress => cases openEnd
  | blend => exact .inl (by simp [ContinuationContext.sweeps])

end Drive

/-! ## Stops for the lack of an end -/

section

variable {δ α : Type} [Scalar α] [DirectSolver α] [Device δ α] {layer : δ} {n : Nat}

namespace Drive

variable {d : Drive δ α n} {ctx : ContinuationContext α}

/-- A strategy that finds the ends of what it steps does not stop for the lack of one. -/
theorem run_not_lacksEnd (laid : d.engine.rig.Lays layer none none false) (options : ModeOptions α)
    {solveType : SolveType} (_ : stepped options.continuation solveType ≠ [])
    (found : ∀ sweep ∈ stepped options.continuation solveType, ∃ v, ctx.endOf sweep = .ok v) :
    Ends (run options ctx solveType) d (fun _ _ ↦ True) (fun stop _ ↦ ¬ stop.LacksEnd) := by
  have settles : Rig.Settles layer (fun _ ↦ True)
      (Rig.Laid (n := n) layer (fun _ ↦ True) none none false) := Rig.settles_laid
  refine (run_settles settles ⟨laid, fun _ _ ↦ trivial⟩ options ctx solveType
    fun _ _ ↦ .inl trivial).mono (fun _ _ _ ↦ trivial) ?_
  rintro stop d' ⟨reason, -⟩
  cases reason with
  | routine routine => exact routine.not_lacksEnd
  | noEnd mem missing =>
    obtain ⟨v, ending⟩ := found _ mem
    cases ending.symm.trans missing

/-- The sweep of a block has been left out when the open ends were read. -/
def Overlooks (modes : List (ModeOptions α)) (o : ModeOptions α) (solveType : SolveType)
    (sweep : Sweep α) : Prop :=
  solveType = .blockGainscale ∧
    (∃ block ∈ o.continuation.device.blockGainNames,
      sweep = { o.continuation.device.gain with name := block }) ∧
    sweep.name ∉ ContinuationContext.openNames modes

/-- **Open ends.**  A sweep that a strategy of some mode steps, and whose end is left open, ends at
the value that the device layer had when the context was built, unless it is that of a block which
has been overlooked, and then it has no end.  A strategy does not stop for the lack of an end, if
every open end that it steps is known to the device layer and none is overlooked. -/
theorem endOf_stepped {device : δ} {modes : List (ModeOptions α)}
    {conditions : InitialConditions α}
    (built : ContinuationContext.build device modes conditions = .ok ctx) {o : ModeOptions α}
    (mem : o ∈ modes) (solveType : SolveType) :
    (∀ sweep ∈ stepped o.continuation solveType, sweep.stop = none →
      ∀ v, Device.parameter? device sweep.name = some v →
        (Overlooks modes o solveType sweep →
          ctx.endOf sweep = .error (.config (.noEnd sweep.name))) ∧
        (¬ Overlooks modes o solveType sweep → ctx.endOf sweep = .ok v)) ∧
    ((∀ sweep ∈ stepped o.continuation solveType, sweep.stop = none →
        (Device.parameter? device sweep.name).isSome = true ∧
          ¬ Overlooks modes o solveType sweep) →
      stepped o.continuation solveType ≠ [] →
      ∀ (n : Nat) (layer : δ) (d : Drive δ α n), d.engine.rig.Lays layer none none false →
        Ends (run o ctx solveType) d (fun _ _ ↦ True) (fun stop _ ↦ ¬ stop.LacksEnd)) := by
  have resolved : ∀ sweep ∈ stepped o.continuation solveType, sweep.stop = none →
      ∀ v, Device.parameter? device sweep.name = some v →
        ¬ Overlooks modes o solveType sweep → ctx.endOf sweep = .ok v := by
    intro sweep steps openEnd v known seen
    have read : sweep.name ∈ ContinuationContext.openNames modes := by
      rcases mem_stepped steps openEnd with written | ⟨kind, block⟩
      · exact ContinuationContext.mem_openNames mem written openEnd
      · exact Classical.not_not.1 fun unread ↦ seen ⟨kind, block, unread⟩
    rw [ContinuationContext.endOf_of_open built openEnd, if_pos read, known]
  refine ⟨fun sweep steps openEnd v known ↦ ⟨fun overlooked ↦ ?_,
    resolved sweep steps openEnd v known⟩, fun seen steps n layer d laid ↦ ?_⟩
  · rw [ContinuationContext.endOf_of_open built openEnd, if_neg overlooked.2.2]
  · refine run_not_lacksEnd laid o steps fun sweep there ↦ ?_
    cases ending : sweep.stop with
    | some v =>
      refine ⟨v, ?_⟩
      rw [ContinuationContext.endOf, ending]
    | none =>
      obtain ⟨known, unseen⟩ := seen sweep there ending
      obtain ⟨v, value⟩ := Option.isSome_iff_exists.1 known
      exact ⟨v, resolved sweep there ending v value unseen⟩

end Drive

end

namespace Drive

/-- A circuit with a scale for all gains, one for the gain of a block and one for the nonlinear
terms. -/
def scaledCircuit : Circuit :=
  { Circuit.bare with
    parameters := [("mosfet:gainscale", 1.0), ("block", 1.0), ("mosfet:nltermscale", 1.0)] }

/-- Options that leave the ends of these scales to the device layer. -/
def openOptions : ModeOptions Float :=
  let standard : ModeOptions Float := .standard
  { standard with continuation := { standard.continuation with device := {
      gain := { (Sweep.ramp "mosfet:gainscale" : Sweep Float) with stop := none }
      nonlinear := { (Sweep.ramp "mosfet:nltermscale" : Sweep Float) with stop := none }
      size := .ramp "mosfet:sizescale"
      blockGainNames := ["block"] } } }

/-- A drive at which nothing has been computed. -/
def atZero {δ α : Type} [Scalar α] [DirectSolver α] (device : δ) (c : Communicator α)
    (o : ModeOptions α) (n : Nat) : Drive δ α n :=
  ⟨⟨⟨.new device c o.linear n, { iterate := { id := 1, x := zeros α n } }⟩,
    ⟨.new c o.nonlinear {} false, 0, .unconverged, false⟩⟩, none, none⟩

theorem atZero_lays {δ α : Type} [Scalar α] [DirectSolver α] [Device δ α] (device : δ)
    (c : Communicator α) (o : ModeOptions α) (n : Nat) :
    (atZero device c o n).engine.rig.Lays device none none false :=
  ⟨⟨rfl, .of_fresh rfl⟩, .refl, List.nodup_nil, rfl, rfl, rfl⟩

/-- The gain of the block has no end though the device layer knows it, the nonlinear terms have one,
and so have the gains taken together. -/
theorem endOf_stepped_blocks :
    ∃ ctx : ContinuationContext Float,
      ContinuationContext.build scaledCircuit [openOptions] {} = .ok ctx ∧
      ctx.endOf { openOptions.continuation.device.gain with name := "block" } =
        .error (.config (.noEnd "block")) ∧
      ctx.endOf openOptions.continuation.device.nonlinear = .ok 1.0 ∧
      Ends (run openOptions ctx .deviceSimultaneous)
        (atZero scaledCircuit .serial openOptions 1) (fun _ _ ↦ True)
        fun stop _ ↦ ¬ stop.LacksEnd := by
  obtain ⟨ctx, built⟩ : ∃ ctx : ContinuationContext Float,
      ContinuationContext.build scaledCircuit [openOptions] {} = .ok ctx := ⟨_, rfl⟩
  have mem : openOptions ∈ [openOptions] := List.mem_singleton_self _
  refine ⟨ctx, built, ?_, ?_, ?_⟩
  · refine ((endOf_stepped built mem .blockGainscale).1
      { openOptions.continuation.device.gain with name := "block" } (.head _) rfl 1.0 rfl).1 ?_
    exact ⟨rfl, ⟨"block", .head _, rfl⟩, by decide⟩
  · refine ((endOf_stepped built mem .blockGainscale).1
      openOptions.continuation.device.nonlinear (.tail _ (.head _)) rfl 1.0 rfl).2 ?_
    rintro ⟨-, -, unread⟩
    exact unread (by decide)
  · have steps : stepped openOptions.continuation .deviceSimultaneous =
        [openOptions.continuation.device.gain, openOptions.continuation.device.nonlinear] := rfl
    refine (endOf_stepped built mem .deviceSimultaneous).2 ?_ (by rw [steps]; exact nofun) 1
      scaledCircuit _ (atZero_lays _ _ _ _)
    intro sweep there _
    refine ⟨?_, fun overlooked ↦ SolveType.noConfusion overlooked.1⟩
    rw [steps] at there
    rcases List.mem_cons.1 there with rfl | there
    · rfl
    · rw [List.mem_singleton.1 there]
      rfl

end Drive

end OperatingPoint
