import OperatingPoint.Options
import OperatingPoint.Options.Document

/-!
# Reading options

Each record of options is read from a document field by field.  A field that the document does not
name has the value it has in the `standard` record; nested records follow the same rule with the
record they stand in, except that a *given* nested record takes its own standard for what it leaves
out.  The names of the fields are part of the format.
-/

set_option autoImplicit false

namespace OperatingPoint

open Document

variable {α : Type} [Scalar α]

/-- The names of the modes. -/
def Mode.names : List (String × Mode) :=
  [("dc_operating_point", .dcOperatingPoint), ("dc_sweep", .dcSweep), ("transient", .transient)]

/-- The names of the strategies. -/
def SolveType.names : List (String × SolveType) :=
  [("newton", .newton),
    ("natural_parameter", .naturalParameter),
    ("multi_parameter", .multiParameter),
    ("vector_parameter", .vectorParameter),
    ("device_gain_then_nonlinear", .deviceGainThenNonlinear),
    ("device_nonlinear_then_gain", .deviceNonlinearThenGain),
    ("device_size_gain_nonlinear", .deviceSizeGainNonlinear),
    ("device_simultaneous", .deviceSimultaneous),
    ("block_gainscale", .blockGainscale),
    ("source_stepping", .sourceStepping),
    ("gmin_stepping", .gminStepping),
    ("pseudo_transient", .pseudoTransient),
    ("artificial_homotopy", .artificialHomotopy)]

/-- The names of the preconditioners. -/
def PreconditionerKind.names : List (String × PreconditionerKind) :=
  [("none", .none), ("jacobi", .jacobi), ("ilu0", .ilu0)]

/-- The names of the line searches. -/
def LineSearch.names : List (String × LineSearch) := [("full", .full), ("backtrack", .backtrack)]

def NewtonMethod.read (d : Document α) : Option NewtonMethod := do
  let (name, details) ← d.toChoice?
  match name, details with
  | "full", none | "full", some null => some .full
  | "chord", some (record fields) =>
    return .chord (← (← lookup "refresh_every" fields).toCount?)
  | _, _ => none

def LinearSolverKind.read (d : Document α) : Option (LinearSolverKind α) := do
  let (name, details) ← d.toChoice?
  match name, details with
  | "direct_lu", none | "direct_lu", some null => some .directLu
  | "gmres", some (record fields) =>
    return .gmres (← (← lookup "restart" fields).toCount?) (← (← lookup "tol" fields).toScalar?)
      (← (← lookup "max_iters" fields).toCount?)
  | _, _ => none

def NewtonOptions.read (d : Document α) : Option (NewtonOptions α) := do
  let field ← d.fields? 17
  let o : NewtonOptions α := NewtonOptions.standard
  return {
    maxSteps := ← fieldOr (field 0 "max_steps") toCount? o.maxSteps
    method := ← fieldOr (field 1 "method") NewtonMethod.read o.method
    lineSearch := ← fieldOr (field 2 "line_search") (toName? LineSearch.names) o.lineSearch
    maxLineSearchSteps := ← fieldOr (field 3 "max_line_search_steps") toCount? o.maxLineSearchSteps
    absTol := ← fieldOr (field 4 "abs_tol") toScalar? o.absTol
    relTol := ← fieldOr (field 5 "rel_tol") toScalar? o.relTol
    deltaXTol := ← fieldOr (field 6 "delta_x_tol") toScalar? o.deltaXTol
    rhsTol := ← fieldOr (field 7 "rhs_tol") toScalar? o.rhsTol
    machPrecTol := ← fieldOr (field 8 "mach_prec_tol") toScalar? o.machPrecTol
    smallUpdateTol := ← fieldOr (field 9 "small_update_tol") toScalar? o.smallUpdateTol
    maxNormFRatio := ← fieldOr (field 10 "max_norm_f_ratio") toScalar? o.maxNormFRatio
    maxConvergenceRate := ← fieldOr (field 11 "max_convergence_rate") toScalar? o.maxConvergenceRate
    maxRelativeConvergenceRate :=
      ← fieldOr (field 12 "max_relative_convergence_rate") toScalar? o.maxRelativeConvergenceRate
    stagnationTolerance :=
      ← fieldOr (field 13 "stagnation_tolerance") toScalar? o.stagnationTolerance
    stagnationSteps := ← fieldOr (field 14 "stagnation_steps") toCount? o.stagnationSteps
    checkDeviceConvergence :=
      ← fieldOr (field 15 "check_device_convergence") toBool? o.checkDeviceConvergence
    twoLevel := ← fieldOr (field 16 "two_level") toBool? o.twoLevel }

def LinearOptions.read (d : Document α) : Option (LinearOptions α) := do
  let field ← d.fields? 2
  let o : LinearOptions α := LinearOptions.standard
  return {
    kind := ← fieldOr (field 0 "kind") LinearSolverKind.read o.kind
    preconditioner :=
      ← fieldOr (field 1 "preconditioner") (toName? PreconditionerKind.names) o.preconditioner }

def Sweep.read (d : Document α) : Option (Sweep α) := do
  let field ← d.fields? 8
  let o : Sweep α := Sweep.standard
  return {
    name := ← fieldOr (field 0 "name") toText? o.name
    start := ← fieldOr (field 1 "start") toScalar? o.start
    stop := ← fieldOr (field 2 "end") (toOption? toScalar?) o.stop
    initialStep := ← fieldOr (field 3 "initial_step") toScalar? o.initialStep
    minStep := ← fieldOr (field 4 "min_step") toScalar? o.minStep
    maxStep := ← fieldOr (field 5 "max_step") toScalar? o.maxStep
    growthFactor := ← fieldOr (field 6 "growth_factor") toScalar? o.growthFactor
    maxSteps := ← fieldOr (field 7 "max_steps") toCount? o.maxSteps }

def DeviceSweeps.read (d : Document α) : Option (DeviceSweeps α) := do
  let field ← d.fields? 4
  let o : DeviceSweeps α := DeviceSweeps.standard
  return {
    gain := ← fieldOr (field 0 "gain") Sweep.read o.gain
    nonlinear := ← fieldOr (field 1 "nonlinear") Sweep.read o.nonlinear
    size := ← fieldOr (field 2 "size") Sweep.read o.size
    blockGainNames := ← fieldOr (field 3 "block_gain_names") (toList? toText?) o.blockGainNames }

def GminOptions.read (d : Document α) : Option (GminOptions α) := do
  let field ← d.fields? 7
  let o : GminOptions α := GminOptions.standard
  return {
    start := ← fieldOr (field 0 "start") toScalar? o.start
    stop := ← fieldOr (field 1 "end") toScalar? o.stop
    initialStep := ← fieldOr (field 2 "initial_step") toScalar? o.initialStep
    minStep := ← fieldOr (field 3 "min_step") toScalar? o.minStep
    maxStep := ← fieldOr (field 4 "max_step") toScalar? o.maxStep
    maxSteps := ← fieldOr (field 5 "max_steps") toCount? o.maxSteps
    residualConductance :=
      ← fieldOr (field 6 "residual_conductance") toScalar? o.residualConductance }

def MarchOptions.read (d : Document α) : Option (MarchOptions α) := do
  let field ← d.fields? 7
  let o : MarchOptions α := MarchOptions.standard
  return {
    initialStep := ← fieldOr (field 0 "initial_step") toScalar? o.initialStep
    minStep := ← fieldOr (field 1 "min_step") toScalar? o.minStep
    maxStep := ← fieldOr (field 2 "max_step") toScalar? o.maxStep
    maxSteps := ← fieldOr (field 3 "max_steps") toCount? o.maxSteps
    switchTol := ← fieldOr (field 4 "switch_tol") toScalar? o.switchTol
    voltageScale := ← fieldOr (field 5 "voltage_scale") toScalar? o.voltageScale
    otherScale := ← fieldOr (field 6 "other_scale") toScalar? o.otherScale }

def ContinuationOptions.read (d : Document α) : Option (ContinuationOptions α) := do
  let field ← d.fields? 8
  let o : ContinuationOptions α := ContinuationOptions.standard
  return {
    solveType := ← fieldOr (field 0 "solve_type") (toName? SolveType.names) o.solveType
    parameters := ← fieldOr (field 1 "parameters") (toList? Sweep.read) o.parameters
    device := ← fieldOr (field 2 "device") DeviceSweeps.read o.device
    source := ← fieldOr (field 3 "source") Sweep.read o.source
    gmin := ← fieldOr (field 4 "gmin") GminOptions.read o.gmin
    pseudoTransient := ← fieldOr (field 5 "pseudo_transient") MarchOptions.read o.pseudoTransient
    homotopy := ← fieldOr (field 6 "homotopy") Sweep.read o.homotopy
    useInitialConditions :=
      ← fieldOr (field 7 "use_initial_conditions") toBool? o.useInitialConditions }

def ModeOptions.read (d : Document α) : Option (ModeOptions α) := do
  let field ← d.fields? 3
  let o : ModeOptions α := ModeOptions.standard
  return {
    nonlinear := ← fieldOr (field 0 "nonlinear") NewtonOptions.read o.nonlinear
    linear := ← fieldOr (field 1 "linear") LinearOptions.read o.linear
    continuation := ← fieldOr (field 2 "continuation") ContinuationOptions.read o.continuation }

def CodeTable.read (d : Document α) : Option CodeTable := do
  let field ← d.fields? 10
  let o : CodeTable := {}
  return {
    normTooSmall := ← fieldOr (field 0 "norm_too_small") toCode? o.normTooSmall
    normalConvergence := ← fieldOr (field 1 "normal_convergence") toCode? o.normalConvergence
    nearConvergence := ← fieldOr (field 2 "near_convergence") toCode? o.nearConvergence
    smallUpdate := ← fieldOr (field 3 "small_update") toCode? o.smallUpdate
    tooManySteps := ← fieldOr (field 4 "too_many_steps") toCode? o.tooManySteps
    updateTooBig := ← fieldOr (field 5 "update_too_big") toCode? o.updateTooBig
    stalled := ← fieldOr (field 6 "stalled") toCode? o.stalled
    wrmsExactZero := ← fieldOr (field 7 "wrms_exact_zero") toCode? o.wrmsExactZero
    innerSolveFailed := ← fieldOr (field 8 "inner_solve_failed") toCode? o.innerSolveFailed
    nanFail := ← fieldOr (field 9 "nan_fail") toCode? o.nanFail }

def Window.read (d : Document α) : Option (Window α) := do
  let field ← d.fields? 2
  let o : Window α := Window.standard
  return {
    timeRange := ← fieldOr (field 0 "time_range") (toOption? (toPair? toScalar?)) o.timeRange
    stepRange := ← fieldOr (field 1 "step_range") (toOption? (toPair? toCount?)) o.stepRange }

def SolverOptions.read (d : Document α) : Option (SolverOptions α) := do
  let field ← d.fields? 5
  let o : SolverOptions α := SolverOptions.standard
  return {
    dcOp := ← fieldOr (field 0 "dc_op") ModeOptions.read o.dcOp
    dcSweep := ← fieldOr (field 1 "dc_sweep") ModeOptions.read o.dcSweep
    transient := ← fieldOr (field 2 "transient") ModeOptions.read o.transient
    codes := ← fieldOr (field 3 "codes") CodeTable.read o.codes
    window := ← fieldOr (field 4 "debug") Window.read o.window }

end OperatingPoint
