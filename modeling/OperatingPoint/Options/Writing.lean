import OperatingPoint.Options.Reading

/-!
# Writing options

Each record of options as a document that names every field.
-/

set_option autoImplicit false

namespace OperatingPoint

open Document

variable {α : Type}

/-- The name of a choice in a list of names. -/
def nameOf {β : Type} [BEq β] (names : List (String × β)) (b : β) : String :=
  ((names.find? (·.2 == b)).map Prod.fst).getD ""

def Mode.name (m : Mode) : String := nameOf Mode.names m

def SolveType.name (t : SolveType) : String := nameOf SolveType.names t

/-- A count as a document. -/
def Document.count (k : Nat) : Document α := whole k

/-- A value that may be missing as a document. -/
def Document.option {β : Type} (write : β → Document α) : Option β → Document α
  | none => null
  | some b => write b

def NewtonMethod.write : NewtonMethod → Document α
  | full => text "full"
  | chord k => record [("chord", record [("refresh_every", count k)])]

def LinearSolverKind.write : LinearSolverKind α → Document α
  | directLu => text "direct_lu"
  | gmres restart tol maxIters =>
    record [("gmres", record
      [("restart", count restart), ("tol", fraction tol), ("max_iters", count maxIters)])]

def NewtonOptions.write (o : NewtonOptions α) : Document α :=
  record [
    ("max_steps", count o.maxSteps),
    ("method", o.method.write),
    ("line_search", text (nameOf LineSearch.names o.lineSearch)),
    ("max_line_search_steps", count o.maxLineSearchSteps),
    ("abs_tol", fraction o.absTol),
    ("rel_tol", fraction o.relTol),
    ("delta_x_tol", fraction o.deltaXTol),
    ("rhs_tol", fraction o.rhsTol),
    ("mach_prec_tol", fraction o.machPrecTol),
    ("small_update_tol", fraction o.smallUpdateTol),
    ("max_norm_f_ratio", fraction o.maxNormFRatio),
    ("max_convergence_rate", fraction o.maxConvergenceRate),
    ("max_relative_convergence_rate", fraction o.maxRelativeConvergenceRate),
    ("stagnation_tolerance", fraction o.stagnationTolerance),
    ("stagnation_steps", count o.stagnationSteps),
    ("check_device_convergence", bool o.checkDeviceConvergence),
    ("two_level", bool o.twoLevel)]

def LinearOptions.write (o : LinearOptions α) : Document α :=
  record [
    ("kind", o.kind.write),
    ("preconditioner", text (nameOf PreconditionerKind.names o.preconditioner))]

def Sweep.write (o : Sweep α) : Document α :=
  record [
    ("name", text o.name),
    ("start", fraction o.start),
    ("end", option fraction o.stop),
    ("initial_step", fraction o.initialStep),
    ("min_step", fraction o.minStep),
    ("max_step", fraction o.maxStep),
    ("growth_factor", fraction o.growthFactor),
    ("max_steps", count o.maxSteps)]

def DeviceSweeps.write (o : DeviceSweeps α) : Document α :=
  record [
    ("gain", o.gain.write),
    ("nonlinear", o.nonlinear.write),
    ("size", o.size.write),
    ("block_gain_names", list (o.blockGainNames.map text))]

def GminOptions.write (o : GminOptions α) : Document α :=
  record [
    ("start", fraction o.start),
    ("end", fraction o.stop),
    ("initial_step", fraction o.initialStep),
    ("min_step", fraction o.minStep),
    ("max_step", fraction o.maxStep),
    ("max_steps", count o.maxSteps),
    ("residual_conductance", fraction o.residualConductance)]

def MarchOptions.write (o : MarchOptions α) : Document α :=
  record [
    ("initial_step", fraction o.initialStep),
    ("min_step", fraction o.minStep),
    ("max_step", fraction o.maxStep),
    ("max_steps", count o.maxSteps),
    ("switch_tol", fraction o.switchTol),
    ("voltage_scale", fraction o.voltageScale),
    ("other_scale", fraction o.otherScale)]

def ContinuationOptions.write (o : ContinuationOptions α) : Document α :=
  record [
    ("solve_type", text o.solveType.name),
    ("parameters", list (o.parameters.map Sweep.write)),
    ("device", o.device.write),
    ("source", o.source.write),
    ("gmin", o.gmin.write),
    ("pseudo_transient", o.pseudoTransient.write),
    ("homotopy", o.homotopy.write),
    ("use_initial_conditions", bool o.useInitialConditions)]

def ModeOptions.write (o : ModeOptions α) : Document α :=
  record [
    ("nonlinear", o.nonlinear.write),
    ("linear", o.linear.write),
    ("continuation", o.continuation.write)]

def CodeTable.write (o : CodeTable) : Document α :=
  record [
    ("norm_too_small", whole o.normTooSmall),
    ("normal_convergence", whole o.normalConvergence),
    ("near_convergence", whole o.nearConvergence),
    ("small_update", whole o.smallUpdate),
    ("too_many_steps", whole o.tooManySteps),
    ("update_too_big", whole o.updateTooBig),
    ("stalled", whole o.stalled),
    ("wrms_exact_zero", whole o.wrmsExactZero),
    ("inner_solve_failed", whole o.innerSolveFailed),
    ("nan_fail", whole o.nanFail)]

def Window.write (o : Window α) : Document α :=
  record [
    ("time_range", option (fun r ↦ list [fraction r.1, fraction r.2]) o.timeRange),
    ("step_range", option (fun r ↦ list [count r.1, count r.2]) o.stepRange)]

def SolverOptions.write (o : SolverOptions α) : Document α :=
  record [
    ("dc_op", o.dcOp.write),
    ("dc_sweep", o.dcSweep.write),
    ("transient", o.transient.write),
    ("codes", o.codes.write),
    ("debug", o.window.write)]

end OperatingPoint
