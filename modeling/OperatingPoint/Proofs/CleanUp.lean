import OperatingPoint.Circuit
import OperatingPoint.Linear.FullPivot
import OperatingPoint.Proofs.SettledAnalysis

/-!
# Every solve cleans up after itself

A strategy attaches an augmentation or a blend, turns the forwarding of parameters on, and steps
parameters, two of which are reserved for it.  Whether the solve comes to an end or stops on the way,
all of this is taken back: the analysis is *neutral* after it.  Since it is neutral before every solve
as well, no strategy is ever attached on top of another.

The reserved parameters are taken back by name.  They could come back under the same name from the
options, so that their absence is only promised where the options leave these names alone.
-/

set_option autoImplicit false

namespace OperatingPoint

open Step

variable {δ α : Type} [Scalar α] [DirectSolver α] [Device δ α] {layer : δ} {c : Communicator α}
  {o : SolverOptions α}

/-! ## Reserved names -/

/-- The parameters that strategies step for themselves. -/
def Parameters.IsReserved (name : String) : Prop := name = progressName ∨ name = blendName

instance Parameters.IsReserved.instDecidable {name : String} : Decidable (IsReserved name) :=
  inferInstanceAs (Decidable (_ ∨ _))

/-- The options name no reserved parameter, except that a homotopy may step its own. -/
structure ContinuationOptions.Unreserved {α : Type} (c : ContinuationOptions α) : Prop where
  written : ∀ sweep ∈ Drive.written c, ¬ Parameters.IsReserved sweep.name
  blocks : ∀ name ∈ c.device.blockGainNames, ¬ Parameters.IsReserved name
  homotopy : c.homotopy.name ≠ Parameters.progressName

def SolverOptions.Unreserved {α : Type} (o : SolverOptions α) : Prop :=
  ∀ mode, (o.ofMode mode).continuation.Unreserved

/-! ## Neutral analyses -/

namespace Analysis

variable {a a₀ : Analysis δ α}

/-- Nothing of a strategy is left, and none of its parameters if the options leave their names
alone. -/
def Neutral (o : SolverOptions α) (a : Analysis δ α) : Prop :=
  ∀ e, a.engine = some e → e.engine.rig.track.overlay.IsPlain ∧
    (o.Unreserved → ∀ name, Parameters.IsReserved name →
      e.engine.rig.track.overlay.parameters.get? name = none)

/-- A name that the options may bring in. -/
def Free (o : SolverOptions α) (name : String) : Prop :=
  o.Unreserved → ¬ Parameters.IsReserved name

omit [DirectSolver α] in
/-- A strategy brings in names of the options, and takes back what it brings in besides. -/
theorem owns_free (o : SolverOptions α) : Owns (Free o) o := by
  intro mode solveType sweep mem
  cases Drive.steps_of_mem mem with
  | device there => exact .inl fun free ↦ (free mode).written _ there
  | block there => exact .inl fun free ↦ (free mode).blocks _ there
  | progress => exact .inr rfl
  | blend =>
    by_cases own : (o.ofMode mode).continuation.homotopy.name = Parameters.blendName
    · exact .inr own
    · exact .inl fun free reserved ↦ reserved.elim (free mode).homotopy own

theorem Kept.neutral (h : a.Kept (fun _ ↦ Rig.Laid layer (Free o) none none false) c o) :
    a.Neutral o := by
  intro e there
  obtain ⟨mode, -, laid, -⟩ := h.engine e there
  refine ⟨laid.isPlain, fun unreserved name reserved ↦ ?_⟩
  exact Parameters.get?_eq_none_iff.2 fun mem ↦ laid.within name mem unreserved reserved

/-- **Neutrality.**  Wherever a history of an analysis leads, the analysis is neutral.  A solve from
there leaves it neutral, whether or not it stops, and it does not stop because of a strategy that is
attached on top of another. -/
theorem solve_neutral_of_history (made : new layer c o = .ok a₀) (history : List (Request α)) :
    (a₀.run history).Neutral o ∧
      Ends solve (a₀.run history) (fun _ a ↦ a.Neutral o)
        (fun stop a ↦ ¬ stop.Clashes ∧ a.Neutral o) := by
  let I (n : Nat) : Rig δ α n → Prop := Rig.Laid layer (Free o) none none false
  have settles : ∀ n, Rig.Settles layer (Free o) (I n) := fun _ ↦ Rig.settles_laid
  have kept : (a₀.run history).Kept I c o :=
    run_kept settles (owns_free o) (kept_of_new settles made) history
  refine ⟨kept.neutral, ?_⟩
  exact (guards_solve settles (owns_free o) _ kept).mono (fun _ _ kept' ↦ kept'.neutral)
    fun _ _ stopped ↦ ⟨stopped.1, stopped.2.neutral⟩

/-- Options for a homotopy at the operating point, and for stepping of sources in a sweep. -/
def blendOrSources : SolverOptions Float :=
  let standard : SolverOptions Float := .standard
  { standard with
    dcOp := { standard.dcOp with
      continuation := { standard.dcOp.continuation with solveType := .artificialHomotopy } }
    dcSweep := { standard.dcSweep with
      continuation := { standard.dcSweep.continuation with solveType := .sourceStepping } } }

-- What is said of the analysis is not to be compared by carrying out the history.
seal Ends in
/-- The device layer refuses the sources for a second time, after a homotopy that has come to its
end.  The forwarding is off again, and none of the parameters is a reserved one. -/
theorem solve_neutral_refused :
    let history : List (Request Float) :=
      [⟨_, .solve⟩, ⟨_, .setMode .dcSweep⟩, ⟨_, .resetSession⟩, ⟨_, .solve⟩]
    ∃ a₀ : Analysis Circuit Float, new Circuit.bare .serial blendOrSources = .ok a₀ ∧
      (a₀.run history).lastCode = 1 ∧
      Ends solve (a₀.run history) (fun _ _ ↦ False)
        fun stop a ↦ stop = .fault (.config (.rejected "vsrcscale")) ∧ a.engine.isSome = true ∧
          a.Neutral blendOrSources ∧ blendOrSources.Unreserved := by
  intro history
  have ran : Yields
      (new Circuit.bare .serial blendOrSources : Except Stop (Analysis Circuit Float))
      fun a₀ ↦ (a₀.run history).lastCode = 1 ∧ Ends solve (a₀.run history) (fun _ _ ↦ False)
        fun stop a ↦ stop = .fault (.config (.rejected "vsrcscale")) ∧ a.engine.isSome = true := by
    decide +kernel
  obtain ⟨a₀, made, code, run⟩ := ran.exists
  refine ⟨a₀, made, code, ?_⟩
  refine (run.and (solve_neutral_of_history made history).2).mono (fun _ _ solved ↦ solved.1) ?_
  rintro stop a ⟨⟨refused, there⟩, -, neutral⟩
  refine ⟨refused, there, neutral, fun mode ↦ ?_⟩
  cases mode with
  | dcOperatingPoint | dcSweep | transient => exact ⟨by decide, by decide, by decide⟩

end Analysis

end OperatingPoint
