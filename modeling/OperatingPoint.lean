import OperatingPoint.Analysis
import OperatingPoint.Analysis.Command
import OperatingPoint.Augmentation
import OperatingPoint.Augmentation.Clamp
import OperatingPoint.Augmentation.Gmin
import OperatingPoint.Augmentation.PseudoTime
import OperatingPoint.Augmentation.Seed
import OperatingPoint.Augmentation.Shift
import OperatingPoint.Battery
import OperatingPoint.Bench
import OperatingPoint.Blend
import OperatingPoint.Capacity
import OperatingPoint.Circuit
import OperatingPoint.Continuation.Context
import OperatingPoint.Continuation.Stepper
import OperatingPoint.Decimal
import OperatingPoint.Dense.Access
import OperatingPoint.Dense.Matrix
import OperatingPoint.Dense.Vector
import OperatingPoint.Description
import OperatingPoint.Device
import OperatingPoint.Fault
import OperatingPoint.IndexSet
import OperatingPoint.InitialConditions
import OperatingPoint.Iterate
import OperatingPoint.Linear.Direct
import OperatingPoint.Linear.FullPivot
import OperatingPoint.Linear.Gmres
import OperatingPoint.Linear.IncompleteFactors
import OperatingPoint.Linear.Preconditioner
import OperatingPoint.Linear.Stopping
import OperatingPoint.Linear.Triangular
import OperatingPoint.Linear.Workspace
import OperatingPoint.Newton
import OperatingPoint.Options
import OperatingPoint.Options.Document
import OperatingPoint.Options.Document.Text
import OperatingPoint.Options.Reading
import OperatingPoint.Options.Writing
import OperatingPoint.Overlay
import OperatingPoint.Parameters
import OperatingPoint.Partition
import OperatingPoint.Proofs.AcceptedPoints
import OperatingPoint.Proofs.Actions
import OperatingPoint.Proofs.AffineOverlays
import OperatingPoint.Proofs.AnalysisCommands
import OperatingPoint.Proofs.AnalysisRun
import OperatingPoint.Proofs.Attempts
import OperatingPoint.Proofs.BatteryVerdicts
import OperatingPoint.Proofs.BenchCoherence
import OperatingPoint.Proofs.BenchCommands
import OperatingPoint.Proofs.BenchStops
import OperatingPoint.Proofs.Budget
import OperatingPoint.Proofs.CapturedRun
import OperatingPoint.Proofs.Captures
import OperatingPoint.Proofs.CarriedRun
import OperatingPoint.Proofs.CheckHistories
import OperatingPoint.Proofs.ChordSchedule
import OperatingPoint.Proofs.ClampedRun
import OperatingPoint.Proofs.Clamps
import OperatingPoint.Proofs.CleanUp
import OperatingPoint.Proofs.Coherence
import OperatingPoint.Proofs.Collectives
import OperatingPoint.Proofs.Computations
import OperatingPoint.Proofs.ConductanceTerms
import OperatingPoint.Proofs.Conductances
import OperatingPoint.Proofs.CutSteps
import OperatingPoint.Proofs.DecayingConductance
import OperatingPoint.Proofs.DeepCopies
import OperatingPoint.Proofs.DeviceStates
import OperatingPoint.Proofs.DiagonalShifts
import OperatingPoint.Proofs.DistributedNorms
import OperatingPoint.Proofs.EndOfWay
import OperatingPoint.Proofs.EndValues
import OperatingPoint.Proofs.Endings
import OperatingPoint.Proofs.Equations
import OperatingPoint.Proofs.ExactScalars
import OperatingPoint.Proofs.FactorReuse
import OperatingPoint.Proofs.FloatingUnknowns
import OperatingPoint.Proofs.FullMethod
import OperatingPoint.Proofs.GmresRun
import OperatingPoint.Proofs.GmresStatistics
import OperatingPoint.Proofs.HandedBack
import OperatingPoint.Proofs.Histories
import OperatingPoint.Proofs.IncompleteFactorization
import OperatingPoint.Proofs.IterationParts
import OperatingPoint.Proofs.JacobianProducts
import OperatingPoint.Proofs.Journals
import OperatingPoint.Proofs.KrylovCycles
import OperatingPoint.Proofs.LeadValues
import OperatingPoint.Proofs.LeftOutFields
import OperatingPoint.Proofs.LineSearchNorms
import OperatingPoint.Proofs.LineSearches
import OperatingPoint.Proofs.LinearSolve
import OperatingPoint.Proofs.LoadOrder
import OperatingPoint.Proofs.LoadTraces
import OperatingPoint.Proofs.LoadValues
import OperatingPoint.Proofs.MachineScalars
import OperatingPoint.Proofs.MarchEnds
import OperatingPoint.Proofs.MarchGround
import OperatingPoint.Proofs.MarchPasses
import OperatingPoint.Proofs.MarchReports
import OperatingPoint.Proofs.MarchRun
import OperatingPoint.Proofs.MarchSafety
import OperatingPoint.Proofs.MeasuredResiduals
import OperatingPoint.Proofs.NearConvergence
import OperatingPoint.Proofs.NewtonRun
import OperatingPoint.Proofs.NewtonStops
import OperatingPoint.Proofs.NullRows
import OperatingPoint.Proofs.OutcomeNorms
import OperatingPoint.Proofs.Overlaying
import OperatingPoint.Proofs.Overlays
import OperatingPoint.Proofs.ParameterChanges
import OperatingPoint.Proofs.ParameterNames
import OperatingPoint.Proofs.ParameterValues
import OperatingPoint.Proofs.PhaseSchedule
import OperatingPoint.Proofs.PseudoSteps
import OperatingPoint.Proofs.PureDevice
import OperatingPoint.Proofs.RealScalars
import OperatingPoint.Proofs.Registered
import OperatingPoint.Proofs.RenamedBenches
import OperatingPoint.Proofs.RenamedRigs
import OperatingPoint.Proofs.RenamedRuns
import OperatingPoint.Proofs.Renaming
import OperatingPoint.Proofs.ResidualFunctions
import OperatingPoint.Proofs.ResidualGrowth
import OperatingPoint.Proofs.ResolvedConditions
import OperatingPoint.Proofs.Resting
import OperatingPoint.Proofs.RollBack
import OperatingPoint.Proofs.RotatedBases
import OperatingPoint.Proofs.RoutineStops
import OperatingPoint.Proofs.ScalarArithmetic
import OperatingPoint.Proofs.ScalarLine
import OperatingPoint.Proofs.SeedHistories
import OperatingPoint.Proofs.SeedStages
import OperatingPoint.Proofs.SeedSteps
import OperatingPoint.Proofs.SeededRun
import OperatingPoint.Proofs.Sessions
import OperatingPoint.Proofs.SettledAnalysis
import OperatingPoint.Proofs.SettledRun
import OperatingPoint.Proofs.SetupHistories
import OperatingPoint.Proofs.SideBySide
import OperatingPoint.Proofs.SingleSteps
import OperatingPoint.Proofs.Stages
import OperatingPoint.Proofs.Stagnation
import OperatingPoint.Proofs.SteadyAcceptance
import OperatingPoint.Proofs.StepHistories
import OperatingPoint.Proofs.SteppedStrategies
import OperatingPoint.Proofs.StepperRun
import OperatingPoint.Proofs.StrategyRun
import OperatingPoint.Proofs.TrackShifts
import OperatingPoint.Proofs.TriangularSolves
import OperatingPoint.Proofs.ValidatedStrategies
import OperatingPoint.Proofs.Validity
import OperatingPoint.Proofs.ValiditySets
import OperatingPoint.PseudoTransient
import OperatingPoint.Quantity
import OperatingPoint.Reduction
import OperatingPoint.Scalar
import OperatingPoint.Scalar.Machine
import OperatingPoint.Step
import OperatingPoint.Store
import OperatingPoint.Store.Command
import OperatingPoint.Strategy
import OperatingPoint.Track
import OperatingPoint.Verdict
