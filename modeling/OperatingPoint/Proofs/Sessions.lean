import OperatingPoint.Proofs.CleanUp
import OperatingPoint.Proofs.EndValues

/-!
# Sessions

A session notes what has been done: for which mode the engine was built and how often it was built
anew, whether the context was read, whether any solve has produced a result.  Some of it is noted
twice.  The initial conditions are kept as they were given and, once there is a context, as they
were resolved; and that there is a context is noted besides.

Here the notes are compared with the history itself: `Analysis.visits` lists its commands, each with
the analysis that it finds.  `Analysis.Turned` says all that a command can do to the notes, and
`Analysis.Recounted` is what a history makes of it.  This goes for device layers that keep their
number of unknowns; a change of it can cost the engine.
-/

set_option autoImplicit false

namespace OperatingPoint

open Step

variable {δ α β : Type} [Scalar α] [DirectSolver α] [Device δ α] {layer : δ}
  {c : Communicator α} {o : SolverOptions α} {mode : Mode}

/-- The options of all the modes. -/
def SolverOptions.modes {α : Type} (o : SolverOptions α) : List (ModeOptions α) :=
  [o.dcOp, o.dcSweep, o.transient]

/-- The context holds the end values that a device layer had in the state `read`, and some initial
conditions as it resolved them in the state `resolved`. -/
structure ContinuationContext.Recalls (modes : List (ModeOptions α))
    (conditions : InitialConditions α) (read resolved : δ) (ctx : ContinuationContext α) :
    Prop where
  conditions : resolveConditions resolved conditions = .ok ctx.initialConditions
  endValues : ∀ name, ctx.endValues.lookup name =
    if name ∈ openNames modes then Device.parameter? read name else none

omit [Scalar α] [DirectSolver α] in
theorem ContinuationContext.recalls_of_build {device : δ} {modes : List (ModeOptions α)}
    {conditions : InitialConditions α} {ctx : ContinuationContext α}
    (built : build device modes conditions = .ok ctx) :
    ctx.Recalls modes conditions device device := by
  refine ⟨?_, lookup_endValues built⟩
  obtain ⟨_, _, built⟩ := bind_eq_ok.1 built
  obtain ⟨resolved, accepted, same⟩ := bind_eq_ok.1 built
  cases same
  cases there : resolveConditions device conditions with
  | ok resolved' =>
    rw [there] at accepted
    exact congrArg Except.ok (Except.ok.inj accepted)
  | error cause =>
    rw [there] at accepted
    cases accepted

namespace Analysis

variable {a a' a₀ a₁ : Analysis δ α}

/-! ## The commands of a history -/

/-- A solve or a step.  Either sees to it that the engine is the one for the mode. -/
def Command.computes : Command α β → Bool
  | .solve | .step => true
  | _ => false

/-- The initial conditions that a command sets. -/
def Command.conditions? : Command α β → Option (InitialConditions α)
  | .setInitialConditions conditions => some conditions
  | _ => none

/-- The initial conditions that a command sets, unless it was refused. -/
def Command.accepted? (command : Command α β) (ended : Bool) : Option (InitialConditions α) :=
  if ended then command.conditions? else none

omit [Scalar α] [DirectSolver α] in
theorem Command.accepted?_of_computes {command : Command α β} (computes : command.computes = true)
    (ended : Bool) : command.accepted? ended = none := by
  cases command with
  | solve | step => cases ended <;> rfl
  | _ => cases computes

/-- A command of a history, with the analysis that it finds. -/
structure Visit (δ α : Type) [LE α] [DirectSolver α] where
  found : Analysis δ α
  request : Request α

/-- The commands of a history, in their order. -/
def visits (a : Analysis δ α) : List (Request α) → List (Visit δ α)
  | [] => []
  | request :: rest => ⟨a, request⟩ :: visits (Step.after (perform request.2) a) rest

/-- Whether the engine is one for another mode. -/
def outmoded (a : Analysis δ α) : Bool := decide (a.session.builtMode ≠ some a.session.mode)

namespace Visit

variable (v : Visit δ α)

/-- The analysis that the command leaves. -/
def left : Analysis δ α := Step.after (perform v.request.2) v.found

/-- Whether a solve or a step found an engine for another mode. -/
def changesMode : Bool := v.request.2.computes && v.found.outmoded

/-- The initial conditions that were accepted. -/
def accepted? : Option (InitialConditions α) :=
  v.request.2.accepted? (Step.value (perform v.request.2) v.found).isOk

/-- Whether there is a context since. -/
def readsContext : Bool := v.found.context.isNone && v.left.context.isSome

/-- Whether there is a context since, or one that was there took over initial conditions. -/
def resolves : Bool := v.readsContext || v.found.context.isSome && v.accepted?.isSome

end Visit

/-- The last initial conditions that were accepted.  At the beginning there are none. -/
def acceptedConditions (past : List (Visit δ α)) : InitialConditions α :=
  (past.reverse.findSome? Visit.accepted?).getD {}

/-- The device layer as the last visit of a kind found it. -/
def lastDevice (kind : Visit δ α → Bool) (past : List (Visit δ α)) : Option δ :=
  (past.reverse.find? kind).bind fun v ↦ v.found.device?

theorem acceptedConditions_snoc (past : List (Visit δ α)) (v : Visit δ α) :
    acceptedConditions (past ++ [v]) = v.accepted?.getD (acceptedConditions past) := by
  unfold acceptedConditions
  rw [List.reverse_concat, List.findSome?_cons]
  cases v.accepted? <;> rfl

omit [Device δ α] in
theorem lastDevice_snoc (kind : Visit δ α → Bool) (past : List (Visit δ α)) (v : Visit δ α) :
    lastDevice kind (past ++ [v]) = if kind v then v.found.device? else lastDevice kind past := by
  unfold lastDevice
  rw [List.reverse_concat, List.find?_cons]
  cases kind v <;> rfl

/-! ## Building anew -/

/-- The engine is there, and as large as the device layer. -/
def Whole (layer : δ) (a : Analysis δ α) : Prop :=
  ∃ e, a.engine = some e ∧ e.unknowns = Device.unknowns layer

/-- The solution of the previous point, which is empty if the engine is lost. -/
def previous (a : Analysis δ α) : Array α :=
  match a.engine with
  | some e => e.engine.rig.store.previous.toArray
  | none => #[]

/-- The engine is the one for the mode.  The solution, the previous one and the device layer are
those that there were. -/
structure Rebuilt (a a' : Analysis δ α) : Prop where
  solution : a'.solution = a.solution
  previous : a'.previous = a.previous
  device : a'.device? = a.device?
  session : a'.session = { a.session with
    builtMode := some a.session.mode
    rebuilds := a.session.rebuilds + a.outmoded.toNat }
  context : a'.context = a.context
  conditions : a'.conditions = a.conditions
  options : a'.options = a.options

/-- An engine is built at vectors that are as long as they should be. -/
theorem engineAt_ok (device : δ) (c : Communicator α) (o : SolverOptions α) (mode : Mode)
    {x previous : Array α} (room : Store.reserveSquare (Device.unknowns device) = .ok ())
    (sizeX : x.size = Device.unknowns device)
    (sizePrevious : previous.size = Device.unknowns device) :
    ∃ e, engineAt device c o mode x previous = .ok e ∧ e.unknowns = Device.unknowns device ∧
      e.engine.iterate.x.toArray = x ∧ e.engine.rig.store.previous.toArray = previous ∧
      e.engine.rig.store.device = device := by
  unfold engineAt Store.sized
  dsimp only
  rw [room, dif_pos sizeX, dif_pos sizePrevious]
  exact ⟨_, rfl, rfl, rfl, rfl, rfl⟩

section

variable {N : String → Prop} {I : (n : Nat) → Rig δ α n → Prop}
  (settles : ∀ n, Rig.Settles layer N (I n))
  (constant : ∀ device, Device.Reaches layer device →
    Device.unknowns device = Device.unknowns layer)
  (room : Store.reserveSquare (Device.unknowns layer) = .ok ())

include settles constant room

/-- Making sure of the engine cannot fail. -/
theorem ensureBuilt_rebuilds (kept : a.Kept I c o) (whole : a.Whole layer) :
    Ends ensureBuilt a (fun _ a' ↦ a.Rebuilt a' ∧ a'.Whole layer) (fun _ _ ↦ False) := by
  obtain ⟨e, there, size⟩ := whole
  obtain ⟨_, -, fits⟩ := kept.engine e there
  have reached : Device.unknowns e.engine.rig.store.device = Device.unknowns layer :=
    constant _ ((settles _).laid fits.keeps).holds
  obtain ⟨e', built, size', x, previous, device⟩ := engineAt_ok e.engine.rig.store.device
    a.communicator a.options a.session.mode (reached.symm ▸ room)
    (e.engine.iterate.x.size_toArray.trans (size.trans reached.symm))
    (e.engine.rig.store.previous.size_toArray.trans (size.trans reached.symm))
  refine .of_result (ensureBuilt_run a) ?_ ?_
  · intro _ a' run
    cases run with
    | built same =>
      refine ⟨⟨rfl, rfl, rfl, ?_, rfl, rfl, rfl⟩, e, there, size⟩
      rw [Analysis.outmoded, decide_eq_false (Decidable.not_not.2 same), Bool.toNat_false, ← same]
      rfl
    | rebuilt outmoded there' made =>
      cases Option.some.inj (there.symm.trans there')
      cases Except.ok.inj (built.symm.trans made)
      refine ⟨⟨?_, ?_, ?_, ?_, rfl, rfl, rfl⟩, e', rfl, size'.trans reached⟩
      · simp only [solution, there]
        exact x
      · simp only [Analysis.previous, there]
        exact previous
      · simp only [device?, there, Option.map_some]
        exact congrArg some device
      · simp only [Analysis.outmoded, decide_eq_true outmoded, Bool.toNat_true]
  · intro stop a' run
    cases run with
    | lost outmoded lost =>
      rw [there] at lost
      cases lost
    | refused outmoded there' made =>
      cases Option.some.inj (there.symm.trans there')
      cases built.symm.trans made

end

/-! ## What a command does to the notes -/

/-- What can become of the context, if `device` is the device layer, `conditions` are the initial
conditions so far and `accepted` those that the command has brought. -/
inductive ContextTurn (o : SolverOptions α) (device : Option δ) (conditions : InitialConditions α)
    (accepted : Option (InitialConditions α)) :
    Option (ContinuationContext α) → Option (ContinuationContext α) → Prop
  | absent : ContextTurn o device conditions accepted none none
  | same {ctx : ContinuationContext α} (silent : accepted = none) :
    ContextTurn o device conditions accepted (some ctx) (some ctx)
  | read {d : δ} {ctx : ContinuationContext α} (silent : accepted = none) (there : device = some d)
    (built : ContinuationContext.build d o.modes conditions = .ok ctx) :
    ContextTurn o device conditions accepted none (some ctx)
  | resolved {d : δ} {ctx : ContinuationContext α} {new : InitialConditions α}
    {initialConditions : Option (Partition × List α)} (brought : accepted = some new)
    (there : device = some d)
    (resolves : ContinuationContext.resolveConditions d new = .ok initialConditions) :
    ContextTurn o device conditions accepted (some ctx)
      (some { ctx with initialConditions := initialConditions })
  | dropped {ctx : ContinuationContext α} : ContextTurn o device conditions accepted (some ctx) none

/-- What a command has done to the notes of an analysis that is whole, by whether it came to its
end. -/
structure Turned (layer : δ) (o : SolverOptions α) (command : Command α β) (ended : Bool)
    (a a' : Analysis δ α) : Prop where
  whole : a'.Whole layer
  rebuilds : a'.session.rebuilds = a.session.rebuilds + (command.computes && a.outmoded).toNat
  conditions : a'.conditions = (command.accepted? ended).getD a.conditions
  complete : a.session.firstSolveComplete = true → a'.session.firstSolveComplete = true ∨
    (⟨β, command⟩ : Request α) = ⟨Unit, .resetSession⟩
  noted : a.context.isSome = a.session.contextRead → a'.context.isSome = a'.session.contextRead
  context : ContextTurn o a.device? a.conditions (command.accepted? ended) a.context a'.context

omit [Scalar α] [DirectSolver α] in
theorem ContextTurn.refl (o : SolverOptions α) (device : Option δ)
    (conditions : InitialConditions α) (ctx : Option (ContinuationContext α)) :
    ContextTurn o device conditions none ctx ctx := by
  cases ctx with
  | none => exact .absent
  | some ctx => exact .same rfl

/-- The notes are the same but for the mode, and the engine is there. -/
structure SameNotes (layer : δ) (a a' : Analysis δ α) : Prop where
  whole : a'.Whole layer
  rebuilds : a'.session.rebuilds = a.session.rebuilds
  complete : a'.session.firstSolveComplete = a.session.firstSolveComplete
  read : a'.session.contextRead = a.session.contextRead
  context : a'.context = a.context
  conditions : a'.conditions = a.conditions

theorem SameNotes.refl (whole : a.Whole layer) : a.SameNotes layer a :=
  ⟨whole, rfl, rfl, rfl, rfl, rfl⟩

/-- What is done to the notes where no initial conditions are set and nothing is forgotten, once the
engine is the one for the mode. -/
structure GoesOn (layer : δ) (o : SolverOptions α) (a a' : Analysis δ α) : Prop where
  whole : a'.Whole layer
  rebuilds : a'.session.rebuilds = a.session.rebuilds
  complete : a.session.firstSolveComplete = true → a'.session.firstSolveComplete = true
  conditions : a'.conditions = a.conditions
  noted : a.context.isSome = a.session.contextRead → a'.context.isSome = a'.session.contextRead
  context : ContextTurn o a.device? a.conditions none a.context a'.context

theorem SameNotes.goesOn (h : a.SameNotes layer a') : GoesOn layer o a a' where
  whole := h.whole
  rebuilds := h.rebuilds
  complete := h.complete.trans
  conditions := h.conditions
  noted noted := by
    rw [h.context, h.read]
    exact noted
  context := by
    rw [h.context]
    exact .refl ..

theorem GoesOn.turned (h : GoesOn layer o a a') {command : Command α β} {ended : Bool}
    (idle : command.computes = false) (silent : command.accepted? ended = none) :
    Turned layer o command ended a a' where
  whole := h.whole
  rebuilds := by
    rw [h.rebuilds, idle]
    rfl
  conditions := by
    rw [h.conditions, silent]
    rfl
  complete before := .inl (h.complete before)
  noted := h.noted
  context := by
    rw [silent]
    exact h.context

/-- A command that notes nothing. -/
theorem turned_of_sameNotes (whole : a.Whole layer) {command : Command α β}
    (idle : command.computes = false) (silent : command.conditions? = none)
    (keeps : Preserves (perform command) (a.SameNotes layer)) :
    Ends (perform command) a (fun _ a' ↦ Turned layer o command true a a')
      (fun _ a' ↦ Turned layer o command false a a') :=
  (keeps a (.refl whole)).mono (fun _ _ same ↦ same.goesOn.turned idle silent)
    fun _ _ same ↦ same.goesOn.turned idle rfl

theorem onEngine_sameNotes (act : {n : Nat} → Step (Engine δ α n) β) :
    Preserves (onEngine act) (a.SameNotes layer) := by
  intro a₁ same
  obtain ⟨e, there, size⟩ := same.whole
  refine ends_onEngine (fun e' there' ↦ ?_) fun _ ↦ same
  obtain rfl := Option.some.inj (there.symm.trans there')
  exact (Ends.trivial act e.engine).mono (fun _ _ _ ↦ { same with whole := ⟨_, rfl, size⟩ })
    fun _ _ _ ↦ { same with whole := ⟨_, rfl, size⟩ }

/-- Setting initial conditions.  They are refused if there is a context and they cannot be resolved,
and then nothing has changed. -/
theorem setInitialConditions_turned (whole : a.Whole layer) (conditions : InitialConditions α) :
    Ends (setInitialConditions conditions) a
      (fun _ a' ↦ Turned layer o (.setInitialConditions conditions) true a a')
      (fun _ a' ↦ a' = a) := by
  obtain ⟨e, there, size⟩ := whole
  unfold setInitialConditions
  simp only [ends_bind, ends_get]
  split
  · rename_i ctx e' read there'
    obtain rfl := Option.some.inj (there.symm.trans there')
    simp only [ends_bind, ends_orFault, ends_modify, implies_true, and_true]
    intro resolved accepted
    have device : a.device? = some e.engine.rig.store.device := congrArg (Option.map _) there
    refine ⟨⟨e, there, size⟩, rfl, rfl, .inl, fun noted ↦ ?_, ?_⟩
    · rw [← noted, read]
      rfl
    · dsimp only
      rw [read]
      exact .resolved rfl device accepted
  · rename_i lacks
    have absent : a.context = none := by
      cases read : a.context with
      | none => rfl
      | some ctx => exact absurd there (lacks ctx e read)
    refine ⟨⟨e, there, size⟩, rfl, rfl, .inl, id, ?_⟩
    dsimp only
    rw [absent]
    exact .absent

/-! ## Solves and steps -/

theorem Rebuilt.turned (built : a.Rebuilt a₁) {command : Command α β} {ended : Bool}
    (computes : command.computes = true) (h : GoesOn layer o a₁ a') :
    Turned layer o command ended a a' where
  whole := h.whole
  rebuilds := by
    rw [h.rebuilds, built.session, computes]
    rfl
  conditions := by
    rw [h.conditions, built.conditions, Command.accepted?_of_computes computes]
    rfl
  complete before := .inl (h.complete (by rw [built.session]; exact before))
  noted before := h.noted (by rw [built.session, built.context]; exact before)
  context := by
    rw [Command.accepted?_of_computes computes, ← built.device, ← built.conditions, ← built.context]
    exact h.context

/-- The context is there afterwards, unless it cannot be read. -/
theorem ensureContext_goesOn (options : a.options = o) (whole : a.Whole layer) :
    Ends ensureContext a (fun _ a' ↦ GoesOn layer o a a') (fun _ a' ↦ a' = a) := by
  refine .of_result (ensureContext_run a) ?_ ?_
  · intro ctx a' run
    cases run with
    | known => exact (SameNotes.refl whole).goesOn
    | @read unread e _ there read =>
      obtain ⟨_, there', size⟩ := whole
      obtain rfl := Option.some.inj (there.symm.trans there')
      refine ⟨⟨e, there, size⟩, rfl, id, rfl, fun _ ↦ rfl, ?_⟩
      have device : a.device? = some e.engine.rig.store.device := congrArg (Option.map _) there
      rw [unread]
      rw [options] at read
      exact .read rfl device read
  · intro stop a' run
    cases run with
    | lost => rfl
    | refused => rfl

section

variable {N : String → Prop} {I : (n : Nat) → Rig δ α n → Prop}
  (settles : ∀ n, Rig.Settles layer N (I n))
  (constant : ∀ device, Device.Reaches layer device →
    Device.unknowns device = Device.unknowns layer)
  (room : Store.reserveSquare (Device.unknowns layer) = .ok ())

include settles constant room

theorem solve_turned (kept : a.Kept I c o) (whole : a.Whole layer) :
    Ends solve a (fun _ a' ↦ Turned layer o .solve true a a')
      (fun _ a' ↦ Turned layer o .solve false a a') := by
  refine ends_solve_of (ends_bind.2 ?_)
  refine (ensureBuilt_rebuilds settles constant room kept whole).mono ?_ fun _ _ no ↦ no.elim
  rintro _ a₁ ⟨built, whole₁⟩
  refine (ensureContext_goesOn (built.options.trans kept.options) whole₁).mono ?_ ?_
  · intro ctx a₂ read
    obtain ⟨e₂, there₂, size⟩ := read.whole
    refine ⟨fun lost ↦ absurd (there₂.symm.trans lost) (Option.some_ne_none _), fun e there ↦ ?_⟩
    obtain rfl := Option.some.inj (there₂.symm.trans there)
    -- Whatever the drive comes to, its engine is put back.
    refine (Ends.trivial _ _).mono (fun code d _ ↦ ?_) fun stop d _ ↦ ?_
    · exact built.turned rfl { read with whole := ⟨_, rfl, size⟩, complete := fun _ ↦ rfl }
    · exact built.turned rfl { read with whole := ⟨_, rfl, size⟩ }
  · rintro stop _ rfl
    exact built.turned rfl (SameNotes.refl whole₁).goesOn

theorem step_turned (kept : a.Kept I c o) (whole : a.Whole layer) :
    Ends step a (fun _ a' ↦ Turned layer o .step true a a')
      (fun _ a' ↦ Turned layer o .step false a a') := by
  unfold step
  rw [ends_bind]
  refine (ensureBuilt_rebuilds settles constant room kept whole).mono ?_ fun _ _ no ↦ no.elim
  rintro _ a₁ ⟨built, whole₁⟩
  rw [ends_bind]
  refine (onEngine_sameNotes _ a₁ (.refl whole₁)).mono ?_ fun stop a₂ same ↦
    built.turned rfl same.goesOn
  rintro ⟨status, outcome⟩ a₂ same
  simp only [ends_bind, ends_modify, ends_pure]
  refine built.turned rfl { same.goesOn with complete := fun before ↦ ?_ }
  show (a₂.session.firstSolveComplete || status.isDecided) = true
  rw [same.complete, before]
  rfl

/-- **What a command does to the notes.** -/
theorem perform_turned (kept : a.Kept I c o) (whole : a.Whole layer) (command : Command α β) :
    Ends (perform command) a (fun _ a' ↦ Turned layer o command true a a')
      (fun _ a' ↦ Turned layer o command false a a') := by
  cases command with
  | solve => exact solve_turned settles constant room kept whole
  | step => exact step_turned settles constant room kept whole
  | setMode mode =>
    exact turned_of_sameNotes whole rfl rfl (.modify fun _ same ↦ { same with })
  | resetSession =>
    refine ⟨whole, rfl, rfl, fun _ ↦ .inr rfl, fun _ ↦ rfl, ?_⟩
    show ContextTurn o a.device? a.conditions none a.context none
    cases a.context with
    | none => exact .absent
    | some ctx => exact .dropped
  | setInitialConditions conditions =>
    refine (setInitialConditions_turned whole conditions).mono (fun _ _ turned ↦ turned) ?_
    rintro stop _ rfl
    exact (SameNotes.refl whole).goesOn.turned rfl rfl
  | setSeed seed =>
    exact turned_of_sameNotes whole rfl rfl
      (.bind (onEngine_sameNotes _) fun _ ↦ .modify fun _ same ↦ { same with })
  | setSolution x =>
    refine turned_of_sameNotes whole rfl rfl ?_
    rw [perform]
    exact onEngine_sameNotes _
  | setPrevious x =>
    refine turned_of_sameNotes whole rfl rfl ?_
    rw [perform]
    exact onEngine_sameNotes _
  | setTimePoint time stepNumber =>
    exact turned_of_sameNotes whole rfl rfl (.modify fun _ same ↦ { same with })
  | applyJacobian v length =>
    exact turned_of_sameNotes whole rfl rfl (.bind (.lift _) fun _ ↦ onEngine_sameNotes _)
  | applyTranspose v length =>
    exact turned_of_sameNotes whole rfl rfl (.bind (.lift _) fun _ ↦ onEngine_sameNotes _)

end

/-! ## What a history makes of the notes -/

/-- The notes agree with the commands that have been carried out. -/
structure Recounted (o : SolverOptions α) (past : List (Visit δ α)) (a : Analysis δ α) : Prop where
  rebuilds : a.session.rebuilds = past.countP Visit.changesMode
  noted : a.context.isSome = a.session.contextRead
  conditions : a.conditions = acceptedConditions past
  context : ∀ ctx, a.context = some ctx → ∃ read resolved,
    lastDevice Visit.readsContext past = some read ∧
      lastDevice Visit.resolves past = some resolved ∧
      ctx.Recalls o.modes (acceptedConditions past) read resolved

/-- What is known of the context after one more command. -/
theorem Recounted.recalls {past : List (Visit δ α)} {v : Visit δ α} (h : Recounted o past v.found)
    (turn : ContextTurn o v.found.device? v.found.conditions v.accepted? v.found.context
      v.left.context) {ctx : ContinuationContext α} (there : v.left.context = some ctx) :
    ∃ read resolved, lastDevice Visit.readsContext (past ++ [v]) = some read ∧
      lastDevice Visit.resolves (past ++ [v]) = some resolved ∧
      ctx.Recalls o.modes (acceptedConditions (past ++ [v])) read resolved := by
  rw [lastDevice_snoc, lastDevice_snoc, acceptedConditions_snoc, Visit.resolves, Visit.readsContext]
  rw [there] at turn ⊢
  generalize found : v.found.context = before at turn ⊢
  cases turn with
  | same silent =>
    obtain ⟨read, resolved, lastRead, lastResolved, recalls⟩ := h.context ctx found
    rw [silent]
    exact ⟨read, resolved, lastRead, lastResolved, recalls⟩
  | read silent device built =>
    rw [silent]
    refine ⟨_, _, device, device, ?_⟩
    rw [Option.getD_none, ← h.conditions]
    exact ContinuationContext.recalls_of_build built
  | resolved brought device resolves =>
    obtain ⟨read, _, lastRead, -, recalls⟩ := h.context _ found
    rw [brought]
    exact ⟨read, _, lastRead, device, resolves, recalls.endValues⟩

/-- One more command. -/
theorem Recounted.turned {past : List (Visit δ α)} {v : Visit δ α} (h : Recounted o past v.found)
    (turned : Turned layer o v.request.2 (Step.value (perform v.request.2) v.found).isOk v.found
      v.left) : Recounted o (past ++ [v]) v.left := by
  refine ⟨?_, turned.noted h.noted, ?_, fun ctx ↦ h.recalls turned.context⟩
  · rw [List.countP_append, List.countP_singleton, turned.rebuilds, h.rebuilds]
    show _ + v.changesMode.toNat = _
    cases v.changesMode <;> rfl
  · rw [acceptedConditions_snoc, turned.conditions, h.conditions]
    rfl

section

variable {N : String → Prop} {I : (n : Nat) → Rig δ α n → Prop}
  (settles : ∀ n, Rig.Settles layer N (I n)) (own : Owns N o)
  (constant : ∀ device, Device.Reaches layer device →
    Device.unknowns device = Device.unknowns layer)
  (room : Store.reserveSquare (Device.unknowns layer) = .ok ())

include settles own constant room

theorem run_recounted {past : List (Visit δ α)} (kept : a.Kept I c o) (whole : a.Whole layer)
    (h : Recounted o past a) (history : List (Request α)) :
    (a.run history).Whole layer ∧ Recounted o (past ++ a.visits history) (a.run history) := by
  induction history generalizing a past with
  | nil =>
    rw [visits, List.append_nil]
    exact ⟨whole, h⟩
  | cons request rest ih =>
    have kept' := (perform_preserves settles own request.2 a kept).after
    have turned := (perform_turned settles constant room kept whole request.2).isOk_after
      fun ended a' ↦ Turned layer o request.2 ended a a'
    rw [visits, List.append_cons]
    exact ih kept' turned.whole (h.turned (v := ⟨a, request⟩) turned)

end

theorem recounted_of_new (made : new layer c o = .ok a₀) : Recounted o [] a₀ := by
  obtain ⟨e, built, same⟩ := bind_eq_ok.1 made
  cases same
  exact ⟨rfl, rfl, rfl, nofun⟩

/-- At the beginning the engine is there, and there was room for its matrices. -/
theorem whole_of_new (made : new layer c o = .ok a₀) :
    a₀.Whole layer ∧ Store.reserveSquare (Device.unknowns layer) = .ok () := by
  obtain ⟨e, built, same⟩ := bind_eq_ok.1 made
  cases same
  obtain ⟨store, made, built⟩ := bind_eq_ok.1 built
  obtain ⟨_, room, _⟩ := bind_eq_ok.1 made
  cases built
  exact ⟨⟨_, rfl, rfl⟩, room⟩

/-- **Sessions.**  Wherever a history leads, if the device layer keeps its number of unknowns: the
engine is there.  Building it anew cannot fail and keeps the solution and the previous one, and the
session has counted the solves and the steps that found an engine for another mode.  There is a
context just if it is noted that it was read; it holds the last initial conditions that were
accepted, as they were resolved since, and the end values that the device layer had when the context
was read.  No command but a reset takes back that a solve has come to a result, and initial
conditions that are refused change nothing. -/
theorem session_of_history
    (constant : ∀ device, Device.Reaches layer device →
      Device.unknowns device = Device.unknowns layer)
    (made : new layer c o = .ok a₀) (history : List (Request α)) :
    let a := a₀.run history
    let past := a₀.visits history
    (∃ e, a.engine = some e ∧ e.unknowns = Device.unknowns layer) ∧
      Ends ensureBuilt a (fun _ a' ↦ a.Rebuilt a') (fun _ _ ↦ False) ∧
      a.session.rebuilds = past.countP Visit.changesMode ∧
      (a.context.isSome = true ↔ a.session.contextRead = true) ∧
      (∀ ctx, a.context = some ctx → ∃ read resolved,
        lastDevice Visit.readsContext past = some read ∧
          lastDevice Visit.resolves past = some resolved ∧
          ctx.Recalls o.modes (acceptedConditions past) read resolved) ∧
      (∀ request : Request α, a.session.firstSolveComplete = true →
        request ≠ ⟨Unit, .resetSession⟩ →
          (Step.after (perform request.2) a).session.firstSolveComplete = true) ∧
      ∀ conditions, Ends (setInitialConditions conditions) a (fun _ _ ↦ True)
        (fun _ a' ↦ a' = a) := by
  intro a past
  let I (n : Nat) : Rig δ α n → Prop := Rig.Laid layer (Free o) none none false
  have settles : ∀ n, Rig.Settles layer (Free o) (I n) := fun _ ↦ Rig.settles_laid
  obtain ⟨whole₀, room⟩ := whole_of_new made
  have kept₀ : a₀.Kept I c o := kept_of_new settles made
  have kept : a.Kept I c o := run_kept settles (owns_free o) kept₀ history
  obtain ⟨whole, recounted⟩ :=
    run_recounted settles (owns_free o) constant room kept₀ whole₀ (recounted_of_new made) history
  have recounted : Recounted o past a := recounted
  refine ⟨whole, ?_, recounted.rebuilds, by rw [recounted.noted], recounted.context, ?_, ?_⟩
  · exact (ensureBuilt_rebuilds settles constant room kept whole).mono (fun _ _ left ↦ left.1)
      fun _ _ no ↦ no
  · intro request complete other
    have turned := (perform_turned settles constant room kept whole request.2).isOk_after
      fun ended a' ↦ Turned layer o request.2 ended a a'
    exact (turned.complete complete).resolve_right other
  · intro conditions
    exact (setInitialConditions_turned (o := o) whole conditions).mono (fun _ _ _ ↦ trivial)
      fun _ _ same ↦ same

end Analysis

/-! ## Circuits -/

namespace Circuit

theorem unknowns_note (c : Circuit) (change : CircuitEvents → CircuitEvents) :
    (c.note change).unknowns = c.unknowns := by
  unfold note
  split <;> rfl

theorem unknowns_loadResidual {n : Nat} (c : Circuit) (x previous buffer : Vector Float n) :
    (c.loadResidual x previous buffer).device.unknowns = c.unknowns := by
  unfold loadResidual
  dsimp only
  split
  · exact unknowns_note _ _
  · split
    · exact unknowns_note _ _
    · split <;> exact unknowns_note _ _

theorem unknowns_loadJacobian {n : Nat} (c : Circuit) (x : Vector Float n)
    (buffer : Mat Float n n) :
    (c.loadJacobian x buffer).device.unknowns = c.unknowns := by
  unfold loadJacobian
  dsimp only
  split
  · exact unknowns_note _ _
  · split
    · exact unknowns_note _ _
    · split <;> exact unknowns_note _ _

theorem unknowns_setParameter (c : Circuit) (name : String) (value : Float) :
    (c.setParameter name value).2.unknowns = c.unknowns := by
  unfold setParameter
  dsimp only
  split <;> exact unknowns_note _ _

/-- A circuit has the same unknowns whatever is asked of it. -/
theorem unknowns_of_reaches {layer device : Circuit} (h : Device.Reaches layer device) :
    Device.unknowns device = Device.unknowns layer := by
  induction h with
  | refl => rfl
  | residual _ x previous buffer ih => exact (unknowns_loadResidual _ x previous buffer).trans ih
  | jacobian _ x _ buffer ih => exact (unknowns_loadJacobian _ x buffer).trans ih
  | parameter _ name value ih => exact (unknowns_setParameter _ name value).trans ih
  | accept _ x ih => exact (unknowns_note _ _).trans ih
  | abandon _ ih => exact (unknowns_note _ _).trans ih

end Circuit

namespace Analysis

/-- Options that leave the ends of some scales to the device layer. -/
def openScales : SolverOptions Float :=
  let standard : SolverOptions Float := .standard
  { standard with dcOp := Drive.openOptions }

-- What is said of the analysis is not to be compared by carrying out the history.
seal Ends in
/-- A solve is refused for conditions on a node that is not there, and another goes ahead with other
conditions.  Then the mode is changed. -/
theorem session_of_history_switched :
    let circuit : Circuit := { Drive.scaledCircuit with names := [("out", 0)] }
    let history : List (Request Float) :=
      [⟨_, .setInitialConditions (.ofList [("in", 1.0)])⟩, ⟨_, .solve⟩,
        ⟨_, .setInitialConditions (.ofList [("out", 2.0)])⟩, ⟨_, .solve⟩,
        ⟨_, .setMode .transient⟩, ⟨_, .step⟩, ⟨_, .setInitialConditions (.ofList [("in", 1.0)])⟩]
    ∃ a₀ : Analysis Circuit Float, new circuit .serial openScales = .ok a₀ ∧
      let a := a₀.run history
      let past := a₀.visits history
      (∃ e, a.engine = some e ∧ e.unknowns = 1) ∧ a.session.rebuilds = 1 ∧
        (acceptedConditions past).entries.map Prod.fst = ["out"] ∧
        (∃ ctx read resolved, a.context = some ctx ∧
          lastDevice Visit.readsContext past = some read ∧
          lastDevice Visit.resolves past = some resolved ∧
          ctx.Recalls openScales.modes (acceptedConditions past) read resolved) ∧
        (Step.after step a).session.firstSolveComplete = true ∧
        Ends (setInitialConditions (.ofList [("in", 1.0)])) a (fun _ _ ↦ False)
          (fun _ a' ↦ a' = a) := by
  intro circuit history
  have ran : Yields (new circuit .serial openScales : Except Stop (Analysis Circuit Float))
      fun a₀ ↦ (a₀.visits history).countP Visit.changesMode = 1 ∧
        (acceptedConditions (a₀.visits history)).entries.map Prod.fst = ["out"] ∧
        (a₀.run history).session.contextRead = true ∧
        (a₀.run history).session.firstSolveComplete = true ∧
        Ends (setInitialConditions (.ofList [("in", 1.0)])) (a₀.run history) (fun _ _ ↦ False)
          (fun _ _ ↦ True) := by
    decide +kernel
  obtain ⟨a₀, made, changes, accepted, read, complete, refused⟩ := ran.exists
  obtain ⟨whole, -, rebuilds, noted, context, kept, unchanged⟩ :=
    session_of_history (fun _ ↦ Circuit.unknowns_of_reaches) made history
  obtain ⟨ctx, there⟩ := Option.isSome_iff_exists.1 (noted.2 read)
  obtain ⟨read, resolved, recalls⟩ := context ctx there
  have other : (⟨_, .step⟩ : Request Float) ≠ ⟨Unit, .resetSession⟩ := fun same ↦
    absurd (congrArg (fun request ↦ request.2.computes) same) (by decide)
  refine ⟨a₀, made, whole, rebuilds.trans changes, accepted, ⟨ctx, read, resolved, there, recalls⟩,
    kept _ complete other, ?_⟩
  exact (refused.and (unchanged _)).mono (fun _ _ both ↦ both.1) fun _ _ both ↦ both.2

end Analysis

end OperatingPoint
