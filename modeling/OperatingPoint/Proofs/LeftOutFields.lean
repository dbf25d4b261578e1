import Mathlib.Data.List.Forall2
import OperatingPoint.Options.Writing
import OperatingPoint.Proofs.ExactScalars

/-!
# Fields that a document leaves out

Options are read from a document that names some of their fields.  A field is known by its path
through the records, as they are written; `Document.leaf?` is the value there, and
`Document.given?` is what a document says there, be its records given by names or as lists.

A field that is left out has the value that it has in the standard record it stands in.  This need
not be its value in the standard options: a sweep that is given at all has no name unless it is
given one, since only the records around it name it, and a transient that is given has the Newton
budget of the other modes.  `SolverOptions.leftOut` is the standard options with these changes, and
a document that is read as options has its values at all the fields that it does not name.
-/

set_option autoImplicit false

namespace OperatingPoint

open Document

variable {α β : Type}

/-! ## Paths in documents -/

namespace Document

def isRecord : Document α → Bool
  | record _ => true
  | _ => false

/-- The names of the fields of a record. -/
def names : Document α → List String
  | record fields => fields.map Prod.fst
  | _ => []

/-- What a document says of a field of a written record.  It may list the fields in their order. -/
def field? (d written : Document α) (name : String) : Option (Document α) :=
  match d with
  | record fields => lookup name fields
  | list items => items[written.names.idxOf name]?
  | _ => none

/-- The value at the end of a path of fields, if that is no record. -/
def leaf? : List String → Document α → Option (Document α)
  | [], d => if d.isRecord then none else some d
  | name :: path, record fields => (fields.lookup name).bind (leaf? path)
  | _ :: _, _ => none

/-- What a document says at the end of a path of fields of a written record. -/
def given? : (written : Document α) → List String → Document α → Option (Document α)
  | _, [], d => some d
  | record fields, name :: path, d =>
    (fields.lookup name).bind fun inner ↦ (d.field? (record fields) name).bind (given? inner path)
  | _, _ :: _, _ => none

/-- Wherever nothing is given, `o` has the value that `rest` has. -/
def Keeps (written : Document α) (given : Option (Document α)) (rest o : Document α) : Prop :=
  ∀ path v, rest.leaf? path = some v → given.bind (given? written path) = none →
    o.leaf? path = some v

/-- Fields in a row, each of which keeps to what is given of it. -/
inductive FieldsKeep (given : String → Option (Document α)) :
    (written rest o : List (String × Document α)) → Prop
  | nil : FieldsKeep given [] [] []
  | cons {name : String} {w r o : Document α} {ws rs os : List (String × Document α)}
      (first : Keeps w (given name) r o) (others : FieldsKeep given ws rs os) :
      FieldsKeep given ((name, w) :: ws) ((name, r) :: rs) ((name, o) :: os)

variable {d o r w : Document α} {ws rs os : List (String × Document α)} {name : String}
  {given : String → Option (Document α)} {g : Option (Document α)}

theorem FieldsKeep.lookup (h : FieldsKeep given ws rs os) (name : String) :
    rs.lookup name = none ∨
      ∃ w r o, ws.lookup name = some w ∧ rs.lookup name = some r ∧ os.lookup name = some o ∧
        Keeps w (given name) r o := by
  induction h with
  | nil => exact .inl rfl
  | @cons first w r o ws rs os keeps others ih =>
    rw [List.lookup_cons, List.lookup_cons, List.lookup_cons]
    cases same : name == first with
    | false => exact ih
    | true =>
      obtain rfl := eq_of_beq same
      exact .inr ⟨w, r, o, rfl, rfl, rfl, keeps⟩

/-- A record keeps what its fields keep. -/
theorem Keeps.record (fields : FieldsKeep (d.field? (.record ws)) ws rs os) :
    Keeps (.record ws) (some d) (.record rs) (.record os) := by
  intro path v there unnamed
  cases path with
  | nil => cases there
  | cons name path =>
    rw [leaf?] at there ⊢
    rcases fields.lookup name with missing | ⟨w, r, o, hw, hr, ho, keeps⟩
    · rw [missing] at there
      cases there
    · rw [hr] at there
      rw [Option.bind_some, given?, hw, Option.bind_some] at unnamed
      rw [ho]
      exact keeps path v there unnamed

/-! ### Fields that are read -/

section

variable {read : Document α → Option β} {standard b : β}

theorem fieldOr_none (h : fieldOr none read standard = some b) : b = standard :=
  (Option.some.inj h).symm

/-- A field that is read as a whole. -/
theorem FieldsKeep.value (h : fieldOr g read standard = some b) (same : g = given name)
    (alike : b = standard → o = r) (whole : r.isRecord = false)
    (others : FieldsKeep given ws rs os) :
    FieldsKeep given ((name, w) :: ws) ((name, r) :: rs) ((name, o) :: os) := by
  refine .cons (fun path v there unnamed ↦ ?_) others
  cases path with
  | nil =>
    rw [← same] at unnamed
    cases g with
    | none =>
      rw [alike (fieldOr_none h)]
      exact there
    | some d => cases unnamed
  | cons first path =>
    cases r with
    | record fields => cases whole
    | _ => cases there

/-- A field that is a record.  What is left out of it depends on whether it is given itself. -/
theorem FieldsKeep.nested (rest : Option (Document α) → Document α)
    (h : fieldOr g read standard = some b) (same : g = given name)
    (alike : b = standard → o = rest none)
    (inner : ∀ d, read d = some b → Keeps w (some d) (rest (some d)) o)
    (others : FieldsKeep given ws rs os) :
    FieldsKeep given ((name, w) :: ws) ((name, rest (given name)) :: rs) ((name, o) :: os) := by
  refine .cons ?_ others
  rw [← same]
  cases g with
  | none =>
    rw [alike (fieldOr_none h)]
    exact fun _ _ there _ ↦ there
  | some d => exact inner d h

/-- A reader finds a field under its place or its name. -/
theorem fields?_eq {field : Nat → String → Option (Document α)} {place : Nat}
    (h : d.fields? w.names.length = some field) (there : w.names.idxOf name = place) :
    field place name = d.field? w name := by
  unfold fields? at h
  split at h
  · cases h
    rfl
  · split at h
    · cases h
      rw [field?, there]
    · cases h
  · cases h

end

/-! ### Documents that differ at few fields -/

/-- Two documents with the same values but at some paths. -/
def AlikeBut (E : List String → Prop) (a b : Document α) : Prop :=
  ∀ path, ¬ E path → a.leaf? path = b.leaf? path

theorem AlikeBut.refl (E : List String → Prop) (a : Document α) : AlikeBut E a a := fun _ _ ↦ rfl

theorem AlikeBut.record {E : List String → Prop}
    (h : List.Forall₂ (fun r o ↦ r.1 = o.1 ∧ AlikeBut (fun path ↦ E (r.1 :: path)) r.2 o.2) rs os) :
    AlikeBut E (.record rs) (.record os) := by
  intro path other
  cases path with
  | nil => rfl
  | cons name path =>
    rw [leaf?, leaf?]
    induction h with
    | nil => rfl
    | @cons r o rs os both _ ih =>
      rw [List.lookup_cons, List.lookup_cons, ← both.1]
      cases same : name == r.1 with
      | false => exact ih
      | true =>
        obtain rfl := eq_of_beq same
        exact both.2 path other

end Document

/-! ## Records without records in them -/

variable [Scalar α] {d : Document α}

theorem NewtonOptions.read_keeps (written : NewtonOptions α) {o : NewtonOptions α}
    (h : read d = some o) : Keeps written.write (some d) (standard (α := α)).write o.write := by
  obtain ⟨field, fields, h⟩ := Option.bind_eq_some_iff.1 h
  obtain ⟨_, h₀, h⟩ := Option.bind_eq_some_iff.1 h
  obtain ⟨_, h₁, h⟩ := Option.bind_eq_some_iff.1 h
  obtain ⟨_, h₂, h⟩ := Option.bind_eq_some_iff.1 h
  obtain ⟨_, h₃, h⟩ := Option.bind_eq_some_iff.1 h
  obtain ⟨_, h₄, h⟩ := Option.bind_eq_some_iff.1 h
  obtain ⟨_, h₅, h⟩ := Option.bind_eq_some_iff.1 h
  obtain ⟨_, h₆, h⟩ := Option.bind_eq_some_iff.1 h
  obtain ⟨_, h₇, h⟩ := Option.bind_eq_some_iff.1 h
  obtain ⟨_, h₈, h⟩ := Option.bind_eq_some_iff.1 h
  obtain ⟨_, h₉, h⟩ := Option.bind_eq_some_iff.1 h
  obtain ⟨_, h₁₀, h⟩ := Option.bind_eq_some_iff.1 h
  obtain ⟨_, h₁₁, h⟩ := Option.bind_eq_some_iff.1 h
  obtain ⟨_, h₁₂, h⟩ := Option.bind_eq_some_iff.1 h
  obtain ⟨_, h₁₃, h⟩ := Option.bind_eq_some_iff.1 h
  obtain ⟨_, h₁₄, h⟩ := Option.bind_eq_some_iff.1 h
  obtain ⟨_, h₁₅, h⟩ := Option.bind_eq_some_iff.1 h
  obtain ⟨_, h₁₆, h⟩ := Option.bind_eq_some_iff.1 h
  cases h
  exact .record <|
    .value h₀ (fields?_eq fields rfl) (congrArg _) rfl <|
    .value h₁ (fields?_eq fields rfl) (congrArg _) rfl <|
    .value h₂ (fields?_eq fields rfl) (fun same ↦ same ▸ rfl) rfl <|
    .value h₃ (fields?_eq fields rfl) (congrArg _) rfl <|
    .value h₄ (fields?_eq fields rfl) (congrArg _) rfl <|
    .value h₅ (fields?_eq fields rfl) (congrArg _) rfl <|
    .value h₆ (fields?_eq fields rfl) (congrArg _) rfl <|
    .value h₇ (fields?_eq fields rfl) (congrArg _) rfl <|
    .value h₈ (fields?_eq fields rfl) (congrArg _) rfl <|
    .value h₉ (fields?_eq fields rfl) (congrArg _) rfl <|
    .value h₁₀ (fields?_eq fields rfl) (congrArg _) rfl <|
    .value h₁₁ (fields?_eq fields rfl) (congrArg _) rfl <|
    .value h₁₂ (fields?_eq fields rfl) (congrArg _) rfl <|
    .value h₁₃ (fields?_eq fields rfl) (congrArg _) rfl <|
    .value h₁₄ (fields?_eq fields rfl) (congrArg _) rfl <|
    .value h₁₅ (fields?_eq fields rfl) (congrArg _) rfl <|
    .value h₁₆ (fields?_eq fields rfl) (congrArg _) rfl .nil

theorem LinearOptions.read_keeps (written : LinearOptions α) {o : LinearOptions α}
    (h : read d = some o) : Keeps written.write (some d) (standard (α := α)).write o.write := by
  simp only [read, Option.bind_eq_bind, Option.bind_eq_some_iff, Option.pure_def,
    Option.some.injEq] at h
  obtain ⟨field, fields, _, h₀, _, h₁, rfl⟩ := h
  exact .record <|
    .value h₀ (fields?_eq fields rfl) (congrArg _) rfl <|
    .value h₁ (fields?_eq fields rfl) (fun same ↦ same ▸ rfl) rfl .nil

theorem Sweep.read_keeps (written : Sweep α) {o : Sweep α} (h : read d = some o) :
    Keeps written.write (some d) (standard (α := α)).write o.write := by
  simp only [read, Option.bind_eq_bind, Option.bind_eq_some_iff, Option.pure_def,
    Option.some.injEq] at h
  obtain ⟨field, fields, _, h₀, _, h₁, _, h₂, _, h₃, _, h₄, _, h₅, _, h₆, _, h₇, rfl⟩ := h
  exact .record <|
    .value h₀ (fields?_eq fields rfl) (congrArg _) rfl <|
    .value h₁ (fields?_eq fields rfl) (congrArg _) rfl <|
    .value h₂ (fields?_eq fields rfl) (congrArg _) rfl <|
    .value h₃ (fields?_eq fields rfl) (congrArg _) rfl <|
    .value h₄ (fields?_eq fields rfl) (congrArg _) rfl <|
    .value h₅ (fields?_eq fields rfl) (congrArg _) rfl <|
    .value h₆ (fields?_eq fields rfl) (congrArg _) rfl <|
    .value h₇ (fields?_eq fields rfl) (congrArg _) rfl .nil

theorem GminOptions.read_keeps {o : GminOptions α} (h : read d = some o) :
    Keeps standard.write (some d) (standard (α := α)).write o.write := by
  simp only [read, Option.bind_eq_bind, Option.bind_eq_some_iff, Option.pure_def,
    Option.some.injEq] at h
  obtain ⟨field, fields, _, h₀, _, h₁, _, h₂, _, h₃, _, h₄, _, h₅, _, h₆, rfl⟩ := h
  exact .record <|
    .value h₀ (fields?_eq fields rfl) (congrArg _) rfl <|
    .value h₁ (fields?_eq fields rfl) (congrArg _) rfl <|
    .value h₂ (fields?_eq fields rfl) (congrArg _) rfl <|
    .value h₃ (fields?_eq fields rfl) (congrArg _) rfl <|
    .value h₄ (fields?_eq fields rfl) (congrArg _) rfl <|
    .value h₅ (fields?_eq fields rfl) (congrArg _) rfl <|
    .value h₆ (fields?_eq fields rfl) (congrArg _) rfl .nil

theorem MarchOptions.read_keeps {o : MarchOptions α} (h : read d = some o) :
    Keeps standard.write (some d) (standard (α := α)).write o.write := by
  simp only [read, Option.bind_eq_bind, Option.bind_eq_some_iff, Option.pure_def,
    Option.some.injEq] at h
  obtain ⟨field, fields, _, h₀, _, h₁, _, h₂, _, h₃, _, h₄, _, h₅, _, h₆, rfl⟩ := h
  exact .record <|
    .value h₀ (fields?_eq fields rfl) (congrArg _) rfl <|
    .value h₁ (fields?_eq fields rfl) (congrArg _) rfl <|
    .value h₂ (fields?_eq fields rfl) (congrArg _) rfl <|
    .value h₃ (fields?_eq fields rfl) (congrArg _) rfl <|
    .value h₄ (fields?_eq fields rfl) (congrArg _) rfl <|
    .value h₅ (fields?_eq fields rfl) (congrArg _) rfl <|
    .value h₆ (fields?_eq fields rfl) (congrArg _) rfl .nil

omit [Scalar α] in
theorem CodeTable.read_keeps {o : CodeTable} (h : read d = some o) :
    Keeps (write {}) (some d) (write {}) o.write := by
  simp only [read, Option.bind_eq_bind, Option.bind_eq_some_iff, Option.pure_def,
    Option.some.injEq] at h
  obtain ⟨field, fields, _, h₀, _, h₁, _, h₂, _, h₃, _, h₄, _, h₅, _, h₆, _, h₇, _, h₈, _, h₉,
    rfl⟩ := h
  exact .record <|
    .value h₀ (fields?_eq fields rfl) (congrArg _) rfl <|
    .value h₁ (fields?_eq fields rfl) (congrArg _) rfl <|
    .value h₂ (fields?_eq fields rfl) (congrArg _) rfl <|
    .value h₃ (fields?_eq fields rfl) (congrArg _) rfl <|
    .value h₄ (fields?_eq fields rfl) (congrArg _) rfl <|
    .value h₅ (fields?_eq fields rfl) (congrArg _) rfl <|
    .value h₆ (fields?_eq fields rfl) (congrArg _) rfl <|
    .value h₇ (fields?_eq fields rfl) (congrArg _) rfl <|
    .value h₈ (fields?_eq fields rfl) (congrArg _) rfl <|
    .value h₉ (fields?_eq fields rfl) (congrArg _) rfl .nil

theorem Window.read_keeps {o : Window α} (h : read d = some o) :
    Keeps standard.write (some d) (standard (α := α)).write o.write := by
  simp only [read, Option.bind_eq_bind, Option.bind_eq_some_iff, Option.pure_def,
    Option.some.injEq] at h
  obtain ⟨field, fields, _, h₀, _, h₁, rfl⟩ := h
  exact .record <|
    .value h₀ (fields?_eq fields rfl) (congrArg _) rfl <|
    .value h₁ (fields?_eq fields rfl) (congrArg _) rfl .nil

/-! ## Records in records -/

/-- A sweep that is given has no name but the one it is given. -/
def Sweep.leftOut (o : Sweep α) : Option (Document α) → Sweep α
  | none => o
  | some _ => { o with name := "" }

def DeviceSweeps.leftOut (o : DeviceSweeps α) : Option (Document α) → DeviceSweeps α
  | none => o
  | some d => { o with
    gain := o.gain.leftOut (d.field? o.write "gain")
    nonlinear := o.nonlinear.leftOut (d.field? o.write "nonlinear")
    size := o.size.leftOut (d.field? o.write "size") }

def ContinuationOptions.leftOut (o : ContinuationOptions α) :
    Option (Document α) → ContinuationOptions α
  | none => o
  | some d => { o with
    device := o.device.leftOut (d.field? o.write "device")
    source := o.source.leftOut (d.field? o.write "source")
    homotopy := o.homotopy.leftOut (d.field? o.write "homotopy") }

/-- A mode that is given has the Newton budget that modes have by themselves. -/
def ModeOptions.leftOut (o : ModeOptions α) : Option (Document α) → ModeOptions α
  | none => o
  | some d => { o with
    nonlinear := { o.nonlinear with maxSteps := NewtonOptions.standard (α := α).maxSteps }
    continuation := o.continuation.leftOut (d.field? o.write "continuation") }

/-- The values of the fields that a document leaves out. -/
def SolverOptions.leftOut (d : Document α) : SolverOptions α :=
  let o : SolverOptions α := standard
  { o with
    dcOp := o.dcOp.leftOut (d.field? o.write "dc_op")
    dcSweep := o.dcSweep.leftOut (d.field? o.write "dc_sweep")
    transient := o.transient.leftOut (d.field? o.write "transient") }

theorem DeviceSweeps.read_keeps {o : DeviceSweeps α} (h : read d = some o) :
    Keeps standard.write (some d) (standard.leftOut (some d)).write o.write := by
  simp only [read, Option.bind_eq_bind, Option.bind_eq_some_iff, Option.pure_def,
    Option.some.injEq] at h
  obtain ⟨field, fields, _, h₀, _, h₁, _, h₂, _, h₃, rfl⟩ := h
  let o : DeviceSweeps α := standard
  exact .record <|
    .nested (fun g ↦ (o.gain.leftOut g).write) h₀ (fields?_eq fields rfl) (congrArg _)
      (fun _ ↦ Sweep.read_keeps _) <|
    .nested (fun g ↦ (o.nonlinear.leftOut g).write) h₁ (fields?_eq fields rfl) (congrArg _)
      (fun _ ↦ Sweep.read_keeps _) <|
    .nested (fun g ↦ (o.size.leftOut g).write) h₂ (fields?_eq fields rfl) (congrArg _)
      (fun _ ↦ Sweep.read_keeps _) <|
    .value h₃ (fields?_eq fields rfl) (fun same ↦ same ▸ rfl) rfl .nil

theorem ContinuationOptions.read_keeps {o : ContinuationOptions α} (h : read d = some o) :
    Keeps standard.write (some d) (standard.leftOut (some d)).write o.write := by
  simp only [read, Option.bind_eq_bind, Option.bind_eq_some_iff, Option.pure_def,
    Option.some.injEq] at h
  obtain ⟨field, fields, _, h₀, _, h₁, _, h₂, _, h₃, _, h₄, _, h₅, _, h₆, _, h₇, rfl⟩ := h
  let o : ContinuationOptions α := standard
  exact .record <|
    .value h₀ (fields?_eq fields rfl) (fun same ↦ same ▸ rfl) rfl <|
    .value h₁ (fields?_eq fields rfl) (fun same ↦ same ▸ rfl) rfl <|
    .nested (fun g ↦ (o.device.leftOut g).write) h₂ (fields?_eq fields rfl) (congrArg _)
      (fun _ ↦ DeviceSweeps.read_keeps) <|
    .nested (fun g ↦ (o.source.leftOut g).write) h₃ (fields?_eq fields rfl) (congrArg _)
      (fun _ ↦ Sweep.read_keeps _) <|
    .nested (fun _ ↦ o.gmin.write) h₄ (fields?_eq fields rfl) (congrArg _)
      (fun _ ↦ GminOptions.read_keeps) <|
    .nested (fun _ ↦ o.pseudoTransient.write) h₅ (fields?_eq fields rfl) (congrArg _)
      (fun _ ↦ MarchOptions.read_keeps) <|
    .nested (fun g ↦ (o.homotopy.leftOut g).write) h₆ (fields?_eq fields rfl) (congrArg _)
      (fun _ ↦ Sweep.read_keeps _) <|
    .value h₇ (fields?_eq fields rfl) (congrArg _) rfl .nil

theorem ModeOptions.read_keeps (written : NewtonOptions α) {o : ModeOptions α}
    (h : read d = some o) :
    Keeps { standard with nonlinear := written : ModeOptions α }.write (some d)
      (standard.leftOut (some d)).write o.write := by
  simp only [read, Option.bind_eq_bind, Option.bind_eq_some_iff, Option.pure_def,
    Option.some.injEq] at h
  obtain ⟨field, fields, _, h₀, _, h₁, _, h₂, rfl⟩ := h
  let o : ModeOptions α := standard
  exact .record <|
    .nested (fun _ ↦ o.nonlinear.write) h₀ (fields?_eq fields rfl) (congrArg _)
      (fun _ ↦ NewtonOptions.read_keeps _) <|
    .nested (fun _ ↦ o.linear.write) h₁ (fields?_eq fields rfl) (congrArg _)
      (fun _ ↦ LinearOptions.read_keeps _) <|
    .nested (fun g ↦ (o.continuation.leftOut g).write) h₂ (fields?_eq fields rfl) (congrArg _)
      (fun _ ↦ ContinuationOptions.read_keeps) .nil

theorem SolverOptions.read_keeps {o : SolverOptions α} (h : read d = some o) :
    Keeps standard.write (some d) (leftOut d).write o.write := by
  simp only [read, Option.bind_eq_bind, Option.bind_eq_some_iff, Option.pure_def,
    Option.some.injEq] at h
  obtain ⟨field, fields, _, h₀, _, h₁, _, h₂, _, h₃, _, h₄, rfl⟩ := h
  let o : SolverOptions α := standard
  exact .record <|
    .nested (fun g ↦ (o.dcOp.leftOut g).write) h₀ (fields?_eq fields rfl) (congrArg _)
      (fun _ ↦ ModeOptions.read_keeps _) <|
    .nested (fun g ↦ (o.dcSweep.leftOut g).write) h₁ (fields?_eq fields rfl) (congrArg _)
      (fun _ ↦ ModeOptions.read_keeps _) <|
    .nested (fun g ↦ (o.transient.leftOut g).write) h₂ (fields?_eq fields rfl) (congrArg _)
      (fun _ ↦ ModeOptions.read_keeps _) <|
    .nested (fun _ ↦ o.codes.write) h₃ (fields?_eq fields rfl) (fun same ↦ same ▸ rfl)
      (fun _ ↦ CodeTable.read_keeps) <|
    .nested (fun _ ↦ o.window.write) h₄ (fields?_eq fields rfl) (congrArg _)
      (fun _ ↦ Window.read_keeps) .nil

/-! ## Standard values -/

/-- The sweeps of a continuation. -/
def namedSweeps : List (List String) :=
  [["device", "gain"], ["device", "nonlinear"], ["device", "size"], ["source"], ["homotopy"]]

def modeFields : List String := ["dc_op", "dc_sweep", "transient"]

/-- The sweeps of all modes. -/
def sweepsOfModes : List (List String) :=
  modeFields.flatMap fun mode ↦ namedSweeps.map fun sweep ↦ mode :: "continuation" :: sweep

/-- The Newton budget of the transient. -/
def transientBudget : List String := ["transient", "nonlinear", "max_steps"]

/-- The fields of standard options that are not as their own record has them. -/
def setFromAround : List (List String) :=
  transientBudget :: sweepsOfModes.map (· ++ ["name"])

section

variable {E : List String → Prop}

omit [Scalar α] in
theorem Sweep.leftOut_alike (o : Sweep α) (g : Option (Document α)) (named : E ["name"]) :
    AlikeBut E (o.leftOut g).write o.write := by
  cases g with
  | none => exact .refl E _
  | some d =>
    refine .record (.cons ⟨rfl, fun path other ↦ ?_⟩
      (List.forall₂_same.mpr fun _ _ ↦ ⟨rfl, .refl _ _⟩))
    cases path with
    | nil => exact absurd named other
    | cons _ _ => rfl

omit [Scalar α] in
theorem DeviceSweeps.leftOut_alike (o : DeviceSweeps α) (g : Option (Document α))
    (gain : E ["gain", "name"]) (nonlinear : E ["nonlinear", "name"]) (size : E ["size", "name"]) :
    AlikeBut E (o.leftOut g).write o.write := by
  cases g with
  | none => exact .refl E _
  | some d =>
    exact .record <|
      .cons ⟨rfl, o.gain.leftOut_alike _ gain⟩ <|
      .cons ⟨rfl, o.nonlinear.leftOut_alike _ nonlinear⟩ <|
      .cons ⟨rfl, o.size.leftOut_alike _ size⟩ <|
      .cons ⟨rfl, .refl _ _⟩ .nil

omit [Scalar α] in
theorem ContinuationOptions.leftOut_alike (o : ContinuationOptions α) (g : Option (Document α))
    (named : ∀ sweep ∈ namedSweeps, E (sweep ++ ["name"])) :
    AlikeBut E (o.leftOut g).write o.write := by
  cases g with
  | none => exact .refl E _
  | some d =>
    have device (name : String) (there : ["device", name] ∈ namedSweeps) :
        E ["device", name, "name"] := named _ there
    exact .record <|
      .cons ⟨rfl, .refl _ _⟩ <| .cons ⟨rfl, .refl _ _⟩ <|
      .cons ⟨rfl, o.device.leftOut_alike _ (device "gain" (by decide))
        (device "nonlinear" (by decide)) (device "size" (by decide))⟩ <|
      .cons ⟨rfl, o.source.leftOut_alike _ (named ["source"] (by decide))⟩ <|
      .cons ⟨rfl, .refl _ _⟩ <| .cons ⟨rfl, .refl _ _⟩ <|
      .cons ⟨rfl, o.homotopy.leftOut_alike _ (named ["homotopy"] (by decide))⟩ <|
      .cons ⟨rfl, .refl _ _⟩ .nil

theorem ModeOptions.leftOut_alike (o : ModeOptions α) (g : Option (Document α))
    (budget : o.nonlinear.maxSteps = NewtonOptions.standard (α := α).maxSteps ∨
      E ["nonlinear", "max_steps"])
    (named : ∀ sweep ∈ namedSweeps, E ("continuation" :: (sweep ++ ["name"]))) :
    AlikeBut E (o.leftOut g).write o.write := by
  cases g with
  | none => exact .refl E _
  | some d =>
    refine .record <| .cons ⟨rfl, .record <| .cons ⟨rfl, fun path other ↦ ?_⟩
      (List.forall₂_same.mpr fun _ _ ↦ ⟨rfl, .refl _ _⟩)⟩ <| .cons ⟨rfl, .refl _ _⟩ <|
      .cons ⟨rfl, o.continuation.leftOut_alike _ named⟩ .nil
    rcases budget with same | set
    · rw [same]
      rfl
    · cases path with
      | nil => exact absurd set other
      | cons _ _ => rfl

/-- What is left out has its value in the standard options, but for the fields that are set from
around. -/
theorem SolverOptions.leftOut_alike (d : Document α) :
    AlikeBut (· ∈ setFromAround) (leftOut d).write standard.write := by
  let o : SolverOptions α := standard
  have named (mode : String) (h : mode ∈ modeFields) :
      ∀ sweep ∈ namedSweeps, mode :: "continuation" :: (sweep ++ ["name"]) ∈ setFromAround :=
    fun sweep there ↦ List.mem_cons_of_mem _ <| List.mem_map.mpr
      ⟨_, List.mem_flatMap.mpr ⟨mode, h, List.mem_map.mpr ⟨sweep, there, rfl⟩⟩, rfl⟩
  exact .record <|
    .cons ⟨rfl, o.dcOp.leftOut_alike _ (.inl rfl) (named "dc_op" (by decide))⟩ <|
    .cons ⟨rfl, o.dcSweep.leftOut_alike _ (.inl rfl) (named "dc_sweep" (by decide))⟩ <|
    .cons ⟨rfl, o.transient.leftOut_alike _ (.inr (List.mem_cons_self ..))
      (named "transient" (by decide))⟩ <|
    .cons ⟨rfl, .refl _ _⟩ <| .cons ⟨rfl, .refl _ _⟩ .nil

end

/-- The sweep at the end of a path loses its name if it is given. -/
def NameGoes (written : Document α) (given : Option (Document α)) (rest : Document α)
    (sweep : List String) : Prop :=
  rest.leaf? (sweep ++ ["name"]) = if (given.bind (given? written sweep)).isSome
    then some (text "") else written.leaf? (sweep ++ ["name"])

section

variable {ws rs : List (String × Document α)} {w r : Document α} {name : String}

omit [Scalar α] in
theorem NameGoes.inner {sweep : List String} (hw : ws.lookup name = some w)
    (hr : rs.lookup name = some r) (h : NameGoes w (d.field? (.record ws) name) r sweep) :
    NameGoes (.record ws) (some d) (.record rs) (name :: sweep) := by
  unfold NameGoes at h ⊢
  rw [List.cons_append, leaf?, leaf?, hw, hr, Option.bind_some, Option.bind_some, given?, hw,
    Option.bind_some]
  exact h

omit [Scalar α] in
theorem Sweep.leftOut_name (o : Sweep α) (g : Option (Document α)) :
    NameGoes o.write g (o.leftOut g).write [] := by
  cases g <;> rfl

omit [Scalar α] in
theorem DeviceSweeps.leftOut_name (o : DeviceSweeps α) (g : Option (Document α)) :
    ∀ name ∈ ["gain", "nonlinear", "size"], NameGoes o.write g (o.leftOut g).write [name] := by
  cases g with
  | none => exact fun _ _ ↦ rfl
  | some d =>
    simp only [List.forall_mem_cons]
    exact ⟨.inner rfl rfl (o.gain.leftOut_name _), .inner rfl rfl (o.nonlinear.leftOut_name _),
      .inner rfl rfl (o.size.leftOut_name _), by simp⟩

omit [Scalar α] in
theorem ContinuationOptions.leftOut_name (o : ContinuationOptions α) (g : Option (Document α)) :
    ∀ sweep ∈ namedSweeps, NameGoes o.write g (o.leftOut g).write sweep := by
  cases g with
  | none => exact fun _ _ ↦ rfl
  | some d =>
    have device (name : String) (h : name ∈ ["gain", "nonlinear", "size"]) :
        NameGoes o.write (some d) (o.leftOut (some d)).write ["device", name] :=
      .inner rfl rfl (o.device.leftOut_name _ name h)
    simp only [namedSweeps, List.forall_mem_cons]
    exact ⟨device _ (by decide), device _ (by decide), device _ (by decide),
      .inner rfl rfl (o.source.leftOut_name _), .inner rfl rfl (o.homotopy.leftOut_name _),
      by simp⟩

theorem ModeOptions.leftOut_name (o : ModeOptions α) (g : Option (Document α)) :
    ∀ sweep ∈ namedSweeps, NameGoes o.write g (o.leftOut g).write ("continuation" :: sweep) := by
  cases g with
  | none => exact fun _ _ ↦ rfl
  | some d => exact fun sweep there ↦ .inner rfl rfl (o.continuation.leftOut_name _ sweep there)

theorem SolverOptions.leftOut_name (d : Document α) :
    ∀ sweep ∈ sweepsOfModes, NameGoes standard.write (some d) (leftOut d).write sweep := by
  let o : SolverOptions α := standard
  intro sweep there
  obtain ⟨mode, known, there⟩ := List.mem_flatMap.mp there
  obtain ⟨sweep, inner, rfl⟩ := List.mem_map.mp there
  simp only [modeFields, List.mem_cons, List.not_mem_nil, or_false] at known
  rcases known with rfl | rfl | rfl
  · exact .inner rfl rfl (o.dcOp.leftOut_name _ sweep inner)
  · exact .inner rfl rfl (o.dcSweep.leftOut_name _ sweep inner)
  · exact .inner rfl rfl (o.transient.leftOut_name _ sweep inner)

end

theorem SolverOptions.leftOut_budget (d : Document α) :
    (leftOut d).write.leaf? transientBudget =
      some (count (if (given? standard.write ["transient"] d).isSome then 200 else 20)) := by
  let o : SolverOptions α := standard
  have inner (g : Option (Document α)) : leaf? ["nonlinear", "max_steps"]
      (o.transient.leftOut g).write = some (count (if g.isSome then 200 else 20)) := by
    cases g <;> rfl
  have around : given? o.write ["transient"] d = d.field? o.write "transient" :=
    Option.bind_fun_some _
  rw [around]
  exact inner _

theorem SolverOptions.standard_named :
    ∀ sweep ∈ sweepsOfModes, ∃ v, (standard (α := α)).write.leaf? (sweep ++ ["name"]) = some v :=
  fun sweep there ↦ Option.isSome_iff_exists.mp (List.all_eq_true.mp
    (rfl : (sweepsOfModes.all fun sweep ↦
      ((standard (α := α)).write.leaf? (sweep ++ ["name"])).isSome) = true) sweep there)

/-- A field that an accepted document does not name has its standard value, unless it is set from
around: a sweep that is given without its name has none, and a transient that is given has the
Newton budget of the other modes. -/
theorem SolverOptions.read_unnamed {o : SolverOptions α} (h : read d = some o) :
    (∀ path v, path ∉ setFromAround → standard.write.leaf? path = some v →
      given? standard.write path d = none → o.write.leaf? path = some v) ∧
    (∀ sweep ∈ sweepsOfModes, given? standard.write (sweep ++ ["name"]) d = none →
      o.write.leaf? (sweep ++ ["name"]) = if (given? standard.write sweep d).isSome
        then some (text "") else standard.write.leaf? (sweep ++ ["name"])) ∧
    (given? standard.write transientBudget d = none → o.write.leaf? transientBudget =
      some (count (if (given? standard.write ["transient"] d).isSome then 200 else 20))) := by
  have keeps := read_keeps h
  refine ⟨fun path v other there unnamed ↦ ?_, fun sweep there unnamed ↦ ?_, fun unnamed ↦ ?_⟩
  · exact keeps path v (leftOut_alike d path other ▸ there) unnamed
  · obtain ⟨v, standing⟩ := standard_named (α := α) sweep there
    have named := leftOut_name d sweep there
    unfold NameGoes at named
    rw [Option.bind_some, standing, ← apply_ite some] at named
    rw [standing, ← apply_ite some]
    exact keeps _ _ named unnamed
  · exact keeps _ _ (leftOut_budget d) unnamed

/-- A transient with one tolerance and a source ramp with one step, both without what the standard
options have beside them. -/
def rampedTransient : Document ExtendedRat :=
  record [("transient", record [
    ("nonlinear", record [("rhs_tol", fraction 1e-7)]),
    ("continuation", record [("source", record [("initial_step", fraction 0.5)])])])]

theorem SolverOptions.read_rampedTransient : ∃ o, read rampedTransient = some o ∧
    o.write.leaf? ["dc_op", "nonlinear", "max_steps"] = some (count 200) ∧
    o.write.leaf? ["transient", "continuation", "source", "name"] = some (text "") ∧
    o.write.leaf? transientBudget = some (count 200) := by
  obtain ⟨o, h⟩ := Option.isSome_iff_exists.mp (rfl : (read rampedTransient).isSome = true)
  obtain ⟨plain, named, budget⟩ := read_unnamed h
  refine ⟨o, h, plain _ _ (by decide) rfl rfl, ?_, budget rfl⟩
  exact named ["transient", "continuation", "source"] (by decide) rfl

end OperatingPoint
