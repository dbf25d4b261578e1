import OperatingPoint.Scalar

/-!
# Continuation parameters

Named values in the order in which their names first came up.  Two names are reserved: values under
them do not go to the device layer, but to what is laid over it.
-/

set_option autoImplicit false

namespace OperatingPoint

/-- Named values, each name once. -/
structure Parameters (α : Type) where
  entries : List (String × α) := []
  deriving Repr

namespace Parameters

variable {α : Type}

/-- The name whose value is the progress variable of the attached strategy. -/
def progressName : String := "GSTEPPING"

/-- The name whose value is the blend between the start point and the device equations. -/
def blendName : String := "HOMOTOPY"

def length (p : Parameters α) : Nat := p.entries.length

def isEmpty (p : Parameters α) : Bool := p.entries.isEmpty

/-- The value under a name. -/
def get? (p : Parameters α) (name : String) : Option α := p.entries.lookup name

/-- Replaces the value under a name in a list of entries, or adds one at its end. -/
def insertInto (name : String) (value : α) : List (String × α) → List (String × α)
  | [] => [(name, value)]
  | entry :: rest =>
    if entry.1 = name then (entry.1, value) :: rest else entry :: insertInto name value rest

/-- Sets the value under a name.  A new name comes last. -/
def set (p : Parameters α) (name : String) (value : α) : Parameters α :=
  ⟨insertInto name value p.entries⟩

/-- Takes a name out. -/
def remove (p : Parameters α) (name : String) : Parameters α :=
  ⟨p.entries.eraseP fun entry ↦ entry.1 == name⟩

theorem get?_set (p : Parameters α) (name other : String) (value : α) :
    (p.set name value).get? other = if other = name then some value else p.get? other := by
  obtain ⟨entries⟩ := p
  simp only [get?, set]
  induction entries with
  | nil =>
    by_cases h : other = name <;> simp [insertInto, List.lookup_cons, h, beq_eq_false_iff_ne.mpr]
  | cons entry rest ih =>
    obtain ⟨key, old⟩ := entry
    by_cases hk : key = name
    · subst hk
      by_cases ho : other = key
      · simp [insertInto, ho]
      · simp [insertInto, List.lookup_cons, ho, beq_eq_false_iff_ne.mpr ho]
    · by_cases ho : other = key
      · subst ho
        simp [insertInto, hk]
      · simp [insertInto, hk, List.lookup_cons, beq_eq_false_iff_ne.mpr ho, ih]

end Parameters

end OperatingPoint
