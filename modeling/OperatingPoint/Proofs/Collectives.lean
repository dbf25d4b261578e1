import OperatingPoint.Reduction

/-!
# Collectives of a job

A `Communicator` is what one rank sees of a job.  Here the ranks are seen together.  A computation
of one rank is a `Collective`: a call of a collective, and what is done with its answer.  In a job
all ranks make the same calls in the same order, and each call is answered from what all of them
contribute: `Collective.job`.

A `Norm` is a norm of slices as such a computation, with what one rank sees of it.
-/

set_option autoImplicit false

namespace OperatingPoint

/-- A computation of one rank. -/
inductive Collective (α β : Type) where
  | done (b : β)
  /-- The sum of what the ranks contribute. -/
  | sum (a : α) (next : α → Collective α β)
  /-- The greatest of what the ranks contribute. -/
  | max (a : α) (next : α → Collective α β)
  /-- The sum of what the ranks below contribute. -/
  | scan (k : Nat) (next : Nat → Collective α β)

namespace Collective

variable {α β ρ : Type}

/-- What a rank computes through its communicator, `k` maxima having been taken before. -/
def run (c : Communicator α) (k : Nat) : Collective α β → β
  | done b => b
  | sum a next => (next (c.sum a)).run c k
  | max a next => (next (c.max k a)).run c (k + 1)
  | scan size next => (next (c.scan size)).run c k

/-! ## All ranks of a job -/

def done? : Collective α β → Option β
  | done b => some b
  | _ => none

def sum? : Collective α β → Option (α × (α → Collective α β))
  | sum a next => some (a, next)
  | _ => none

def max? : Collective α β → Option (α × (α → Collective α β))
  | max a next => some (a, next)
  | _ => none

def scan? : Collective α β → Option (Nat × (Nat → Collective α β))
  | scan k next => some (k, next)
  | _ => none

/-- For each rank the sum over the ranks below it. -/
def offsetsFrom (before : Nat) : List Nat → List Nat
  | [] => []
  | k :: ks => before :: offsetsFrom (before + k) ks

theorem length_offsetsFrom (before : Nat) (ks : List Nat) :
    (offsetsFrom before ks).length = ks.length := by
  induction ks generalizing before with
  | nil => rfl
  | cons k ks ih => exact congrArg Nat.succ (ih _)

variable [Scalar α]

/-- The sum over all ranks. -/
def total (as : List α) : α := as.foldl (· + ·) 0

/-- The maximum over all ranks. -/
def greatest : List α → α
  | [] => Scalar.undefined
  | a :: as => as.foldl Scalar.max a

/-- What the ranks compute together, the first of them and the others.  There is no result if they
do not make the same calls. -/
def together : (first : Collective α β) → (others : List (Collective α β)) → Option (List β)
  | done b, others => (others.mapM done?).map (b :: ·)
  | sum a next, others => (others.mapM sum?).bind fun calls ↦
    let answer := total (a :: calls.map Prod.fst)
    together (next answer) (calls.map fun call ↦ call.2 answer)
  | max a next, others => (others.mapM max?).bind fun calls ↦
    let answer := greatest (a :: calls.map Prod.fst)
    together (next answer) (calls.map fun call ↦ call.2 answer)
  | scan k next, others => (others.mapM scan?).bind fun calls ↦
    together (next 0) (List.zipWith (fun call before ↦ call.2 before) calls
      (offsetsFrom k (calls.map Prod.fst)))

/-- What the ranks of a job compute. -/
def job : List (Collective α β) → Option (List β)
  | [] => some []
  | first :: others => together first others

omit [Scalar α] in
theorem mapM_map {σ : Type} {f : ρ → Collective α β} {g : Collective α β → Option σ} {h : ρ → σ}
    (same : ∀ r, g (f r) = some (h r)) (ranks : List ρ) :
    (ranks.map f).mapM g = some (ranks.map h) := by
  induction ranks with
  | nil => rfl
  | cons r ranks ih =>
    rw [List.map_cons, List.mapM_cons, same, ih]
    rfl

theorem job_done (ranks : List ρ) (b : ρ → β) :
    job (ranks.map fun r ↦ (done (b r) : Collective α β)) = some (ranks.map b) := by
  cases ranks with
  | nil => rfl
  | cons r ranks =>
    rw [List.map_cons, job, together, mapM_map (h := b) fun _ ↦ rfl]
    rfl

theorem job_sum (ranks : List ρ) (a : ρ → α) (next : ρ → α → Collective α β) :
    job (ranks.map fun r ↦ sum (a r) (next r)) =
      job (ranks.map fun r ↦ next r (total (ranks.map a))) := by
  cases ranks with
  | nil => rfl
  | cons r ranks =>
    rw [List.map_cons, job, together, mapM_map (h := fun r ↦ (a r, next r)) fun _ ↦ rfl,
      Option.bind_some, List.map_map]
    dsimp only
    rw [List.map_map]
    rfl

theorem job_max (ranks : List ρ) (a : ρ → α) (next : ρ → α → Collective α β) :
    job (ranks.map fun r ↦ max (a r) (next r)) =
      job (ranks.map fun r ↦ next r (greatest (ranks.map a))) := by
  cases ranks with
  | nil => rfl
  | cons r ranks =>
    rw [List.map_cons, job, together, mapM_map (h := fun r ↦ (a r, next r)) fun _ ↦ rfl,
      Option.bind_some, List.map_map]
    dsimp only
    rw [List.map_map]
    rfl

theorem job_scan (ranks : List ρ) (k : ρ → Nat) (next : ρ → Nat → Collective α β) :
    job (ranks.map fun r ↦ scan (k r) (next r)) =
      job ((ranks.zip (offsetsFrom 0 (ranks.map k))).map fun r ↦ next r.1 r.2) := by
  cases ranks with
  | nil => rfl
  | cons r ranks =>
    rw [List.map_cons, job, together, mapM_map (h := fun r ↦ (k r, next r)) fun _ ↦ rfl,
      Option.bind_some, List.map_map, List.zipWith_map_left, List.map_cons, offsetsFrom,
      List.zip_cons_cons, List.map_cons, job, List.map_zip_eq_zipWith, Nat.zero_add]
    rfl

end Collective

/-! ## Norms -/

/-- What a rank holds of a vector, and of two others that go with it. -/
structure Slice (α : Type) where
  d : Array α
  x : Array α
  ref : Array α
  size_x : d.size = x.size
  size_ref : d.size = ref.size

namespace Slice

variable {α : Type}

/-- Slices one after the other. -/
def append (s t : Slice α) : Slice α where
  d := s.d ++ t.d
  x := s.x ++ t.x
  ref := s.ref ++ t.ref
  size_x := by rw [Array.size_append, Array.size_append, s.size_x, t.size_x]
  size_ref := by rw [Array.size_append, Array.size_append, s.size_ref, t.size_ref]

/-- The whole of which slices are the parts. -/
def join : List (Slice α) → Slice α
  | [] => ⟨#[], #[], #[], rfl, rfl⟩
  | s :: rest => s.append (join rest)

end Slice

/-- A norm: what a rank computes of its slice, and what it sees of that through its
communicator. -/
structure Norm (α β : Type) where
  value : Communicator α → Slice α → β
  program : Slice α → Collective α β
  run_program : ∀ c s, (program s).run c 0 = value c s

namespace Norm

variable {α β : Type} [Scalar α]

open Collective Communicator

/-- However a vector is spread, each rank gets what the serial communicator has for the whole. -/
def Splits (norm : Norm α β) : Prop :=
  ∀ parts : List (Slice α),
    job (parts.map norm.program) = some (parts.map fun _ ↦ norm.value .serial (.join parts))

def globalLength : Norm α Nat where
  value c s := c.globalLength s.d
  program s := .sum (s.d.size : α) fun sum ↦ .done (Scalar.floor sum)
  run_program _ _ := rfl

def dot : Norm α (Except Stop α) where
  value c s := c.dot s.d s.x
  program s := .sum (localSum (Array.zipWith (· * ·) s.d s.x)) fun sum ↦ .done (.ok sum)
  run_program _ s := (if_pos s.size_x).symm

def norm2 : Norm α α where
  value c s := c.norm2 s.d
  program s := .sum (localSum (s.d.map fun v ↦ v * v)) fun sum ↦ .done (Scalar.sqrt sum)
  run_program _ _ := rfl

/-- The global index of a rank's largest entry, if that is the largest of all. -/
def candidate (greatest : α) (s : Slice α) (offset : Nat) : Option Nat :=
  if !s.d.isEmpty && (localMax s.d).2 == greatest then some (offset + (localMax s.d).1) else none

/-- What a rank offers for the second maximum. -/
def offer : Option Nat → α
  | some index => -(index : α)
  | none => -Scalar.infinity

/-- The largest entry of all and its index, and what is made of them. -/
def largest (result : α → Nat → β) (s : Slice α) : Collective α β :=
  .max (localMax s.d).2 fun greatest ↦ .scan s.d.size fun offset ↦
    .max (offer (candidate greatest s offset)) fun best ↦
      .done (result greatest (if Scalar.isFinite best then Scalar.floor (-best) else 0))

def maxAbs : Norm α (α × Nat) where
  value c s := c.maxAbs s.d
  program := largest Prod.mk
  run_program _ _ := rfl

def normInf : Norm α α where
  value c s := c.normInf s.d
  program := largest fun greatest _ ↦ greatest
  run_program _ _ := rfl

/-- The entries of `d`, each weighted by an absolute tolerance plus a relative one. -/
def ratios (absTol relTol : α) (s : Slice α) : Array α :=
  Array.zipWith (· / ·) s.d (Array.zipWith
    (fun a b ↦ absTol + relTol * Scalar.max (Scalar.abs a) (Scalar.abs b)) s.x s.ref)

def weighted (absTol relTol : α) : Norm α (Except Stop α) where
  value c s := c.weighted s.d s.x s.ref absTol relTol
  program s := .sum (s.d.size : α) fun size ↦
    if Scalar.floor size = 0 then .done (.ok 0)
    else .sum (localSum ((ratios absTol relTol s).map fun r ↦ r * r)) fun sum ↦
      .done (.ok (Scalar.sqrt (sum / (Scalar.floor size : α))))
  run_program c s := by
    rw [Communicator.weighted, if_pos ⟨s.size_x, s.size_ref⟩, Collective.run]
    dsimp only
    rw [Communicator.globalLength]
    split
    · rfl
    · rfl

def allFinite : Norm α Bool where
  value c s := c.allFinite s.d
  program s := .max (if s.d.all Scalar.isFinite then 0 else 1) fun worst ↦
    .done (worst == (0 : α))
  run_program _ _ := rfl

end Norm

end OperatingPoint
