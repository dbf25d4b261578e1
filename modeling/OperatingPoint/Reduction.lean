import OperatingPoint.Step
import OperatingPoint.Scalar

/-!
# Norms of distributed vectors

A vector may be spread over several ranks, each of which holds a contiguous slice of it.  A
`Communicator` is one rank's view of the collectives, and the norms below are what that rank
computes from its slice: a local part, combined with the parts of the others.  With the serial
communicator the slice is the whole vector.

The index that goes with the largest entry is found by a second maximum: each rank that attains the
global maximum offers the negative of its global index, so that the greatest offer is the lowest
index.
-/

set_option autoImplicit false

namespace OperatingPoint

/-- One rank's view of the collectives. -/
structure Communicator (α : Type) where
  name : String
  rank : Nat
  size : Nat
  /-- Sum over all ranks of the value this rank contributes. -/
  sum : α → α
  /-- Maximum over all ranks, in the `k`-th maximum that a computation takes. -/
  max : (k : Nat) → α → α
  /-- Sum over the ranks below this one. -/
  scan : Nat → Nat

namespace Communicator

variable {α : Type}

/-- A single rank. -/
def serial : Communicator α where
  name := "Serial"
  rank := 0
  size := 1
  sum a := a
  max _ a := a
  scan _ := 0

variable [Scalar α] (c : Communicator α)

/-- Entries of a slice, added in order to zero. -/
def localSum (xs : Array α) : α := xs.foldl (· + ·) 0

/-- Number of entries of the whole vector. -/
def globalLength (x : Array α) : Nat := Scalar.floor (c.sum (x.size : α))

/-- Inner product over the common part of two slices. -/
def zipDot (x y : Array α) : α := c.sum (localSum (Array.zipWith (· * ·) x y))

/-- Inner product of two vectors. -/
def dot (x y : Array α) : Except Stop α :=
  if x.size = y.size then .ok (c.zipDot x y) else .error .breach

/-- Euclidean norm. -/
def norm2 (x : Array α) : α := Scalar.sqrt (c.sum (localSum (x.map fun v ↦ v * v)))

/-- The first entry of a slice that is largest in absolute value, as index and absolute value. -/
def localMax (x : Array α) : Nat × α :=
  x.zipIdx.foldl (fun best entry ↦
    if best.2 < Scalar.abs entry.1 then (entry.2, Scalar.abs entry.1) else best) (0, 0)

/-- The global index of this rank's largest entry, if that is the largest of all. -/
def candidate (x : Array α) : Option Nat :=
  let mine := localMax x
  if !x.isEmpty && mine.2 == c.max 0 mine.2 then some (c.scan x.size + mine.1) else none

/-- Largest absolute value and its lowest global index.  Nothing at all has maximum zero at 0. -/
def maxAbs (x : Array α) : α × Nat :=
  let best := c.max 1 <| match c.candidate x with
    | some index => -(index : α)
    | none => -Scalar.infinity
  (c.max 0 (localMax x).2, if Scalar.isFinite best then Scalar.floor (-best) else 0)

/-- Maximum norm. -/
def normInf (x : Array α) : α := (c.maxAbs x).1

/-- Whether the slices of a job fit together at this rank: a global index is a machine word. -/
def indexFits (x : Array α) : Bool := (c.candidate x).all fun index ↦ decide (index < UInt64.size)

/-- Largest absolute value and its index, for slices that need not fit together. -/
def maxAbs? (x : Array α) : Except Stop (α × Nat) :=
  if c.indexFits x then .ok (c.maxAbs x) else .error .breach

/-- Root mean square of the entries of `d`, each weighted by an absolute tolerance plus a relative
one of the greater of `x` and `ref` at its place. -/
def weighted (d x ref : Array α) (absTol relTol : α) : Except Stop α :=
  if d.size = x.size ∧ d.size = ref.size then
    let n := c.globalLength d
    if n = 0 then .ok 0
    else
      let scale := Array.zipWith
        (fun a b ↦ absTol + relTol * Scalar.max (Scalar.abs a) (Scalar.abs b)) x ref
      let ratios := Array.zipWith (· / ·) d scale
      .ok (Scalar.sqrt (c.sum (localSum (ratios.map fun r ↦ r * r)) / (n : α)))
  else .error .breach

/-- Whether no rank holds an entry that is not finite. -/
def allFinite (x : Array α) : Bool :=
  c.max 0 (if x.all Scalar.isFinite then 0 else 1) == (0 : α)

end Communicator

end OperatingPoint
