import FFZKit.Foundations.Transition
import Mathlib.Algebra.Group.Nat.Defs
import Mathlib.Logic.Function.Basic
import Mathlib.Tactic.Common

/-!
# `BufferRaw`

A buffer owns one heap block. `setCapacity` keeps the block when it is large
enough and not much too large; otherwise it deletes the block and allocates
another one, and the allocation may throw.

## Implementation notes

A block is named by the number of blocks allocated before it, so a name is not
used again after the block is deleted. An allocation comes with the bytes that
the new block happens to hold, or with none when it throws `bad_alloc`. Deleting
a block twice leaves it deleted.
-/

namespace FFZKit.Network

open FFZKit.Foundations.Transition

/-- `size_`, `capacity_` and `data_`, with the heap: the bytes of the live
blocks, and how many were allocated so far. -/
structure BufferRaw where
  size : Nat
  capacity : Nat
  data : Option Nat
  blocks : Nat → Option (List UInt8)
  allocated : Nat

namespace BufferRaw

/-- How a call ends. -/
inductive Outcome
  | returned
  | badAlloc
  | invalidArgument
  deriving DecidableEq, Repr

def init : BufferRaw where
  size := 0
  capacity := 0
  data := none
  blocks := fun _ => none
  allocated := 0

/-- `strlen` -/
def strlen (source : List UInt8) : Nat := (source.takeWhile fun c => c ≠ 0).length

/-- `delete[]` -/
def free (s : BufferRaw) (block : Nat) : BufferRaw :=
  { s with blocks := Function.update s.blocks block none }

/-- The end of `setCapacity`: `new char[capacity]` and the two assignments. -/
def allocate (s : BufferRaw) (capacity : Nat) : Option (List UInt8) → BufferRaw × Outcome
  | none => (s, .badAlloc)
  | some bytes =>
      ({ s with
        capacity := capacity
        data := some s.allocated
        blocks := Function.update s.blocks s.allocated (some bytes)
        allocated := s.allocated + 1 }, .returned)

/-- The block is large enough and either small or not twice too large. -/
def Reuses (s : BufferRaw) (capacity : Nat) : Prop :=
  capacity ≤ s.capacity ∧ (s.capacity < 2 * 1024 ∨ s.capacity < 2 * capacity % 2 ^ 64)

instance (s : BufferRaw) (capacity : Nat) : Decidable (s.Reuses capacity) :=
  inferInstanceAs (Decidable (_ ∧ _))

/-- `setCapacity` -/
def setCapacity (s : BufferRaw) (capacity : Nat) (fresh : Option (List UInt8)) :
    BufferRaw × Outcome :=
  match s.data with
  | some block =>
      if s.Reuses capacity then (s, .returned)
      else (s.free block).allocate capacity fresh
  | none => s.allocate capacity fresh

/-- `setSize` -/
def setSize (s : BufferRaw) (size : Nat) : BufferRaw × Outcome :=
  if s.capacity < size then (s, .invalidArgument) else ({ s with size := size }, .returned)

/-- `memcpy` to the start of the block, and the terminating zero. -/
def copy (s : BufferRaw) (source : List UInt8) (size : Nat) : BufferRaw :=
  match s.data with
  | none => s
  | some block =>
      let bytes := (s.blocks block).map fun bytes =>
        source.take size ++ 0 :: bytes.drop (size + 1)
      { s with blocks := Function.update s.blocks block bytes }

/-- The number of bytes that `assign` copies. -/
def copied (source : List UInt8) (size : Nat) : Nat :=
  if size ≤ 0 then strlen source else size

/-- `assign` -/
def assign (s : BufferRaw) (source : List UInt8) (size : Nat) (fresh : Option (List UInt8)) :
    BufferRaw × Outcome :=
  let size := copied source size
  match s.setCapacity (size + 1) fresh with
  | (s', .returned) => (s'.copy source size).setSize size
  | other => other

/-- `BufferRaw::create`, on the buffer that the pool hands out. -/
def create (s : BufferRaw) (size : Nat) (fresh : Option (List UInt8)) : BufferRaw × Outcome :=
  match s.setCapacity size fresh with
  | (s', .returned) => s'.setSize 0
  | other => other

/-- `toString`, where it reads within a live block. -/
def toString (s : BufferRaw) : Option (List UInt8) :=
  match s.data with
  | none => if s.size = 0 then some [] else none
  | some block =>
      match s.blocks block with
      | none => none
      | some bytes => if s.size ≤ bytes.length then some (bytes.take s.size) else none

/-- The calls, with the block that the heap hands out if it is asked. -/
inductive Action
  | setCapacity (capacity : Nat) (fresh : Option (List UInt8))
  | setSize (size : Nat)
  | assign (source : List UInt8) (size : Nat) (fresh : Option (List UInt8))

/-- A block has as many bytes as were asked for. -/
def Fits (fresh : Option (List UInt8)) (capacity : Nat) : Prop :=
  fresh.all fun bytes => bytes.length == capacity

instance (fresh : Option (List UInt8)) (capacity : Nat) : Decidable (Fits fresh capacity) :=
  inferInstanceAs (Decidable (_ = true))

/-- One call. The source of `assign` has the bytes that are copied, or ends with
a zero where `strlen` looks for one. -/
def step (s : BufferRaw) : Action → Option BufferRaw
  | .setCapacity capacity fresh =>
      if capacity < 2 ^ 64 ∧ Fits fresh capacity then some (s.setCapacity capacity fresh).1
      else none
  | .setSize size => some (s.setSize size).1
  | .assign source size fresh =>
      if size ≤ source.length ∧ (size = 0 → 0 ∈ source) ∧ copied source size + 1 < 2 ^ 64 ∧
          Fits fresh (copied source size + 1) then
        some (s.assign source size fresh).1
      else none

end BufferRaw

end FFZKit.Network
