import Orchestrion.Code.Instruction

/-!
# Streams of code

Code is appended instruction by instruction. A forward branch is appended without its offset; once
its target is known to be whatever comes next it is pending, and the next instruction that is
appended becomes the target of all pending branches.
-/

namespace Orchestrion

/-- The code of a slot as it grows. -/
structure Stream where
  code : Array Int := #[]
  /-- The places of the offsets of the branches whose target is the next instruction. -/
  pending : List Nat := []
  /-- The number of instructions that make the stack higher. -/
  pushes : Nat := 0
deriving DecidableEq, Repr, Inhabited

namespace Stream

def offsetTo (target mark : Nat) : Int := (target : Int) - ((mark : Int) + 1)

def patch (target : Nat) (code : Array Int) (mark : Nat) : Array Int :=
  code.setIfInBounds mark (offsetTo target mark)

def pendingOffsets (s : Stream) : List Int := s.pending.map (offsetTo s.code.size)

def add (s : Stream) (i : Instruction) : Stream :=
  { code := s.pending.foldl (patch s.code.size) s.code ++ i.words
    pending := []
    pushes := if i.operation.pushes then s.pushes + 1 else s.pushes }

def setPending (s : Stream) (mark : Nat) : Stream := { s with pending := s.pending ++ [mark] }

def label (s : Stream) : Nat := s.code.size

def mark (s : Stream) : Nat := s.code.size - 1

def backOffset (s : Stream) (label : Nat) : Int := (label : Int) - ((s.code.size : Int) + 2)

end Stream

end Orchestrion
