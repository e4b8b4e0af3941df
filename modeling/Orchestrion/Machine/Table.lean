import Orchestrion.Number.Binary
import Orchestrion.Vocabulary

/-!
# Filling tables

What the generators put into a table. The arguments are those behind the size of the table. A table
of lines is filled in one pass over its places, with a cursor on the points that never goes back.
-/

namespace Orchestrion

/-- The values one after the other, and then zeros. -/
def dataTable (size : Nat) (values : List Float32) : List Float32 :=
  (values.take size) ++ List.replicate (size - values.length) 0

/-- Adds up harmonics at a phase, from number `k` on. -/
def harmonicSum (phase sum : Float) (k : Nat) : List Float32 → Float
  | [] => sum
  | amplitude :: rest =>
    let term := Number.widen amplitude * Float.sin (Float.ofNat k * phase)
    harmonicSum phase (sum + term) (k + 1) rest

/-- One period of a sum of harmonics with these amplitudes. -/
def harmonicTable (size : Nat) (amplitudes : List Float32) : List Float32 :=
  (List.range size).map fun i =>
    let phase := 6.283185307179586476925286766559005768 * Float.ofNat i / Float.ofNat size
    Number.narrow (harmonicSum phase 0 1 amplitudes)

namespace Breakpoint

/-- The number of points among the arguments, each of them a place and a height. -/
def count (args : List Float32) : Nat := args.length / 2

/-- The place of a point, if the point is there. -/
def x? (args : List Float32) (s : Nat) : Option Float := args[2 * s]?.map Number.widen

/-- The height of a point, if the point is there. -/
def y? (args : List Float32) (s : Nat) : Option Float := args[2 * s + 1]?.map Number.widen

/-- Moves the cursor from a point to the next one, as long as that one lies behind the place. There
are so many points left to move to. -/
def advance? (args : List Float32) (place : Float) : Nat → Nat → Option Nat
  | 0, s => some s
  | left + 1, s => do
    if (← x? args (s + 1)) < place then advance? args place left (s + 1) else return s

/-- The height at a place, with the cursor on a point. -/
def height? (args : List Float32) (place : Float) (s : Nat) : Option Float := do
  if place ≤ (← x? args 0) then y? args 0
  else if s = count args - 1 then y? args s
  else
    let x₀ ← x? args s
    let x₁ ← x? args (s + 1)
    if x₁ == x₀ then y? args (s + 1)
    else
      let y₀ ← y? args s
      let y₁ ← y? args (s + 1)
      let t := (place - x₀) / (x₁ - x₀)
      return y₀ + t * (y₁ - y₀)

/-- Fills so many places of a table, from number `i` on. -/
def fill? (args : List Float32) (s i : Nat) : Nat → Array Float32 → Option (Array Float32)
  | 0, table => some table
  | left + 1, table => do
    let place := Float.ofNat i
    let s ← advance? args place (count args - 1 - s) s
    let height ← height? args place s
    fill? args s (i + 1) left (table.setIfInBounds i (Number.narrow height))

end Breakpoint

/-- The table as the generator fills it. Without points, it stays as it is. There is no result if a
point is looked up that is not there. -/
def Generator.fill? (g : Generator) (table : Array Float32) (args : List Float32) :
    Option (Array Float32) :=
  match g with
  | .empty => some (Array.replicate table.size 0)
  | .data => some (dataTable table.size args).toArray
  | .harm => some (harmonicTable table.size args).toArray
  | .lineseg =>
    if Breakpoint.count args = 0 then some table
    else Breakpoint.fill? args 0 0 table.size table

end Orchestrion
