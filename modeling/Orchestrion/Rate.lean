import Orchestrion.Tree.Decl

/-!
# Rates and widths

How often a value is computed, and how many elements it has. Only the signal rates are ordered: `i`,
once at the start of an instance, is slower than `k`, every control tick, and that is slower than
`a`, every audio sample.
-/

namespace Orchestrion

/-- How often a value changes. -/
inductive Rate where
  /-- Not known. -/
  | unknown
  /-- Once, at the start of an instance. -/
  | i
  /-- Every control tick. -/
  | k
  /-- Every audio sample. -/
  | a
  /-- The rate that the caller of an opcode gives. -/
  | x
  /-- An array of opcodes. -/
  | oparray
  /-- A wavetable. -/
  | table
  /-- A number that stands for no rate. -/
  | other (code : UInt8)
deriving DecidableEq, Repr, Inhabited

namespace Rate

def ofCode (code : UInt8) : Rate :=
  ([unknown, i, k, a, x, oparray, table][code.toNat]?).getD (other code)

def text : Rate → Text
  | unknown => "unknown"
  | i => "i"
  | k => "k"
  | a => "a"
  | x => "x"
  | oparray => "oparray"
  | table => "table"
  | other code => "Rate(" ++ Text.ofNat code.toNat ++ ")"

def speed? : Rate → Option Nat
  | i => some 0
  | k => some 1
  | a => some 2
  | _ => none

def isSignal (r : Rate) : Bool := r.speed?.isSome

def faster (r s : Rate) : Bool :=
  match r.speed?, s.speed? with
  | some m, some n => n < m
  | _, _ => false

def sup (r s : Rate) : Rate := if s.faster r then s else r

def fastest (rates : List Rate) : Rate :=
  if x ∈ rates then x else rates.foldl sup i

end Rate

def StorageType.rate : StorageType → Rate
  | ivar => .i
  | ksig => .k
  | asig => .a
  | xsig => .x
  | oparray => .oparray

def TokenKind.rate : TokenKind → Rate
  | keyword .ivar => .i
  | keyword .ksig => .k
  | keyword .asig => .a
  | keyword .xsig => .x
  | keyword .oparray => .oparray
  | keyword .table => .table
  | _ => .unknown

/-- How many values there are. -/
inductive Width where
  /-- The given number. -/
  | fixed (n : Int)
  | inChannels
  | outChannels
deriving DecidableEq, Repr, Inhabited

namespace Width

def code : Width → Int
  | fixed n => n
  | inChannels => -1
  | outChannels => -2

def ofCode (n : Int) : Width :=
  if n = -1 then inChannels else if n = -2 then outChannels else fixed n

end Width

end Orchestrion
