import Orchestrion.Rate

/-!
# Vocabulary

The names that every unit knows without declaring them: core opcodes, standard names and the
generators of tables.
-/

namespace Orchestrion

/-- The core opcodes that compute a number. -/
inductive Builtin where
  | abs | sgn | int | frac | floor | ceil
  | exp | log | log10 | sqrt
  | sin | cos | atan
  | dbamp | ampdb
  | pow | min | max
deriving DecidableEq, Repr

namespace Builtin

def all : List Builtin :=
  [abs, sgn, int, frac, floor, ceil, exp, log, log10, sqrt, sin, cos, atan, dbamp, ampdb, pow, min,
    max]

def spelling : Builtin → String
  | abs => "abs"
  | sgn => "sgn"
  | int => "int"
  | frac => "frac"
  | floor => "floor"
  | ceil => "ceil"
  | exp => "exp"
  | log => "log"
  | log10 => "log10"
  | sqrt => "sqrt"
  | sin => "sin"
  | cos => "cos"
  | atan => "atan"
  | dbamp => "dbamp"
  | ampdb => "ampdb"
  | pow => "pow"
  | min => "min"
  | max => "max"

def code : Builtin → Nat
  | abs => 0
  | sgn => 1
  | int => 2
  | frac => 3
  | floor => 4
  | ceil => 5
  | exp => 6
  | log => 7
  | log10 => 8
  | sqrt => 9
  | sin => 10
  | cos => 11
  | atan => 12
  | dbamp => 13
  | ampdb => 14
  | pow => 15
  | min => 16
  | max => 17

def ofCode? (n : Int) : Option Builtin := all.find? fun b => n = b.code

end Builtin

/-- The opcodes of the language itself. -/
inductive CoreOpcode where
  | builtin (b : Builtin)
  /-- The number of elements of a table. -/
  | tableLength
  | tableRead
  /-- An element of a table set to a value, which is also the result. -/
  | tableWrite
deriving DecidableEq, Repr

namespace CoreOpcode

def all : List CoreOpcode := Builtin.all.map builtin ++ [tableLength, tableRead, tableWrite]

def spelling : CoreOpcode → String
  | builtin b => b.spelling
  | tableLength => "ftlen"
  | tableRead => "tableread"
  | tableWrite => "tablewrite"

def ofText? (name : Text) : Option CoreOpcode :=
  all.find? fun op => name = (op.spelling : Text)

def leastArgs : CoreOpcode → Nat
  | builtin .pow => 2
  | builtin _ => 1
  | tableLength => 1
  | tableRead => 2
  | tableWrite => 3

def mostArgs? : CoreOpcode → Option Nat
  | builtin .min | builtin .max => none
  | op => some op.leastArgs

def tableArg? : CoreOpcode → Option Nat
  | builtin _ => none
  | _ => some 0

def takes (op : CoreOpcode) (n : Nat) : Bool :=
  op.leastArgs ≤ n &&
    match op.mostArgs? with
    | some most => n ≤ most
    | none => true

def arity (op : CoreOpcode) : Text :=
  match op.mostArgs? with
  | none => "at least " ++ Text.ofNat op.leastArgs
  | some most =>
    if op.leastArgs = most then Text.ofNat most
    else Text.ofNat op.leastArgs ++ " to " ++ Text.ofNat most

end CoreOpcode

/-- The names of values that the performance provides. -/
inductive StandardName where
  /-- Audio samples in a second. -/
  | sampleRate
  /-- Control ticks in a second. -/
  | controlRate
  /-- The time of the present tick in seconds. -/
  | time
  /-- The duration of the instance in seconds. -/
  | duration
  /-- The time since the start of the instance in seconds. -/
  | elapsed
  | inChannels
  | outChannels
deriving DecidableEq, Repr

namespace StandardName

def all : List StandardName :=
  [sampleRate, controlRate, time, duration, elapsed, inChannels, outChannels]

def spelling : StandardName → String
  | sampleRate => "s_rate"
  | controlRate => "k_rate"
  | time => "time"
  | duration => "dur"
  | elapsed => "itime"
  | inChannels => "inchan"
  | outChannels => "outchan"

def code : StandardName → Nat
  | sampleRate => 0
  | controlRate => 1
  | time => 2
  | duration => 3
  | elapsed => 4
  | inChannels => 5
  | outChannels => 6

def ofText? (word : Text) : Option StandardName :=
  all.find? fun s => word = (s.spelling : Text)

def ofCode? (n : Int) : Option StandardName := all.find? fun s => n = s.code

def rate : StandardName → Rate
  | elapsed => .k
  | _ => .i

end StandardName

/-- What fills a table. -/
inductive Generator where
  /-- Zeros. -/
  | empty
  /-- The given values, then zeros. -/
  | data
  /-- A sum of sines. -/
  | harm
  /-- Straight lines between points. -/
  | lineseg
deriving DecidableEq, Repr

namespace Generator

def all : List Generator := [empty, data, harm, lineseg]

def spelling : Generator → String
  | empty => "empty"
  | data => "data"
  | harm => "harm"
  | lineseg => "lineseg"

def code : Generator → Nat
  | empty => 0
  | data => 1
  | harm => 2
  | lineseg => 3

def ofText? (name : Text) : Option Generator :=
  all.find? fun g => name = (g.spelling : Text)

def ofCode? (n : Int) : Option Generator := all.find? fun g => n = g.code

def leastArgs : Generator → Nat
  | empty => 1
  | data => 1
  | harm => 2
  | lineseg => 5

end Generator

end Orchestrion
