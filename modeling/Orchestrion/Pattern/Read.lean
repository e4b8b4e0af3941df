import Orchestrion.Pattern.Assembly
import Orchestrion.Pattern.Property

/-!
# Reading search patterns

The text of a pattern is read from left to right, and the first fault ends it. A fault names the
part of the text where it was found.
-/

namespace Orchestrion

namespace Pattern

def between (start rest : List Char) : List Char := start.take (start.length - rest.length)

def hexValue? (c : Char) : Option Nat :=
  if c.isDigit then some (c.toNat - '0'.toNat)
  else if 'a' ≤ c && c ≤ 'f' then some (c.toNat - 'a'.toNat + 10)
  else if 'A' ≤ c && c ≤ 'F' then some (c.toNat - 'A'.toNat + 10)
  else none

def isOctal (c : Char) : Bool := '0' ≤ c && c ≤ '7'

def octalValue (digits : List Char) : Nat :=
  digits.foldl (fun n c => 8 * n + (c.toNat - '0'.toNat)) 0

def bracedHex (n : Nat) (hasDigits : Bool) : List Char → Except (List Char) (Nat × List Char)
  | [] => .error []
  | c :: rest =>
    if c.toNat = 125 then
      if hasDigits then .ok (n, rest) else .error rest
    else
      match hexValue? c with
      | none => .error rest
      | some v => if 16 * n + v > 0x10FFFF then .error rest else bracedHex (16 * n + v) true rest

def hexEscape : List Char → Except (List Char) (Nat × List Char)
  | [] => .error []
  | c :: rest =>
    if c.toNat = 123 then bracedHex 0 false rest
    else
      match hexValue? c, rest with
      | some x, d :: rest =>
        match hexValue? d with
        | some y => .ok (16 * x + y, rest)
        | none => .error rest
      | _, rest => .error (rest.drop 1)

def escape (start : List Char) : Except Error (Nat × List Char) :=
  let refuse (rest : List Char) : Except Error (Nat × List Char) :=
    .error ⟨.badEscape, between start rest⟩
  match start.drop 1 with
  | [] => .error ⟨.trailingBackslash, []⟩
  | c :: rest =>
    match c with
    | 'a' => .ok (7, rest)
    | 'f' => .ok (12, rest)
    | 'n' => .ok (10, rest)
    | 'r' => .ok (13, rest)
    | 't' => .ok (9, rest)
    | 'v' => .ok (11, rest)
    | 'x' =>
      match hexEscape rest with
      | .ok (n, rest) => .ok (n, rest)
      | .error rest => refuse rest
    | _ =>
      if c = '0' || (isOctal c && (rest.head?).any isOctal) then
        let digits := c :: (rest.take 2).takeWhile isOctal
        .ok (octalValue digits, rest.drop (digits.length - 1))
      else if c.toNat < 128 && !c.isAlphanum then .ok (c.toNat, rest)
      else refuse rest

def letterClass? : Char → Option (CharClass × Bool)
  | 'd' => some (digitPoints, false)
  | 'D' => some (digitPoints, true)
  | 's' => some ([(9, 10), (12, 13), (32, 32)], false)
  | 'S' => some ([(9, 10), (12, 13), (32, 32)], true)
  | 'w' => some (wordPoints, false)
  | 'W' => some (wordPoints, true)
  | _ => none

def readClass (fold negated : Bool) (k : CharClass) : CharClass :=
  let k := if fold then k.folded else k
  if negated then k.complement else k

def namedClass? : String → Option CharClass
  | "alnum" => some [(48, 57), (65, 90), (97, 122)]
  | "alpha" => some [(65, 90), (97, 122)]
  | "ascii" => some asciiPoints
  | "blank" => some [(9, 9), (32, 32)]
  | "cntrl" => some [(0, 31), (127, 127)]
  | "digit" => some digitPoints
  | "graph" => some [(33, 126)]
  | "lower" => some [(97, 122)]
  | "print" => some [(32, 126)]
  | "punct" => some [(33, 47), (58, 64), (91, 96), (123, 126)]
  | "space" => some [(9, 13), (32, 32)]
  | "upper" => some [(65, 90)]
  | "word" => some wordPoints
  | "xdigit" => some [(48, 57), (65, 70), (97, 102)]
  | _ => none

def splitAt? (c d : Char) : List Char → Option (List Char × List Char)
  | a :: b :: rest =>
    if a = c && b = d then some ([], rest)
    else (splitAt? c d (b :: rest)).map fun (before, after) => (a :: before, after)
  | _ => none

def propertyClass (fold negated : Bool) (name written : List Char) : Except Error CharClass :=
  match property? fold name with
  | none => .error ⟨.badRange, written⟩
  | some k => .ok (if negated then k.complement else k)

def propertyClass? (fold : Bool) (start : List Char) :
    Option (Except Error (CharClass × List Char)) :=
  match start with
  | '\\' :: mark :: rest =>
    if mark = 'p' || mark = 'P' then
      let build (name : List Char) (length : Nat) : Except Error (CharClass × List Char) :=
        let negated := (mark = 'P') != (name.head? = some '^')
        let name := if name.head? = some '^' then name.drop 1 else name
        (propertyClass fold negated name (start.take length)).map fun k => (k, start.drop length)
      some <| match rest with
        | [] => build [] 2
        | c :: tail =>
          if c.toNat = 123 then
            let name := tail.takeWhile fun d => d.toNat ≠ 125
            if (tail.drop name.length).isEmpty then .error ⟨.badRange, start⟩
            else build name (name.length + 4)
          else build [c] 3
    else none
  | _ => none

def bracketClass? (fold : Bool) (start : List Char) :
    Option (Except Error (CharClass × List Char)) :=
  match start with
  | '[' :: ':' :: rest =>
    match splitAt? ':' ']' rest with
    | none => none
    | some (name, after) =>
      let negated := name.head? = some '^'
      let plain := if negated then name.drop 1 else name
      some <| match namedClass? (String.ofList plain) with
        | some k => .ok (readClass fold negated k, after)
        | none => .error ⟨.badRange, between start after⟩
  | _ => none

def escapeClass? (fold : Bool) : List Char → Option (CharClass × List Char)
  | '\\' :: c :: rest =>
    (letterClass? c).map fun (k, negated) => (readClass fold negated k, rest)
  | _ => none

def classChar (whole : List Char) : List Char → Except Error (Nat × List Char)
  | [] => .error ⟨.missingBracket, whole⟩
  | c :: rest => if c = '\\' then escape (c :: rest) else .ok (c.toNat, rest)

def classRange (fold : Bool) (whole start : List Char) : Except Error (CharClass × List Char) := do
  let (low, rest) ← classChar whole start
  match rest with
  | '-' :: next :: tail =>
    if next = ']' then return (readClass fold false [(low, low)], rest)
    else
      let (high, rest) ← classChar whole (next :: tail)
      if high < low then throw ⟨.badRange, between start rest⟩
      return (readClass fold false [(low, high)], rest)
  | _ => return (readClass fold false [(low, low)], rest)

def classPart (fold : Bool) (whole start : List Char) : Except Error (CharClass × List Char) :=
  match bracketClass? fold start with
  | some step => step
  | none =>
    match propertyClass? fold start with
    | some step => step
    | none =>
      match escapeClass? fold start with
      | some found => .ok found
      | none => classRange fold whole start

def classParts (fold : Bool) (whole : List Char) :
    Nat → List CharClass → List Char → Except Error (CharClass × List Char)
  | 0, _, _ => .error ⟨.missingBracket, whole⟩
  | n + 1, parts, text => do
    if text.head? = some ']' && !parts.isEmpty then
      return (.unionOf parts, text.drop 1)
    else
      let (part, rest) ← classPart fold whole text
      classParts fold whole n (part :: parts) rest

def bracketed (bound : Nat) (fold : Bool) (whole : List Char) :
    Except Error (CharClass × List Char) := do
  let inside := whole.drop 1
  let negated := inside.head? = some '^'
  let inside := if negated then inside.drop 1 else inside
  let (k, rest) ← classParts fold whole bound [] inside
  return (if negated then k.complement else k, rest)

/-- What a parenthesis with a question mark opens. -/
inductive Opening where
  /-- Flags for the rest of the group around it. -/
  | flags (f : Flags)
  | group (captures : Bool) (f : Flags)
deriving DecidableEq, Repr

def readFlags (start : List Char) (f : Flags) (on seen : Bool) :
    List Char → Except Error (Opening × List Char)
  | [] => .error ⟨.badFlags, start⟩
  | c :: rest =>
    match c with
    | 'i' => readFlags start { f with fold := on } on true rest
    | 'm' => readFlags start { f with lines := on } on true rest
    | 's' => readFlags start { f with pointAll := on } on true rest
    | 'U' => readFlags start { f with lazy := on } on true rest
    | '-' =>
      if on then readFlags start f false false rest
      else .error ⟨.badFlags, between start rest⟩
    | ':' =>
      if on || seen then .ok (.group false f, rest) else .error ⟨.badFlags, between start rest⟩
    | ')' => if on || seen then .ok (.flags f, rest) else .error ⟨.badFlags, between start rest⟩
    | _ => .error ⟨.badFlags, between start rest⟩

def groupName (start : List Char) (before : Nat) (f : Flags) :
    Except Error (Opening × List Char) :=
  let upTo := start.takeWhile (· ≠ '>')
  match start.drop upTo.length with
  | [] => .error ⟨.badName, start⟩
  | _ :: rest =>
    let name := upTo.drop before
    if !name.isEmpty && name.all isWordChar then .ok (.group true f, rest)
    else .error ⟨.badName, between start rest⟩

def opening (f : Flags) (start : List Char) : Except Error (Opening × List Char) :=
  match start.drop 2 with
  | 'P' :: '<' :: _ :: _ => groupName start 4 f
  | '<' :: _ :: _ => groupName start 3 f
  | rest => readFlags start f true false rest

def repeatNumber? (text : List Char) : Option (Option Nat × List Char) :=
  let digits := text.takeWhile Char.isDigit
  let rest := text.drop digits.length
  match digits with
  | [] => none
  | first :: others =>
    if first = '0' && !others.isEmpty then none
    else if digits.length ≤ 9 then
      some (some (digits.foldl (fun n c => 10 * n + (c.toNat - '0'.toNat)) 0), rest)
    else some (none, rest)

def repeatBounds? (least : Option Nat) (most : Option (Option Nat)) :
    Option (Nat × Option Nat) :=
  match least, most with
  | some m, none => if m ≤ 1000 then some (m, none) else none
  | some m, some (some n) => if m ≤ n && n ≤ 1000 then some (m, some n) else none
  | _, _ => none

def repeatCounts? (start : List Char) : Option (Option (Nat × Option Nat) × List Char) := do
  let (least, rest) ← repeatNumber? (start.drop 1)
  match rest with
  | [] => none
  | c :: tail =>
    let (most, rest) ←
      if c = ',' then
        if (tail.head?).any fun d => d.toNat = 125 then some (none, tail)
        else (repeatNumber? tail).map fun (n, rest) => (some n, rest)
      else some (some least, rest)
    match rest with
    | [] => none
    | d :: rest => if d.toNat = 125 then some (repeatBounds? least most, rest) else none

def quotation (text : List Char) : List Char × List Char :=
  (splitAt? '\\' 'E' text).getD (text, [])

abbrev Reading := StateT Draft (Except Error)

namespace Reading

def assemble {α : Type} (whole : List Char) (a : Assembly α) : Reading α := fun d =>
  match a d with
  | .ok result => .ok result
  | .error fault => .error ⟨fault, whole⟩

def characters (whole : List Char) : List Char → Reading Unit
  | [] => return
  | c :: cs => do
    assemble whole (Assembly.character c.toNat)
    characters whole cs

def add (whole : List Char) (node : Nat → Node) (rest : List Char) : Reading (List Char) := do
  assemble whole (Assembly.add node)
  return rest

def anchor (whole : List Char) (a : Anchor) (rest : List Char) : Reading (List Char) :=
  add whole (fun n => .anchor n a) rest

def charClass (whole : List Char) (k : CharClass) (rest : List Char) : Reading (List Char) :=
  add whole (fun n => .char n k) rest

def repetition (whole : List Char) (least : Nat) (most : Option Nat) (before after : List Char)
    (previous : Option (List Char)) : Reading (List Char) := do
  let d ← get
  let isShort := after.head? = some '?'
  let after := if isShort then after.drop 1 else after
  if let some earlier := previous then throw ⟨.nestedRepetition, between earlier after⟩
  match d.stack with
  | .part p :: rest =>
    let n ← assemble whole Assembly.make
    let repeated := Node.rep n p least most (d.flags.lazy != isShort)
    modify fun d => { d with stack := .part repeated :: rest }
    assemble whole (Assembly.check repeated)
    if 2 ≤ most.getD least && !repeated.staysWithin maxCopies then
      throw ⟨.badRepeatCount, between before after⟩
    return after
  | _ => throw ⟨.missingArgument, between before after⟩

def backslash (whole start : List Char) : Reading (List Char) := do
  let f := (← get).flags
  match start with
  | _ :: 'A' :: rest => anchor whole .textStart rest
  | _ :: 'b' :: rest => anchor whole .wordBoundary rest
  | _ :: 'B' :: rest => anchor whole .noWordBoundary rest
  | _ :: 'C' :: rest => throw ⟨.badEscape, between start rest⟩
  | _ :: 'Q' :: rest =>
    let (quoted, rest) := quotation rest
    characters whole quoted
    return rest
  | _ :: 'z' :: rest => anchor whole .textEnd rest
  | _ =>
    match propertyClass? f.fold start with
    | some step =>
      let (k, rest) ← step
      charClass whole k rest
    | none =>
      match escapeClass? f.fold start with
      | some (k, rest) => charClass whole k rest
      | none =>
        let (n, rest) ← escape start
        assemble whole (Assembly.character n)
        return rest

def parenthesis (whole start : List Char) : Reading (List Char) := do
  let outside := (← get).flags
  let (found, rest) ← match start with
    | '(' :: '?' :: _ => opening outside start
    | _ => pure (.group true outside, start.drop 1)
  match found with
  | .flags f => modify fun d => { d with flags := f }
  | .group captures f =>
    assemble whole (Assembly.mark fun n => .opening n captures outside)
    modify fun d => { d with flags := f }
  return rest

def close (bound : Nat) (whole : List Char) : Reading Unit := do
  assemble whole (Assembly.closeGroup bound)
  match (← get).stack with
  | .part p :: .opening n captures outside :: rest =>
    modify fun d => { d with flags := outside, stack := rest }
    assemble whole (Assembly.push (if captures then .group n p else p))
  | _ => throw ⟨.unexpectedParen, whole⟩

def part (bound : Nat) (whole text : List Char) (previous : Option (List Char)) (c : Char)
    (rest : List Char) : Reading (List Char × Bool) := do
  let f := (← get).flags
  let plain (step : Reading (List Char)) : Reading (List Char × Bool) := return (← step, false)
  let repeating (step : Reading (List Char)) : Reading (List Char × Bool) := return (← step, true)
  match c with
  | '(' => plain (parenthesis whole text)
  | ')' => plain do
    close bound whole
    return rest
  | '|' => plain do
    assemble whole Assembly.bar
    return rest
  | '^' => plain (anchor whole (if f.lines then .lineStart else .textStart) rest)
  | '$' => plain (anchor whole (if f.lines then .lineEnd else .textEnd) rest)
  | '.' => plain (add whole (fun n => .point n f.pointAll) rest)
  | '[' => plain do
    let (k, rest) ← bracketed bound f.fold text
    charClass whole k rest
  | '*' => repeating (repetition whole 0 none text rest previous)
  | '+' => repeating (repetition whole 1 none text rest previous)
  | '?' => repeating (repetition whole 0 (some 1) text rest previous)
  | '\\' => plain (backslash whole text)
  | _ =>
    match if c.toNat = 123 then repeatCounts? text else none with
    | some (none, after) => throw ⟨.badRepeatCount, between text after⟩
    | some (some (least, most), after) =>
      repeating (repetition whole least most text after previous)
    | none => plain do
      assemble whole (Assembly.character c.toNat)
      return rest

def parts (bound : Nat) (whole : List Char) :
    Nat → Option (List Char) → List Char → Reading Unit
  | n + 1, previous, c :: rest => do
    let (after, isRepetition) ← part bound whole (c :: rest) previous c rest
    parts bound whole n (if isRepetition then some (c :: rest) else none) after
  | _, _, _ => return

def pattern (whole : List Char) : Reading Pattern := do
  let bound := whole.length + 1
  parts bound whole bound none whole
  assemble whole (Assembly.closeGroup bound)
  match (← get).stack with
  | [.part p] => return p.pattern
  | _ => throw ⟨.missingParen, whole⟩

end Reading

def parse (text : Text) : Except Error Pattern :=
  ((Reading.pattern text.chars).run {}).map Prod.fst

end Pattern

end Orchestrion
