import Orchestrion.Text.Blank
import Orchestrion.Token.Scan

/-!
# Words of a score line

A line of a score is cut into pieces from left to right. At each place four rules are tried in order
and the first that applies takes as much as it can: a comment, a number, a name, blanks. Comments
and blanks are dropped.

* `ScoreWord.scan`: the words of a line, or the first place where no rule applies.
-/

namespace Orchestrion

/-- A place in a line, counted in characters and in bytes. -/
structure ScorePlace where
  chars : Nat := 0
  bytes : Nat := 0
deriving DecidableEq, Repr

def ScorePlace.column (p : ScorePlace) : Nat := p.chars + 1

def ScorePlace.after (p : ScorePlace) (t : Text) : ScorePlace :=
  ⟨p.chars + t.glyphs.length, p.bytes + t.length⟩

/-- The pieces of a line, in the order in which they are tried. -/
inductive PieceKind where
  | comment
  | number
  | name
  | blank
deriving DecidableEq, Repr

namespace PieceKind

def isDropped : PieceKind → Bool
  | comment | blank => true
  | number | name => false

def isLineBlank (b : UInt8) : Bool := b = 32 || b = 9 || b = 13

def signedLength (t : Text) : Nat :=
  let sign := match t with
    | b :: _ => if Text.isSymbol '-' b || Text.isSymbol '+' b then 1 else 0
    | [] => 0
  let unsigned := t.drop sign
  if Token.startsNumeral unsigned then sign + (Token.numeralLength unsigned).1 else 0

def commentLength (t : Text) : Nat :=
  if t.startsWith "#" || t.startsWith "//" then (t.takeWhile (· ≠ 10)).length else 0

def nameLength (t : Text) : Nat :=
  match t with
  | b :: _ => if Text.isNameStart b then (t.takeWhile Text.isNamePart).length else 0
  | [] => 0

def lengthIn (t : Text) : PieceKind → Nat
  | comment => commentLength t
  | number => signedLength t
  | name => nameLength t
  | blank => (t.takeWhile isLineBlank).length

def first? (t : Text) : Option PieceKind :=
  [comment, number, name, blank].find? fun kind => kind.lengthIn t ≠ 0

end PieceKind

/-- A number or a name. -/
structure ScoreWord where
  isNumber : Bool
  text : Text
  place : ScorePlace
deriving DecidableEq, Repr

/-- The words of a line. -/
structure ScoreWords where
  words : List ScoreWord
  /-- The place behind the last piece. -/
  finish : ScorePlace
deriving DecidableEq, Repr

/-- The part of a line to which no rule applies. -/
structure ScoreGarbage where
  place : ScorePlace
  rest : Text
deriving DecidableEq, Repr

namespace ScoreWord

def scanFrom (place : ScorePlace) : Text → Except ScoreGarbage ScoreWords
  | [] => .ok ⟨[], place⟩
  | b :: rest =>
    match PieceKind.first? (b :: rest) with
    | none => .error ⟨place, b :: rest⟩
    | some kind =>
      -- A piece has at least one byte.
      let more := kind.lengthIn (b :: rest) - 1
      let piece := b :: rest.take more
      match scanFrom (place.after piece) (rest.drop more) with
      | .error e => .error e
      | .ok scanned =>
        if kind.isDropped then .ok scanned
        else .ok { scanned with words := ⟨kind = .number, piece, place⟩ :: scanned.words }
termination_by t => t.length
decreasing_by simp only [List.length_drop, List.length_cons]; omega

def scan (line : Text) : Except ScoreGarbage ScoreWords := scanFrom {} line

end ScoreWord

end Orchestrion
