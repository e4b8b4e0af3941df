/-!
# Text

A text is a sequence of bytes. Orchestras are read as bytes, since they may hold bytes that form
no character and their columns count bytes; messages are written as bytes, since they quote them.

* `Text.ofString`: the bytes of a string, used silently wherever a literal meets a text.
* `Text.glyphs`: the characters of a text, and the bytes that belong to none.
-/

namespace Orchestrion

abbrev Text := List UInt8

namespace Text

def ofString (s : String) : Text :=
  s.toList.flatMap String.utf8EncodeChar

instance : Coe String Text := ⟨ofString⟩

def ofChar (c : Char) : Text :=
  String.utf8EncodeChar c

def ofNat (n : Nat) : Text :=
  (Nat.toDigits 10 n).flatMap ofChar

def ofInt : Int → Text
  | .ofNat n => ofNat n
  | .negSucc n => "-" ++ ofNat (n + 1)

def padZeros (width : Nat) (t : Text) : Text :=
  List.replicate (width - t.length) 48 ++ t

def ofIntPadded (width : Nat) : Int → Text
  | .ofNat n => padZeros width (ofNat n)
  | .negSucc n => "-" ++ padZeros (width - 1) (ofNat (n + 1))

def ofHex (width n : Nat) : Text :=
  padZeros width ((Nat.toDigits 16 n).flatMap ofChar)

def join (separator : Text) (texts : List Text) : Text :=
  separator.intercalate texts

def symbol (b : UInt8) : Char :=
  Char.ofNat b.toNat

def isSymbol (c : Char) (b : UInt8) : Bool :=
  symbol b == c

def isDigit (b : UInt8) : Bool :=
  48 ≤ b && b ≤ 57

def isNameStart (b : UInt8) : Bool :=
  (97 ≤ b && b ≤ 122) || (65 ≤ b && b ≤ 90) || b == 95

def isNamePart (b : UInt8) : Bool :=
  isNameStart b || isDigit b

def startsWith (t start : Text) : Bool :=
  start.isPrefixOf t

/-- A character, or a byte that is part of none. -/
inductive Glyph where
  | char (c : Char)
  | stray (b : UInt8)
deriving DecidableEq, Repr

def isContinuation (b : UInt8) : Bool :=
  0x80 ≤ b && b ≤ 0xbf

def payload (b : UInt8) : Nat :=
  b.toNat % 64

def character? (lead : UInt8) (rest : Text) : Option (Char × Nat) :=
  if lead < 0x80 then some (symbol lead, 0)
  else match rest with
    | b :: rest =>
      if 0xc2 ≤ lead && lead ≤ 0xdf && isContinuation b then
        some (Char.ofNat (lead.toNat % 32 * 64 + payload b), 1)
      else match rest with
        | c :: rest =>
          let low : UInt8 := if lead = 0xe0 then 0xa0 else 0x80
          let high : UInt8 := if lead = 0xed then 0x9f else 0xbf
          if 0xe0 ≤ lead && lead ≤ 0xef && low ≤ b && b ≤ high && isContinuation c then
            some (Char.ofNat (lead.toNat % 16 * 4096 + payload b * 64 + payload c), 2)
          else match rest with
            | d :: _ =>
              let low : UInt8 := if lead = 0xf0 then 0x90 else 0x80
              let high : UInt8 := if lead = 0xf4 then 0x8f else 0xbf
              if 0xf0 ≤ lead && lead ≤ 0xf4 && low ≤ b && b ≤ high && isContinuation c
                  && isContinuation d then
                some (Char.ofNat (lead.toNat % 8 * 262144 + payload b * 4096 + payload c * 64
                  + payload d), 3)
              else none
            | [] => none
        | [] => none
    | [] => none

def glyphs : Text → List Glyph
  | [] => []
  | lead :: rest =>
    match character? lead rest with
    | some (c, n) => .char c :: glyphs (rest.drop n)
    | none => .stray lead :: glyphs rest
termination_by t => t.length
decreasing_by all_goals simp only [List.length_drop, List.length_cons]; omega

def Glyph.bytes : Glyph → Text
  | .char c => ofChar c
  | .stray b => [b]

def chars (t : Text) : List Char :=
  t.glyphs.map fun
    | .char c => c
    | .stray _ => '\ufffd'

end Text

end Orchestrion
