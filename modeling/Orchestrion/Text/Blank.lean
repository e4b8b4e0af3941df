import Orchestrion.Text

/-!
# White space

The characters that count as white space around a line of a score, and trimming them.
-/

namespace Orchestrion.Text

def isWhiteSpace (c : Char) : Bool :=
  let n := c.toNat
  (0x09 ≤ n && n ≤ 0x0d) || n == 0x20 || n == 0x85 || n == 0xa0 || n == 0x1680
    || (0x2000 ≤ n && n ≤ 0x200a) || n == 0x2028 || n == 0x2029 || n == 0x202f || n == 0x205f
    || n == 0x3000

def Glyph.isWhiteSpace : Glyph → Bool
  | .char c => Text.isWhiteSpace c
  | .stray _ => false

def trimStart (t : Text) : Text :=
  (t.glyphs.dropWhile Glyph.isWhiteSpace).flatMap Glyph.bytes

end Orchestrion.Text
