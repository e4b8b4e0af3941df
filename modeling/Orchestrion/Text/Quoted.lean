import Orchestrion.Text
import Orchestrion.Text.Printable

/-!
# Quoted text

Messages quote pieces of input between double quotes. Printable characters stand for themselves;
the quote, the backslash and everything that cannot be seen are written as escapes, so a quoted
text always fits on one line.
-/

namespace Orchestrion.Text

def Glyph.quoted : Glyph → Text
  | .stray b => "\\x" ++ ofHex 2 b.toNat
  | .char c =>
    if c = '"' || c = '\\' then "\\" ++ ofChar c
    else if isPrintable c then ofChar c
    else match c.toNat with
      | 0x07 => "\\a"
      | 0x08 => "\\b"
      | 0x0c => "\\f"
      | 0x0a => "\\n"
      | 0x0d => "\\r"
      | 0x09 => "\\t"
      | 0x0b => "\\v"
      | n =>
        if n < 0x20 || n = 0x7f then "\\x" ++ ofHex 2 n
        else if n < 0x10000 then "\\u" ++ ofHex 4 n
        else "\\U" ++ ofHex 8 n

def quoted (t : Text) : Text :=
  "\"" ++ t.glyphs.flatMap Glyph.quoted ++ "\""

end Orchestrion.Text
