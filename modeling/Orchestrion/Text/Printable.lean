import Orchestrion.Pattern.Property.Category

/-!
# Printable characters

The characters that a quoted text shows as they are: letters, marks, numbers, punctuation and
symbols of Unicode 17.0, and the space. All others are written as escapes.
-/

namespace Orchestrion.Text

def printablePoints : Pattern.CharClass :=
  Pattern.unionOfCategories
    ["ll", "lm", "lo", "lt", "lu", "mc", "me", "mn", "nd", "nl", "no", "pc", "pd", "pe", "pf", "pi",
      "po", "ps", "sc", "sk", "sm", "so"]

def isPrintable (c : Char) : Bool :=
  if c.toNat < 0x7f then 0x20 ≤ c.toNat else printablePoints.contains c.toNat

end Orchestrion.Text
