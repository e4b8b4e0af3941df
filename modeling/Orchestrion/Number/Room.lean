/-!
# Room for numbers

Numbers in a row lie in one piece of memory, whose addresses have 48 bits.
-/

namespace Orchestrion.Number

def addressSpace : Nat := 281474976710656

def hasRoom (count : Int) (bytes : Nat) : Bool := 0 ≤ count && count * bytes ≤ addressSpace

def hasSingleRoom (count : Int) : Bool := hasRoom count 4

end Orchestrion.Number
