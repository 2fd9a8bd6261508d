import TypedSexp.Text.Basic

namespace TypedSexp.Numeral

inductive Fault where
  | malformed
  | outOfRange
deriving DecidableEq, Repr

namespace Fault

def message : Fault → Text
  | .malformed => utf8 "invalid syntax"
  | .outOfRange => utf8 "value out of range"

end Fault

abbrev limit : Nat := UInt64.size

def isNumeral (t : Text) : Bool := !t.isEmpty && t.all Byte.isDigit

/-- Reads the remaining digits after a part worth `acc`, from the left: the first byte that is no
digit and the first digit that leaves the range each end the reading, whichever comes first. -/
def readFrom (acc : Nat) : Text → Except Fault UInt64
  | [] => .ok (UInt64.ofNat acc)
  | c :: rest =>
      if Byte.isDigit c then
        let value := acc * 10 + Byte.digitValue c
        if value < limit then readFrom value rest else .error .outOfRange
      else .error .malformed

def read : Text → Except Fault UInt64
  | [] => .error .malformed
  | c :: rest => readFrom 0 (c :: rest)

def write (n : UInt64) : Text := Text.ofNat n.toNat

end TypedSexp.Numeral
