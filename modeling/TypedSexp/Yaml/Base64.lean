import TypedSexp.Text.Basic

namespace TypedSexp.Yaml.Base64

def sextet? (c : UInt8) : Option Nat :=
  if 65 ≤ c && c ≤ 90 then some (c.toNat - 65)
  else if 97 ≤ c && c ≤ 122 then some (c.toNat - 71)
  else if Byte.isDigit c then some (c.toNat + 4)
  else if c = Byte.plus then some 62
  else if c = Byte.slash then some 63
  else none

def groups? : Text → Option Text
  | [] => some []
  | [a, b, 61, 61] => do
      let bits := (← sextet? a) * 0x40 + (← sextet? b)
      return [(bits / 0x10).toUInt8]
  | [a, b, c, 61] => do
      let bits := ((← sextet? a) * 0x40 + (← sextet? b)) * 0x40 + (← sextet? c)
      return [(bits / 0x400).toUInt8, (bits / 0x4).toUInt8]
  | a :: b :: c :: d :: rest => do
      let bits := (((← sextet? a) * 0x40 + (← sextet? b)) * 0x40 + (← sextet? c)) * 0x40 +
        (← sextet? d)
      let more ← groups? rest
      return (bits / 0x10000).toUInt8 :: (bits / 0x100).toUInt8 :: bits.toUInt8 :: more
  | _ => none

def decode? (t : Text) : Option Text :=
  groups? (t.filter fun c => c ≠ Byte.newline && c ≠ Byte.carriageReturn)

end TypedSexp.Yaml.Base64
