import TypedSexp.Text.Basic

/-!
Decoding bytes as UTF-8. Decoding never fails: a byte that starts no well-formed sequence is a
symbol of its own, so that ASCII bytes keep their place whatever surrounds them.
-/

namespace TypedSexp

inductive Symbol where
  | scalar (code : Nat)
  | stray (byte : UInt8)
deriving DecidableEq, Repr

namespace Symbol

def replacement : Nat := 0xFFFD

def code : Symbol → Nat
  | .scalar c => c
  | .stray _ => replacement

def encode (c : Nat) : Text :=
  if c < 0x80 then [c.toUInt8]
  else if c < 0x800 then [(0xC0 + c / 0x40).toUInt8, (0x80 + c % 0x40).toUInt8]
  else if c < 0x10000 then
    [(0xE0 + c / 0x1000).toUInt8, (0x80 + c / 0x40 % 0x40).toUInt8, (0x80 + c % 0x40).toUInt8]
  else
    [(0xF0 + c / 0x40000).toUInt8, (0x80 + c / 0x1000 % 0x40).toUInt8,
      (0x80 + c / 0x40 % 0x40).toUInt8, (0x80 + c % 0x40).toUInt8]

def bytes : Symbol → Text
  | .scalar c => encode c
  | .stray b => [b]

end Symbol

namespace Text

def continuation? (b : UInt8) : Option Nat :=
  if 0x80 ≤ b && b < 0xC0 then some (b.toNat - 0x80) else none

def pair? (a b : UInt8) : Option Nat := do
  if 0xC2 ≤ a && a < 0xE0 then
    let y ← continuation? b
    return (a.toNat - 0xC0) * 0x40 + y
  else none

def triple? (a b c : UInt8) : Option Nat := do
  if 0xE0 ≤ a && a < 0xF0 then
    let y ← continuation? b
    let z ← continuation? c
    let code := (a.toNat - 0xE0) * 0x1000 + y * 0x40 + z
    if code < 0x800 || (0xD800 ≤ code && code < 0xE000) then none else some code
  else none

def quadruple? (a b c d : UInt8) : Option Nat := do
  if 0xF0 ≤ a && a < 0xF5 then
    let x ← continuation? b
    let y ← continuation? c
    let z ← continuation? d
    let code := (a.toNat - 0xF0) * 0x40000 + x * 0x1000 + y * 0x40 + z
    if code < 0x10000 || 0x110000 ≤ code then none else some code
  else none

def leading (a : UInt8) (rest : Text) : Symbol × Nat :=
  if a < 0x80 then (.scalar a.toNat, 0)
  else
    let two := rest[0]?.bind (pair? a)
    let three := rest[0]?.bind fun b => rest[1]?.bind (triple? a b)
    let four := rest[0]?.bind fun b => rest[1]?.bind fun c => rest[2]?.bind (quadruple? a b c)
    match two, three, four with
    | some code, _, _ => (.scalar code, 1)
    | _, some code, _ => (.scalar code, 2)
    | _, _, some code => (.scalar code, 3)
    | none, none, none => (.stray a, 0)

/-- The symbols of a text once `skip` bytes that are already accounted for have gone by. -/
def symbolsAfter (skip : Nat) : Text → List Symbol
  | [] => []
  | a :: rest =>
      match skip with
      | skip + 1 => symbolsAfter skip rest
      | 0 => (leading a rest).1 :: symbolsAfter (leading a rest).2 rest

def symbols (t : Text) : List Symbol := symbolsAfter 0 t

def ofSymbols (ss : List Symbol) : Text := ss.flatMap Symbol.bytes

end Text

end TypedSexp
