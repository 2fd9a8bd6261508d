import TypedSexp.Text.Utf8

/-!
Capital and small letters, for comparing words of ASCII letters in either case. Above ASCII only the
letters matter whose other form is an ASCII letter; all else is left as it is.
-/

namespace TypedSexp.Text

def capital (c : Nat) : Nat :=
  if 97 ≤ c ∧ c ≤ 122 then c - 32
  else if c = 0x131 then 73
  else if c = 0x17F then 83
  else c

def small (c : Nat) : Nat :=
  if 65 ≤ c ∧ c ≤ 90 then c + 32
  else if c = 0x130 then 105
  else if c = 0x212A then 107
  else c

def mapScalars (f : Nat → Nat) (t : Text) : Text :=
  t.symbols.flatMap fun
    | .scalar c => Symbol.encode (f c)
    | .stray b => [b]

def toUpper (t : Text) : Text := mapScalars capital t

def toLower (t : Text) : Text := mapScalars small t

end TypedSexp.Text
