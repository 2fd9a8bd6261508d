import TypedSexp.Text.Printable

namespace TypedSexp.Text

def hexDigit (n : Nat) : UInt8 := (if n < 10 then 48 + n else 87 + n).toUInt8

def hexPadded : (width n : Nat) → Text
  | 0, _ => []
  | width + 1, n => hexPadded width (n / 16) ++ [hexDigit (n % 16)]

def controlLetter? : Nat → Option UInt8
  | 7 => some 97
  | 8 => some 98
  | 9 => some 116
  | 10 => some 110
  | 11 => some 118
  | 12 => some 102
  | 13 => some 114
  | _ => none

def quotedScalar (mark : UInt8) (c : Nat) : Text :=
  if c = mark.toNat || c = Byte.backslash.toNat then [Byte.backslash, c.toUInt8]
  else if isPrintable c then Symbol.encode c
  else match controlLetter? c with
    | some letter => [Byte.backslash, letter]
    | none =>
        if c < 0x20 || c = 0x7F then utf8 "\\x" ++ hexPadded 2 c
        else if c < 0x10000 then utf8 "\\u" ++ hexPadded 4 c
        else utf8 "\\U" ++ hexPadded 8 c

def quotedSymbol (mark : UInt8) : Symbol → Text
  | .scalar c => quotedScalar mark c
  | .stray b => utf8 "\\x" ++ hexPadded 2 b.toNat

def quoted (t : Text) : Text :=
  Byte.quote :: (t.symbols.flatMap (quotedSymbol Byte.quote) ++ [Byte.quote])

def quotedMark (c : Nat) : Text := utf8 "'" ++ quotedScalar 39 c ++ utf8 "'"

end TypedSexp.Text
