import TypedSexp.Text.Utf8

/-!
White space at the ends of a line of input. Unlike the separators inside source text, which are four
ASCII bytes, it follows the Unicode property.
-/

namespace TypedSexp.Text

def isWhiteSpace (c : Nat) : Bool :=
  (9 ≤ c && c ≤ 13) || c = 0x20 || c = 0x85 || c = 0xA0 || c = 0x1680 ||
    (0x2000 ≤ c && c ≤ 0x200A) || c = 0x2028 || c = 0x2029 || c = 0x202F || c = 0x205F || c = 0x3000

def isBlankSymbol (s : Symbol) : Bool := isWhiteSpace s.code

def trim (t : Text) : Text :=
  let front := t.symbols.dropWhile isBlankSymbol
  ofSymbols (front.reverse.dropWhile isBlankSymbol).reverse

end TypedSexp.Text
