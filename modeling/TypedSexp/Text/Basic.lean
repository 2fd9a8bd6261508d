/-!
Text as the language sees it: a list of bytes. Source, names and messages may hold any bytes, so
every position, length and comparison counts bytes, and text that is not valid UTF-8 needs no
special case.
-/

namespace TypedSexp

abbrev Text := List UInt8

/-- A name bound by a program: any non-empty run of bytes the reader keeps together. -/
abbrev Name := Text

def utf8 (s : String) : Text := s.toUTF8.data.toList

namespace Byte

abbrev tab : UInt8 := 9
abbrev newline : UInt8 := 10
abbrev carriageReturn : UInt8 := 13
abbrev space : UInt8 := 32
abbrev bang : UInt8 := 33
abbrev quote : UInt8 := 34
abbrev openParen : UInt8 := 40
abbrev closeParen : UInt8 := 41
abbrev plus : UInt8 := 43
abbrev minus : UInt8 := 45
abbrev dot : UInt8 := 46
abbrev slash : UInt8 := 47
abbrev colon : UInt8 := 58
abbrev semicolon : UInt8 := 59
abbrev equals : UInt8 := 61
abbrev backslash : UInt8 := 92

def isDigit (c : UInt8) : Bool := 48 ≤ c && c ≤ 57

def digitValue (c : UInt8) : Nat := c.toNat - 48

end Byte

namespace Text

def ofNat (n : Nat) : Text := (Nat.toDigits 10 n).map (·.toNat.toUInt8)

def ofInt : Int → Text
  | .ofNat n => ofNat n
  | .negSucc n => Byte.minus :: ofNat (n + 1)

def ofBool (b : Bool) : Text := if b then utf8 "true" else utf8 "false"

def ofNatPadded (width n : Nat) : Text :=
  let digits := ofNat n
  List.replicate (width - digits.length) 48 ++ digits

def join (separator : Text) : List Text → Text
  | [] => []
  | [part] => part
  | part :: rest => part ++ separator ++ join separator rest

def lines (parts : List Text) : Text := parts.flatMap (· ++ [Byte.newline])

def inQuotes (t : Text) : Text := utf8 "'" ++ t ++ utf8 "'"

def dropStart? (start t : Text) : Option Text :=
  if start.isPrefixOf t then some (t.drop start.length) else none

def cut (c : UInt8) : Text → Text × Option Text
  | [] => ([], none)
  | b :: rest =>
      if b = c then ([], some rest)
      else ((b :: (cut c rest).1), (cut c rest).2)

/-- The pieces between occurrences of `c`; there is always one more piece than occurrences. -/
def splitOn (c : UInt8) : Text → List Text
  | [] => [[]]
  | b :: rest =>
      if b = c then [] :: splitOn c rest
      else match splitOn c rest with
        | [] => [[b]]
        | piece :: pieces => (b :: piece) :: pieces

@[simp]
theorem splitOn_ne_nil (c : UInt8) (t : Text) : splitOn c t ≠ [] := by
  cases t with
  | nil => simp [splitOn]
  | cons b rest =>
      unfold splitOn
      split
      · simp
      · split <;> simp

def insertName (name : Name) : List Name → List Name
  | [] => [name]
  | other :: rest =>
      if name < other then name :: other :: rest
      else if name = other then other :: rest
      else other :: insertName name rest

def sortNames (names : List Name) : List Name := names.foldr insertName []

end Text

end TypedSexp
