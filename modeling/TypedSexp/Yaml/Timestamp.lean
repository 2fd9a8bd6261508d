import TypedSexp.Text.Basic

namespace TypedSexp.Yaml.Timestamp

def number? : Text → Option (Nat × Text)
  | a :: b :: rest =>
      if !Byte.isDigit a then none
      else if Byte.isDigit b then some (Byte.digitValue a * 10 + Byte.digitValue b, rest)
      else some (Byte.digitValue a, b :: rest)
  | [a] => if Byte.isDigit a then some (Byte.digitValue a, []) else none
  | [] => none

def numberIn? (low high : Nat) (t : Text) : Option (Nat × Text) := do
  let (n, rest) ← number? t
  if low ≤ n && n ≤ high then some (n, rest) else none

def after? (c : UInt8) : Text → Option Text
  | b :: rest => if b = c then some rest else none
  | [] => none

def isLeap (year : Nat) : Bool := year % 4 = 0 && (year % 100 ≠ 0 || year % 400 = 0)

def daysIn (year month : Nat) : Nat :=
  if month = 2 then (if isLeap year then 29 else 28)
  else if [4, 6, 9, 11].contains month then 30
  else 31

def afterDate? (t : Text) : Option Text := do
  let year := t.takeWhile Byte.isDigit
  if year.length ≠ 4 then none
  let rest ← after? Byte.minus (t.drop 4)
  let (month, rest) ← numberIn? 1 12 rest
  let rest ← after? Byte.minus rest
  let value := year.foldl (fun acc c => acc * 10 + Byte.digitValue c) 0
  let (_, rest) ← numberIn? 1 (daysIn value month) rest
  return rest

def afterFraction : Text → Text
  | point :: digit :: rest =>
      if (point = Byte.dot || point = 44) && Byte.isDigit digit then rest.dropWhile Byte.isDigit
      else point :: digit :: rest
  | t => t

def afterTime? (t : Text) : Option Text := do
  let (_, rest) ← numberIn? 0 23 t
  let rest ← after? Byte.colon rest
  let (_, rest) ← numberIn? 0 59 rest
  let rest ← after? Byte.colon rest
  let (_, rest) ← numberIn? 0 59 rest
  return afterFraction rest

def twoDigits? (a b : UInt8) : Option Nat :=
  if Byte.isDigit a && Byte.isDigit b then some (Byte.digitValue a * 10 + Byte.digitValue b)
  else none

def isZone : Text → Bool
  | [90] => true
  | [sign, a, b, colon, c, d] =>
      (sign = Byte.plus || sign = Byte.minus) && colon = Byte.colon &&
        (twoDigits? a b).any (· ≤ 24) && (twoDigits? c d).any (· ≤ 60)
  | _ => false

/-- Whether a text is a point in time. Spaces, or a letter T in either case, part the time of day
from the date; only after the letter there is a zone. -/
def isTimestamp (t : Text) : Bool :=
  match afterDate? t with
  | none => false
  | some [] => true
  | some (c :: rest) =>
      if c = 84 || c = 116 then (afterTime? rest).any isZone
      else if c = Byte.space then
        (afterTime? (rest.dropWhile (· = Byte.space))).any List.isEmpty
      else false

end TypedSexp.Yaml.Timestamp
