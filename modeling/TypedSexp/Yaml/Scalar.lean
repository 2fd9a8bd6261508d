import TypedSexp.Double
import TypedSexp.Yaml.Timestamp

namespace TypedSexp.Yaml

inductive Scalar where
  | null
  | bool (b : Bool)
  | int (n : Int)
  | float (x : Double)
  | text (t : Text)
  | time
  | list
  | mapping
deriving DecidableEq, Repr

inductive Tag where
  | null
  | bool
  | int
  | float
  | time
  | text
deriving DecidableEq, Repr

namespace Tag

def toText : Tag → Text
  | .null => utf8 "!!null"
  | .bool => utf8 "!!bool"
  | .int => utf8 "!!int"
  | .float => utf8 "!!float"
  | .time => utf8 "!!timestamp"
  | .text => utf8 "!!str"

def all : List Tag := [.null, .bool, .int, .float, .time, .text]

def ofText? (t : Text) : Option Tag := all.find? fun tag => tag.toText = t

end Tag

def Scalar.tag : Scalar → Tag
  | .null => .null
  | .bool _ => .bool
  | .int _ => .int
  | .float _ => .float
  | .time => .time
  | _ => .text

namespace Plain

def digit? (c : UInt8) : Option Nat :=
  if Byte.isDigit c then some (Byte.digitValue c)
  else if 97 ≤ c && c ≤ 122 then some (c.toNat - 87)
  else if 65 ≤ c && c ≤ 90 then some (c.toNat - 55)
  else none

def digitsIn? (base : Nat) (digits : Text) : Option Nat :=
  digits.foldlM (fun acc c => do
    let value ← digit? c
    if value < base then some (acc * base + value) else none) 0

def baseOf : Text → Nat × Text
  | 48 :: letter :: c :: rest =>
      if letter = 98 || letter = 66 then (2, c :: rest)
      else if letter = 111 || letter = 79 then (8, c :: rest)
      else if letter = 120 || letter = 88 then (16, c :: rest)
      else (8, letter :: c :: rest)
  | 48 :: rest => (8, rest)
  | digits => (10, digits)

def splitSign : Text → Bool × Text
  | c :: rest =>
      if c = Byte.minus then (true, rest)
      else if c = Byte.plus then (false, rest)
      else (false, c :: rest)
  | [] => (false, [])

def signed? (negative : Bool) (magnitude : Nat) : Option Int :=
  let value : Int := if negative then -(magnitude : Int) else magnitude
  if value = Int.bmod value UInt64.size then some value else none

def unsigned? (magnitude : Nat) : Option Int :=
  if magnitude < UInt64.size then some magnitude else none

def intByStart? (t : Text) : Option Int := do
  let (negative, digits) := splitSign t
  if digits.isEmpty then none
  let (base, rest) := baseOf digits
  let magnitude ← digitsIn? base rest
  (signed? negative magnitude).or (if digits = t then unsigned? magnitude else none)

def intIn? (base : Nat) (t : Text) : Option Int := do
  let (negative, digits) := splitSign t
  if digits.isEmpty then none
  let magnitude ← digitsIn? base digits
  (signed? negative magnitude).or (if digits = t then unsigned? magnitude else none)

def intAfterMark? (base : Nat) (mark t : Text) : Option Int :=
  match Text.dropStart? mark t, Text.dropStart? (Byte.minus :: mark) t with
  | some rest, _ => intIn? base rest
  | none, some rest => do
      let value ← digitsIn? base rest
      if rest.isEmpty then none else signed? true value
  | none, none => none

/-- The exponent after the letter e. Digits that would make it greater than any number needs do not
count. -/
def exponent? : Text → Option Int
  | [] => some 0
  | mark :: rest => do
      if mark ≠ 101 && mark ≠ 69 then none
      let (negative, digits) := splitSign rest
      if digits.isEmpty || !digits.all Byte.isDigit then none
      let n := digits.foldl (fun acc c =>
        if acc < 10000 then acc * 10 + Byte.digitValue c else acc) 0
      return if negative then -(n : Int) else n

def decimal? (t : Text) : Option Decimal := do
  let (negative, body) := splitSign t
  let whole := body.takeWhile Byte.isDigit
  let (places, rest) := match body.dropWhile Byte.isDigit with
    | 46 :: rest => (rest.takeWhile Byte.isDigit, rest.dropWhile Byte.isDigit)
    | rest => ([], rest)
  if whole.isEmpty && places.isEmpty then none
  let exponent ← exponent? rest
  let digits ← digitsIn? 10 (whole ++ places)
  return ⟨negative, digits, exponent - places.length⟩

def float? (t : Text) : Option Double := (decimal? t).bind Double.ofDecimal?

/-- Whether every underscore stands between two digits; `previous` is the byte before the text. -/
def partsDigits (previous : UInt8) : Text → Bool
  | [] => previous ≠ 95
  | c :: rest =>
      (if c = 95 then Byte.isDigit previous else previous ≠ 95 || Byte.isDigit c) &&
        partsDigits c rest

def words : List (String × Scalar) :=
  [("", .null), ("~", .null), ("null", .null), ("Null", .null), ("NULL", .null),
    ("true", .bool true), ("True", .bool true), ("TRUE", .bool true),
    ("false", .bool false), ("False", .bool false), ("FALSE", .bool false),
    (".nan", .float .nan), (".NaN", .float .nan), (".NAN", .float .nan),
    (".inf", .float (.infinite false)), (".Inf", .float (.infinite false)),
    (".INF", .float (.infinite false)), ("+.inf", .float (.infinite false)),
    ("+.Inf", .float (.infinite false)), ("+.INF", .float (.infinite false)),
    ("-.inf", .float (.infinite true)), ("-.Inf", .float (.infinite true)),
    ("-.INF", .float (.infinite true))]

def word? (t : Text) : Option Scalar :=
  (words.find? fun word => utf8 word.1 = t).map Prod.snd

/-- A number: an integer, or else a decimal, or else an integer whose sign stands behind the mark of
its base. Underscores do not count. -/
def number? (t : Text) : Option Scalar :=
  let bare := t.filter (· ≠ 95)
  ((intByStart? bare).map .int).or <| ((float? bare).map .float).or <|
    ((intAfterMark? 2 (utf8 "0b") bare).map .int).or <|
      (intAfterMark? 8 (utf8 "0o") bare).map .int

def resolve (times : Bool) (t : Text) : Scalar :=
  match word? t, t with
  | some value, _ => value
  | none, [] => .null
  | none, first :: _ =>
      if first = Byte.dot then
        let number := if partsDigits 0 t then float? (t.filter (· ≠ 95)) else none
        (number.map .float).getD (.text t)
      else if Byte.isDigit first || first = Byte.plus || first = Byte.minus then
        if times && Timestamp.isTimestamp t then .time else (number? t).getD (.text t)
      else .text t

end Plain

end TypedSexp.Yaml
