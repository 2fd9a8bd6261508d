import TypedSexp.Numeral
import TypedSexp.Text.Letters
import TypedSexp.Text.Quoted

namespace TypedSexp.Log

structure Level where
  value : Int
deriving DecidableEq, Repr

namespace Level

def debug : Level := ⟨-4⟩

def info : Level := ⟨0⟩

def warn : Level := ⟨4⟩

def error : Level := ⟨8⟩

inductive Fault where
  | unknownName
  | badOffset (offset : Text)
  | hugeOffset (offset : Text)
deriving DecidableEq, Repr

def Fault.message (level : Text) (fault : Fault) : Text :=
  let reason := match fault with
    | .unknownName => utf8 "unknown name"
    | .badOffset offset =>
        utf8 "strconv.Atoi: parsing " ++ offset.quoted ++ utf8 ": invalid syntax"
    | .hugeOffset offset =>
        utf8 "strconv.Atoi: parsing " ++ offset.quoted ++ utf8 ": value out of range"
  utf8 "slog: level string " ++ level.quoted ++ utf8 ": " ++ reason

def isSign (c : UInt8) : Bool := c == Byte.plus || c == Byte.minus

def readOffset : Text → Except Fault Int
  | [] => .error (.badOffset [])
  | sign :: digits =>
      match Numeral.read digits with
      | .error .malformed => .error (.badOffset (sign :: digits))
      | .error .outOfRange => .error (.hugeOffset (sign :: digits))
      | .ok n =>
          let value : Int := if sign = Byte.minus then -(n.toNat : Int) else n.toNat
          if value = Int.bmod value UInt64.size then .ok value
          else .error (.hugeOffset (sign :: digits))

def ofName? (name : Text) : Option Level :=
  if name = utf8 "DEBUG" then some debug
  else if name = utf8 "INFO" then some info
  else if name = utf8 "WARN" then some warn
  else if name = utf8 "ERROR" then some error
  else none

def read (level : Text) : Except Fault Level := do
  let name := level.takeWhile (!isSign ·)
  let rest := level.dropWhile (!isSign ·)
  let offset ← if rest.isEmpty then .ok 0 else readOffset rest
  match ofName? (Text.toUpper name) with
  | some base => .ok ⟨Int.bmod (base.value + offset) UInt64.size⟩
  | none => .error .unknownName

def offsetText (name : Text) (offset : Int) : Text :=
  if offset = 0 then name
  else if offset < 0 then name ++ Text.ofInt offset
  else name ++ utf8 "+" ++ Text.ofInt offset

def toText (level : Level) : Text :=
  if level.value < info.value then offsetText (utf8 "DEBUG") (level.value - debug.value)
  else if level.value < warn.value then offsetText (utf8 "INFO") (level.value - info.value)
  else if level.value < error.value then offsetText (utf8 "WARN") (level.value - warn.value)
  else offsetText (utf8 "ERROR") (level.value - error.value)

end Level

end TypedSexp.Log
