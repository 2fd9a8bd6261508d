import TypedSexp.Diagnostic.Basic
import TypedSexp.Run.Value
import TypedSexp.Word

namespace TypedSexp.Primitive

def misuse {α : Type} (p : Primitive) (m : Misuse) : Except Diagnostic α :=
  .error ⟨Range.none, .primitiveMisuse p.name m⟩

def bounded (p : Primitive) (left right spilled result : UInt64) : Except Diagnostic Value :=
  if spilled = 0 then .ok (.num result) else p.misuse (.overflow left right)

def onNumbers (p : Primitive) (f : UInt64 → UInt64 → Except Diagnostic Value) :
    List Value → Except Diagnostic Value
  | [.num a, .num b] => f a b
  | [a, b] => p.misuse (.operands (utf8 "two numbers") [a.toText, b.toText])
  | args => p.misuse (.arity 2 args.length)

def onBooleans (p : Primitive) (f : Bool → Bool → Bool) : List Value → Except Diagnostic Value
  | [.bool a, .bool b] => .ok (.bool (f a b))
  | [a, b] => p.misuse (.operands (utf8 "two booleans") [a.toText, b.toText])
  | args => p.misuse (.arity 2 args.length)

def apply (p : Primitive) (args : List Value) : Except Diagnostic Value :=
  match p with
  | .add => p.onNumbers (fun a b => p.bounded a b (Word.carry a b) (a + b)) args
  | .sub => p.onNumbers (fun a b => .ok (.num (Word.truncatedSub a b))) args
  | .mul => p.onNumbers (fun a b => p.bounded a b (Word.high a b) (a * b)) args
  | .equal => p.onNumbers (fun a b => .ok (.bool (a == b))) args
  | .less => p.onNumbers (fun a b => .ok (.bool (a < b))) args
  | .and => p.onBooleans (· && ·) args
  | .or => p.onBooleans (· || ·) args
  | .isZero =>
      match args with
      | [.num n] => .ok (.bool (n == 0))
      | [v] => p.misuse (.operands (utf8 "a number") [v.toText])
      | args => p.misuse (.arity 1 args.length)
  | .not =>
      match args with
      | [.bool b] => .ok (.bool !b)
      | [v] => p.misuse (.operands (utf8 "a boolean") [v.toText])
      | args => p.misuse (.arity 1 args.length)

end TypedSexp.Primitive
