import TypedSexp.Numeral
import TypedSexp.Source.Range
import TypedSexp.Ty.Basic

namespace TypedSexp

inductive Expr where
  | var (range : Range) (name : Name)
  | num (range : Range) (value : UInt64)
  | bool (range : Range) (value : Bool)
  | lambda (range : Range) (param : Name) (paramType : Ty) (body : Expr)
  | apply (range : Range) (head : Expr) (args : List Expr)
  | cond (range : Range) (guard thenBranch elseBranch : Expr)
  /-- A record; the order of the fields is the order in which they are evaluated. -/
  | record (range : Range) (fields : List (Name × Expr))
  | project (range : Range) (target : Expr) (name : Name)
  | inject (range : Range) (variant : Name) (payload : Expr)
deriving Repr, Inhabited

inductive Stmt where
  | define (range : Range) (name : Name) (value : Expr)
  /-- A new value for an existing binding. Any expression may stand as the target; one that is no
  variable is refused by checking and by execution. -/
  | assign (range : Range) (target value : Expr)
  | print (range : Range) (value : Expr)
deriving Repr, Inhabited

abbrev Script := List Stmt

namespace Expr

def range : Expr → Range
  | .var r _ => r
  | .num r _ => r
  | .bool r _ => r
  | .lambda r _ _ _ => r
  | .apply r _ _ => r
  | .cond r _ _ _ => r
  | .record r _ => r
  | .project r _ _ => r
  | .inject r _ _ => r

def describe : Expr → Text
  | .var .. => utf8 "variable"
  | .num .. => utf8 "numeric literal"
  | .bool .. => utf8 "boolean literal"
  | .lambda .. => utf8 "lambda"
  | .apply .. => utf8 "application"
  | .cond .. => utf8 "conditional"
  | .record .. => utf8 "record"
  | .project .. => utf8 "field projection"
  | .inject .. => utf8 "union injection"

mutual

def toText : Expr → Text
  | .var _ name => name
  | .num _ value => Numeral.write value
  | .bool _ value => Text.ofBool value
  | .lambda _ param paramType body =>
      utf8 "(lambda " ++ param ++ utf8 " " ++ paramType.toText ++ utf8 " " ++ toText body ++
        utf8 ")"
  | .apply _ head args => utf8 "(" ++ toText head ++ toTextArgs args ++ utf8 ")"
  | .cond _ guard thenBranch elseBranch =>
      utf8 "(if " ++ toText guard ++ utf8 " " ++ toText thenBranch ++ utf8 " " ++
        toText elseBranch ++ utf8 ")"
  | .record _ fields => utf8 "(rec" ++ toTextFields fields ++ utf8 ")"
  | .project _ target name => utf8 "(field " ++ toText target ++ utf8 " " ++ name ++ utf8 ")"
  | .inject _ variant payload =>
      utf8 "(union " ++ variant ++ utf8 " " ++ toText payload ++ utf8 ")"

def toTextArgs : List Expr → Text
  | [] => []
  | e :: rest => utf8 " " ++ toText e ++ toTextArgs rest

def toTextFields : List (Name × Expr) → Text
  | [] => []
  | (name, e) :: rest => utf8 " " ++ name ++ utf8 " " ++ toText e ++ toTextFields rest

end

end Expr

namespace Stmt

def range : Stmt → Range
  | .define r _ _ => r
  | .assign r _ _ => r
  | .print r _ => r

def toText : Stmt → Text
  | .define _ name value => utf8 "(define " ++ name ++ utf8 " " ++ value.toText ++ utf8 ")"
  | .assign _ target value =>
      utf8 "(assign " ++ target.toText ++ utf8 " " ++ value.toText ++ utf8 ")"
  | .print _ value => utf8 "(print " ++ value.toText ++ utf8 ")"

end Stmt

def Script.toText (script : Script) : Text :=
  Text.join [Byte.newline] (script.map Stmt.toText)

end TypedSexp
