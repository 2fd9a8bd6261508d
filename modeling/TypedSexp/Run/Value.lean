import TypedSexp.Expr.Basic
import TypedSexp.Primitive

namespace TypedSexp

/-- What an expression evaluates to. A closure keeps the scope it was made in by its number, so that
it sees later changes to that scope. -/
inductive Value where
  | num (n : UInt64)
  | bool (b : Bool)
  | prim (p : Primitive)
  | closure (param : Name) (body : Expr) (scope : Nat)
  /-- A record, its fields in the order in which they were evaluated; two of one name have one
  value. -/
  | record (fields : List (Name × Value))
  | union (variant : Name) (payload : Value)
deriving Repr, Inhabited

namespace Value

/-- The record of some fields. Of two values for a name the later one counts, in both places. -/
def ofFields (fields : List (Name × Value)) : Value :=
  .record (Members.listed (Members.names fields) (Members.ofList fields))

mutual

def toText : Value → Text
  | .num n => Numeral.write n
  | .bool b => Text.ofBool b
  | .prim p => utf8 "<prim " ++ p.name ++ utf8 ">"
  | .closure .. => utf8 "<closure>"
  | .record fields => utf8 "<rec " ++ toTextFields fields ++ utf8 ">"
  | .union variant payload => variant ++ utf8 ", " ++ toText payload

def toTextFields : List (Name × Value) → Text
  | [] => []
  | [(name, v)] => name ++ utf8 ", " ++ toText v
  | (name, v) :: rest => name ++ utf8 ", " ++ toText v ++ utf8 ", " ++ toTextFields rest

end

end Value

end TypedSexp
