import TypedSexp.Ty.Basic

namespace TypedSexp

inductive Primitive where
  | add
  | sub
  | mul
  | equal
  | less
  | and
  | or
  | isZero
  | not
deriving DecidableEq, Repr

namespace Primitive

def name : Primitive → Name
  | .add => utf8 "+"
  | .sub => utf8 "-"
  | .mul => utf8 "*"
  | .equal => utf8 "=="
  | .less => utf8 "<"
  | .and => utf8 "&&"
  | .or => utf8 "||"
  | .isZero => utf8 "zero?"
  | .not => utf8 "not"

def all : List Primitive := [.add, .sub, .mul, .equal, .less, .and, .or, .isZero, .not]

def signature : Primitive → Ty
  | .add => .arrow [.nat, .nat] .nat
  | .sub => .arrow [.nat, .nat] .nat
  | .mul => .arrow [.nat, .nat] .nat
  | .equal => .arrow [.nat, .nat] .bool
  | .less => .arrow [.nat, .nat] .bool
  | .and => .arrow [.bool, .bool] .bool
  | .or => .arrow [.bool, .bool] .bool
  | .isZero => .arrow [.nat] .bool
  | .not => .arrow [.bool] .bool

end Primitive

end TypedSexp
