import TypedSexp.Source.Range

namespace TypedSexp

inductive Sexp where
  | atom (range : Range) (text : Text)
  | list (range : Range) (elems : List Sexp)
deriving Repr, Inhabited

namespace Sexp

def range : Sexp → Range
  | .atom r _ => r
  | .list r _ => r

def headText? : List Sexp → Option Text
  | .atom _ text :: _ => some text
  | _ => none

mutual

def toText : Sexp → Text
  | .atom _ text => text
  | .list _ elems => [Byte.openParen] ++ toTextAll elems ++ [Byte.closeParen]

def toTextAll : List Sexp → Text
  | [] => []
  | [s] => toText s
  | s :: rest => toText s ++ [Byte.space] ++ toTextAll rest

end

end Sexp

end TypedSexp
