import TypedSexp.Text.Basic

namespace TypedSexp.Legacy

inductive Kind where
  | number
  | ifWord
  | thenWord
  | elseWord
  | trueWord
  | falseWord
  | and
  | or
  | equal
  | plus
  | not
  | openParen
  | closeParen
  | unknown (number : Nat)
deriving DecidableEq, Repr

namespace Kind

def toNat : Kind → Nat
  | .number => 1
  | .ifWord => 2
  | .thenWord => 3
  | .elseWord => 4
  | .trueWord => 5
  | .falseWord => 6
  | .and => 7
  | .or => 8
  | .equal => 9
  | .plus => 10
  | .not => 11
  | .openParen => 12
  | .closeParen => 13
  | .unknown n => n

def ofNat : Nat → Kind
  | 1 => .number
  | 2 => .ifWord
  | 3 => .thenWord
  | 4 => .elseWord
  | 5 => .trueWord
  | 6 => .falseWord
  | 7 => .and
  | 8 => .or
  | 9 => .equal
  | 10 => .plus
  | 11 => .not
  | 12 => .openParen
  | 13 => .closeParen
  | n => .unknown n

def operator? : Kind → Option Name
  | .plus => some (utf8 "+")
  | .or => some (utf8 "||")
  | .equal => some (utf8 "==")
  | .and => some (utf8 "&&")
  | _ => none

end Kind

/-- A token. Its place is its index in the sequence; the text need not agree with the kind. -/
structure Token where
  kind : Kind
  text : Text
deriving DecidableEq, Repr

end TypedSexp.Legacy
