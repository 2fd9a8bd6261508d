import TypedSexp.Diagnostic.Basic
import TypedSexp.Legacy.Token

/-!
Splitting text into legacy tokens. Keywords and two-byte operators are known by their first byte and
then expected byte by byte, so that a word which goes on differently is an error at the first byte
that differs. Bytes that start no token are skipped.
-/

namespace TypedSexp.Legacy

namespace Lexer

/-- Where the lexer stands: between tokens, in a number whose digits so far, last one first, are
`digits`, after the `t` that starts both `then` and `true`, or in a word of which `rest` is still to
come. -/
inductive Mode where
  | between
  | number (digits : Text)
  | tee
  | word (kind : Kind) (text rest : Text)
deriving DecidableEq, Repr

def words : List (Kind × Text) :=
  [(.ifWord, utf8 "if"), (.elseWord, utf8 "else"), (.falseWord, utf8 "false"), (.and, utf8 "&&"),
    (.or, utf8 "||"), (.equal, utf8 "==")]

def single? (c : UInt8) : Option Kind :=
  if c = Byte.plus then some .plus
  else if c = Byte.bang then some .not
  else if c = Byte.openParen then some .openParen
  else if c = Byte.closeParen then some .closeParen
  else none

def start (c : UInt8) : List Token × Mode :=
  if Byte.isDigit c then ([], .number [c])
  else if c = 116 then ([], .tee)
  else match single? c with
    | some kind => ([⟨kind, [c]⟩], .between)
    | none =>
        match words.find? fun entry => entry.2.head? = some c with
        | some (kind, text) => ([], .word kind text text.tail)
        | none => ([], .between)

def unexpected {α : Type} (offset : Nat) (expected found : Text) : Except Diagnostic α :=
  .error ⟨Range.ofOffsets offset (offset + 1), .unexpectedByte expected found⟩

def wordStep (offset : Nat) (kind : Kind) (text : Text) (c : UInt8) :
    Text → Except Diagnostic (List Token × Mode)
  | [] => .ok ([⟨kind, text⟩], .between)
  | [next] =>
      if c = next then .ok ([⟨kind, text⟩], .between)
      else unexpected offset (Text.inQuotes [next]) [c]
  | next :: rest =>
      if c = next then .ok ([], .word kind text rest)
      else unexpected offset (Text.inQuotes [next]) [c]

def step (offset : Nat) (c : UInt8) : Mode → Except Diagnostic (List Token × Mode)
  | .between => .ok (start c)
  | .number digits =>
      if Byte.isDigit c then .ok ([], .number (c :: digits))
      else .ok (⟨.number, digits.reverse⟩ :: (start c).1, (start c).2)
  | .tee =>
      if c = 104 then .ok ([], .word .thenWord (utf8 "then") (utf8 "en"))
      else if c = 114 then .ok ([], .word .trueWord (utf8 "true") (utf8 "ue"))
      else unexpected offset (utf8 "'r' or 'h'") [c]
  | .word kind text rest => wordStep offset kind text c rest

def finish (offset : Nat) : Mode → Except Diagnostic (List Token)
  | .between => .ok []
  | .number digits => .ok [⟨.number, digits.reverse⟩]
  | .tee => unexpected offset (utf8 "'r' or 'h'") []
  | .word _ _ rest => unexpected offset (Text.inQuotes (rest.take 1)) []

def lexFrom (mode : Mode) (offset : Nat) : Text → Except Diagnostic (List Token)
  | [] => finish offset mode
  | c :: rest => do
      let (tokens, mode) ← step offset c mode
      return tokens ++ (← lexFrom mode (offset + 1) rest)

end Lexer

def lex (source : Text) : Except Diagnostic (List Token) := Lexer.lexFrom .between 0 source

end TypedSexp.Legacy
