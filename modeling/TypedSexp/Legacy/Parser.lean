import TypedSexp.Expr.Basic
import TypedSexp.Legacy.Lexer

/-!
Parsing legacy tokens:

  Exp ::= number | true | false
        | ( + Exp Exp ) | ( || Exp Exp ) | ( == Exp Exp ) | ( && Exp Exp )
        | ( if Exp then Exp else Exp )

The parser takes one token at a time. Its state says what the next token has to be, and the forms
around it, innermost first, say where a complete expression goes. Operators become applications of
the primitive of the same name. No part of the result has a range.
-/

namespace TypedSexp.Legacy

namespace Parser

inductive Slot where
  | left (operator : Name)
  | right (operator : Name) (left : Expr)
  | guard
  | thenBranch (guard : Expr)
  | elseBranch (guard thenBranch : Expr)
deriving Repr

inductive State where
  | expression (slots : List Slot)
  | operator (slots : List Slot)
  | close (result : Expr) (slots : List Slot)
  | thenWord (guard : Expr) (slots : List Slot)
  | elseWord (guard thenBranch : Expr) (slots : List Slot)
  | done (result : Expr)
deriving Repr

def deliver (e : Expr) : List Slot → State
  | [] => .done e
  | .left operator :: slots => .expression (.right operator e :: slots)
  | .right operator left :: slots =>
      .close (.apply Range.none (.var Range.none operator) [left, e]) slots
  | .guard :: slots => .thenWord e slots
  | .thenBranch guard :: slots => .elseWord guard e slots
  | .elseBranch guard thenBranch :: slots => .close (.cond Range.none guard thenBranch e) slots

def State.expected : State → Text
  | .expression _ => utf8 "an expression"
  | .operator _ => utf8 "an operator or 'if'"
  | .close .. => utf8 "')'"
  | .thenWord .. => utf8 "'then'"
  | .elseWord .. => utf8 "'else'"
  | .done _ => []

def unexpected {α : Type} (index : Nat) (state : State) (token : Token) : Except Diagnostic α :=
  .error ⟨Range.none, .unexpectedToken state.expected token.text index⟩

def step (index : Nat) (state : State) (token : Token) : Except Diagnostic State :=
  match state with
  | .expression slots =>
      match token.kind with
      | .number =>
          match Numeral.read token.text with
          | .ok value => .ok (deliver (.num Range.none value) slots)
          | .error fault => .error ⟨Range.none, .badLiteral token.text fault.message⟩
      | .trueWord => .ok (deliver (.bool Range.none true) slots)
      | .falseWord => .ok (deliver (.bool Range.none false) slots)
      | .openParen => .ok (.operator slots)
      | _ => unexpected index state token
  | .operator slots =>
      match token.kind.operator? with
      | some operator => .ok (.expression (.left operator :: slots))
      | none =>
          if token.kind = .ifWord then .ok (.expression (.guard :: slots))
          else unexpected index state token
  | .close result slots =>
      if token.kind = .closeParen then .ok (deliver result slots)
      else unexpected index state token
  | .thenWord guard slots =>
      if token.kind = .thenWord then .ok (.expression (.thenBranch guard :: slots))
      else unexpected index state token
  | .elseWord guard thenBranch slots =>
      if token.kind = .elseWord then .ok (.expression (.elseBranch guard thenBranch :: slots))
      else unexpected index state token
  | .done _ => unexpected index state token

def parseFrom (index : Nat) : State → List Token → Except Diagnostic Expr
  | .done e, [] => .ok e
  | .done _, rest@(_ :: _) => .error ⟨Range.none, .trailingTokens (rest.map Token.text)⟩
  | state, [] => .error ⟨Range.none, .unexpectedEnd state.expected⟩
  | state, token :: rest => do parseFrom (index + 1) (← step index state token) rest

end Parser

def ofTokens (tokens : List Token) : Except Diagnostic Expr :=
  Parser.parseFrom 0 (.expression []) tokens

def read (source : Text) : Except Diagnostic Expr := do ofTokens (← lex source)

end TypedSexp.Legacy
