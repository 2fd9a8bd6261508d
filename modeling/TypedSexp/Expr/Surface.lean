import TypedSexp.Expr.Basic
import TypedSexp.Sexp.Reader
import TypedSexp.Ty.Surface

/-!
The surface forms of expressions and statements:

  x    17    true    false    (lambda x T e)    (if e e e)    (rec f₁ e₁ … fₙ eₙ)
  (field e f)    (union v e)    (e e₁ … eₙ)

  (define x e)    (assign e e)    (print e)

A list is an application unless its head names one of the five special forms.
-/

namespace TypedSexp

open Sexp (Form.wrongCount Form.wrongPart Form.repeated)

namespace Expr

inductive Special where
  | lambda
  | cond
  | record
  | project
  | inject
deriving DecidableEq, Repr

def Special.ofText? (t : Text) : Option Special :=
  if t = utf8 "lambda" then some .lambda
  else if t = utf8 "if" then some .cond
  else if t = utf8 "rec" then some .record
  else if t = utf8 "field" then some .project
  else if t = utf8 "union" then some .inject
  else none

def Special.ofHead? : Sexp → Option Special
  | .atom _ text => ofText? text
  | .list .. => none

def ofAtom (range : Range) (text : Text) : Except Diagnostic Expr :=
  if text = utf8 "true" then .ok (.bool range true)
  else if text = utf8 "false" then .ok (.bool range false)
  else if Numeral.isNumeral text then
    match Numeral.read text with
    | .ok value => .ok (.num range value)
    | .error fault => .error ⟨range, .badLiteral text fault.message⟩
  else .ok (.var range text)

def fieldName (range : Range) (seen : List Name) : Sexp → Except Diagnostic Name
  | .atom _ name =>
      if seen.contains name then Form.repeated range (utf8 "rec") (utf8 "field") name else .ok name
  | part => Form.wrongPart range (utf8 "rec") (utf8 "identifiers as field names") part

mutual

def ofSexp : Sexp → Except Diagnostic Expr
  | .atom range text => ofAtom range text
  | .list range [] =>
      .error ⟨range, .malformedForm (utf8 "()") (utf8 "a head expression")
        (utf8 "found an empty expression list")⟩
  | .list range (head :: args) =>
      match Special.ofHead? head with
      | some .lambda =>
          match args with
          | [.atom _ param, ty, body] => do
              let ty ← Ty.ofSexp ty
              let body ← ofSexp body
              return .lambda range param ty body
          | [part, _, _] =>
              Form.wrongPart range (utf8 "lambda") (utf8 "an identifier as the parameter name") part
          | args =>
              Form.wrongCount range (utf8 "lambda")
                (utf8 "3 arguments: a parameter name, a type and a body") args
      | some .cond =>
          match args with
          | [guard, thenBranch, elseBranch] => do
              let guard ← ofSexp guard
              let thenBranch ← ofSexp thenBranch
              let elseBranch ← ofSexp elseBranch
              return .cond range guard thenBranch elseBranch
          | args =>
              Form.wrongCount range (utf8 "if")
                (utf8 "3 arguments: a guard, a then-branch and an else-branch") args
      | some .record =>
          if args.length % 2 ≠ 0 then
            Form.wrongCount range (utf8 "rec")
              (utf8 "an even number of arguments alternating field names and expressions") args
          else do return .record range (← fieldsOf range [] args)
      | some .project =>
          match args with
          | [target, .atom _ name] => do return .project range (← ofSexp target) name
          | [_, part] =>
              Form.wrongPart range (utf8 "field") (utf8 "an identifier as the field name") part
          | args =>
              Form.wrongCount range (utf8 "field")
                (utf8 "2 arguments: an expression and a field name") args
      | some .inject =>
          match args with
          | [.atom _ variant, payload] => do return .inject range variant (← ofSexp payload)
          | [part, _] =>
              Form.wrongPart range (utf8 "union") (utf8 "an identifier as the variant name") part
          | args =>
              Form.wrongCount range (utf8 "union")
                (utf8 "2 arguments: a variant name and a payload") args
      | none => do
          let head ← ofSexp head
          return .apply range head (← ofSexps args)

def ofSexps : List Sexp → Except Diagnostic (List Expr)
  | [] => .ok []
  | s :: rest => do return (← ofSexp s) :: (← ofSexps rest)

def fieldsOf (range : Range) (seen : List Name) : List Sexp → Except Diagnostic (List (Name × Expr))
  | name :: value :: rest => do
      let name ← fieldName range seen name
      let value ← ofSexp value
      return (name, value) :: (← fieldsOf range (name :: seen) rest)
  | _ => .ok []

end

def read (source : Text) : Except Diagnostic Expr := do
  match ← Sexp.readAll source with
  | [s] => ofSexp s
  | ss => .error ⟨Range.none, .unreadable (.notOne ss.length)⟩

end Expr

namespace Stmt

inductive Head where
  | define
  | assign
  | print
deriving DecidableEq, Repr

def Head.ofText? (t : Text) : Option Head :=
  if t = utf8 "define" then some .define
  else if t = utf8 "assign" then some .assign
  else if t = utf8 "print" then some .print
  else none

def unknown {α : Type} (range : Range) (form : Text) : Except Diagnostic α :=
  .error ⟨range, .unknownForm (utf8 "statement") form⟩

def ofSexp : Sexp → Except Diagnostic Stmt
  | .list range (.atom _ head :: args) =>
      match Head.ofText? head with
      | some .define =>
          match args with
          | [.atom _ name, value] => do return .define range name (← Expr.ofSexp value)
          | [part, _] =>
              Form.wrongPart range (utf8 "define") (utf8 "an identifier as its first argument") part
          | args =>
              Form.wrongCount range (utf8 "define")
                (utf8 "2 arguments: a name and an expression") args
      | some .assign =>
          match args with
          | [target, value] => do
              let target ← Expr.ofSexp target
              let value ← Expr.ofSexp value
              return .assign range target value
          | args =>
              Form.wrongCount range (utf8 "assign")
                (utf8 "2 arguments: a target and an expression") args
      | some .print =>
          match args with
          | [value] => do return .print range (← Expr.ofSexp value)
          | args => Form.wrongCount range (utf8 "print") (utf8 "1 argument") args
      | none => unknown range head
  | s => unknown s.range s.toText

end Stmt

namespace Script

def ofSexps : List Sexp → Except Diagnostic Script
  | [] => .ok []
  | s :: rest => do return (← Stmt.ofSexp s) :: (← ofSexps rest)

def read (source : Text) : Except Diagnostic Script := do ofSexps (← Sexp.readAll source)

end Script

end TypedSexp
