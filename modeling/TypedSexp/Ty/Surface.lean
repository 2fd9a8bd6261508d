import TypedSexp.Sexp.Form

/-!
The surface forms of types:

  Nat    Bool    (-> T₁ … Tₙ R)    (rec f₁ T₁ … fₙ Tₙ)
  (union (v₁ T₁ … vₙ Tₙ))    (union ((v₁ T₁) … (vₙ Tₙ)))
-/

namespace TypedSexp.Ty

open Sexp (Form.wrongCount Form.wrongPart Form.repeated)

inductive Head where
  | arrow
  | record
  | union
deriving DecidableEq, Repr

def Head.ofText? (t : Text) : Option Head :=
  if t = utf8 "->" then some .arrow
  else if t = utf8 "rec" then some .record
  else if t = utf8 "union" then some .union
  else none

structure MemberKind where
  form : Text
  what : Text

def MemberKind.field : MemberKind := ⟨utf8 "rec", utf8 "field"⟩

def MemberKind.variant : MemberKind := ⟨utf8 "union", utf8 "variant"⟩

def memberName (range : Range) (kind : MemberKind) (seen : List Name) :
    Sexp → Except Diagnostic Name
  | .atom _ name =>
      if seen.contains name then Form.repeated range kind.form kind.what name else .ok name
  | part =>
      Form.wrongPart range kind.form (utf8 "identifiers as " ++ kind.what ++ utf8 " names") part

def firstUnpaired? (elems : List Sexp) : Option Sexp :=
  elems.find? fun
    | .list _ [_, _] => false
    | _ => true

def arrowOf : List Ty → Ty
  | [] => .arrow [] .nat
  | t :: rest => .arrow (t :: rest).dropLast ((t :: rest).getLast (by simp))

mutual

def ofSexp : Sexp → Except Diagnostic Ty
  | .atom range text =>
      if text = utf8 "Nat" then .ok .nat
      else if text = utf8 "Bool" then .ok .bool
      else .error ⟨range, .unknownForm (utf8 "type") text⟩
  | .list range [] => .error ⟨range, .unknownForm (utf8 "type") (utf8 "()")⟩
  | .list range (.list r elems :: args) =>
      .error ⟨range, .unknownForm (utf8 "type") (Sexp.list range (.list r elems :: args)).toText⟩
  | .list range (.atom _ head :: args) =>
      match Head.ofText? head with
      | some .arrow =>
          if args.length < 2 then
            Form.wrongCount range (utf8 "->")
              (utf8 "at least 2 arguments: the input types and an output type") args
          else do return arrowOf (← ofSexps args)
      | some .record =>
          if args.length % 2 ≠ 0 then
            Form.wrongCount range (utf8 "rec")
              (utf8 "an even number of arguments alternating field names and types") args
          else do return .record (Members.ofList (← flatMembers range .field [] args))
      | some .union =>
          match args with
          | [.list _ []] => .ok (.union [])
          | [.list _ (.list r pair :: variants)] =>
              match firstUnpaired? (.list r pair :: variants) with
              | some part =>
                  Form.wrongPart range (utf8 "union") (utf8 "every variant as a (name type) pair")
                    part
              | none => do
                  return .union (Members.ofList
                    (← pairedMembers range .variant [] (.list r pair :: variants)))
          | [.list _ (.atom r name :: variants)] =>
              if (variants.length + 1) % 2 ≠ 0 then
                Form.wrongCount range (utf8 "union")
                  (utf8 "variant names alternating with their types") (.atom r name :: variants)
              else do
                return .union (Members.ofList
                  (← flatMembers range .variant [] (.atom r name :: variants)))
          | [part] => Form.wrongPart range (utf8 "union") (utf8 "a list of variants") part
          | args =>
              Form.wrongCount range (utf8 "union")
                (utf8 "1 argument: a list of variants and their types") args
      | none => .error ⟨range, .unknownForm (utf8 "type") head⟩

def ofSexps : List Sexp → Except Diagnostic (List Ty)
  | [] => .ok []
  | s :: rest => do return (← ofSexp s) :: (← ofSexps rest)

def flatMembers (range : Range) (kind : MemberKind) (seen : List Name) :
    List Sexp → Except Diagnostic (List (Name × Ty))
  | name :: ty :: rest => do
      let name ← memberName range kind seen name
      let ty ← ofSexp ty
      return (name, ty) :: (← flatMembers range kind (name :: seen) rest)
  | _ => .ok []

def pairedMembers (range : Range) (kind : MemberKind) (seen : List Name) :
    List Sexp → Except Diagnostic (List (Name × Ty))
  | .list _ [name, ty] :: rest => do
      let name ← memberName range kind seen name
      let ty ← ofSexp ty
      return (name, ty) :: (← pairedMembers range kind (name :: seen) rest)
  | _ => .ok []

end

end TypedSexp.Ty
