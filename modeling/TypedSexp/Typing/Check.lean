import TypedSexp.Diagnostic.Basic
import TypedSexp.Expr.Basic
import TypedSexp.Typing.Context

/-!
Type checking. An expression has at most one type in a context, and the first failure in the order
of evaluation is the one reported; the arguments of an application are all checked before its shape
is. The type of an injection is the union type without variants, whatever its payload, so that only
unchecked programs can project from it.
-/

namespace TypedSexp

namespace Expr

def mismatch {α : Type} (range : Range) (expected found : Ty) (place : Text) :
    Except Diagnostic α :=
  .error ⟨range, .typeMismatch expected found place⟩

/-- Compares the types of arguments with the inputs of the function, which are as many. `number`
counts the arguments from one and `whole` is the application they belong to. -/
def checkArgs (whole : Expr) :
    (number : Nat) → List Ty → List Expr → List Ty → Except Diagnostic Unit
  | number, input :: inputs, arg :: args, found :: founds =>
      if input.equal found then checkArgs whole (number + 1) inputs args founds
      else mismatch arg.range input found
        (utf8 "argument " ++ Text.ofNat number ++ utf8 " of " ++ whole.toText)
  | _, _, _, _ => .ok ()

def applyType (whole : Expr) (range : Range) (args : List Expr) (found : List Ty) :
    Ty → Except Diagnostic Ty
  | .arrow inputs output =>
      if inputs.length = args.length then do
        checkArgs whole 1 inputs args found
        return output
      else .error ⟨range, .arityMismatch inputs.length args.length .typing⟩
  | t => .error ⟨range, .notAFunction t.toText .typing⟩

def memberType (range : Range) (name : Name) : Ty → Except Diagnostic Ty
  | .record members =>
      match members.lookup name with
      | some t => .ok t
      | none => .error ⟨range, .missingMember name (Ty.record members).toText false .typing⟩
  | .union members =>
      match members.lookup name with
      | some t => .ok t
      | none => .error ⟨range, .missingMember name (Ty.union members).toText true .typing⟩
  | t => .error ⟨range, .notProjectable t.toText name .typing⟩

mutual

def infer (Γ : Context) : Expr → Except Diagnostic Ty
  | .var range name =>
      match Γ.lookup? name with
      | some t => .ok t
      | none => .error ⟨range, .unboundVariable name .typing⟩
  | .num .. => .ok .nat
  | .bool .. => .ok .bool
  | .lambda _ param paramType body => do
      let output ← infer (Γ.extend param paramType) body
      return .arrow [paramType] output
  | .apply range head args => do
      let headType ← infer Γ head
      let argTypes ← inferAll Γ args
      applyType (.apply range head args) range args argTypes headType
  | .cond range guard thenBranch elseBranch => do
      let guardType ← infer Γ guard
      if Ty.bool.equal guardType then
        let thenType ← infer Γ thenBranch
        let elseType ← infer Γ elseBranch
        if thenType.equal elseType then return thenType
        else
          mismatch elseBranch.range thenType elseType
            (utf8 "the else-branch of " ++ (Expr.cond range guard thenBranch elseBranch).toText)
      else
        mismatch guard.range .bool guardType
          (utf8 "the guard of " ++ (Expr.cond range guard thenBranch elseBranch).toText)
  | .record _ fields => do return .record (Members.ofList (← inferFields Γ fields))
  | .project range target name => do memberType range name (← infer Γ target)
  | .inject _ _ payload => do
      let _ ← infer Γ payload
      return .union []

def inferAll (Γ : Context) : List Expr → Except Diagnostic (List Ty)
  | [] => .ok []
  | e :: rest => do return (← infer Γ e) :: (← inferAll Γ rest)

def inferFields (Γ : Context) : List (Name × Expr) → Except Diagnostic (List (Name × Ty))
  | [] => .ok []
  | (name, e) :: rest => do return (name, ← infer Γ e) :: (← inferFields Γ rest)

end

end Expr

namespace Stmt

def check (Γ : Context) : Stmt → Except Diagnostic Context
  | .define _ name value => do return Γ.extend name (← value.infer Γ)
  | .assign range target value => do
      let found ← value.infer Γ
      match target with
      | .var targetRange name =>
          match Γ.lookup? name with
          | some declared =>
              if declared.equal found then return Γ
              else Expr.mismatch range declared found (utf8 "the assignment to " ++ name)
          | none => .error ⟨targetRange, .unboundVariable name .typing⟩
      | target => .error ⟨target.range, .invalidTarget target.toText .typing⟩
  | .print _ value => do
      let _ ← value.infer Γ
      return Γ

end Stmt

namespace Script

/-- Checks statements in order. The context holds every definition before the first failure, or
else all of them. -/
def check (Γ : Context) : Script → Context × Except Diagnostic Unit
  | [] => (Γ, .ok ())
  | stmt :: rest =>
      match stmt.check Γ with
      | .ok Δ => check Δ rest
      | .error d => (Γ, .error d)

end Script

end TypedSexp
