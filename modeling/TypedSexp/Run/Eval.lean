import TypedSexp.Run.Apply
import TypedSexp.Run.Machine

/-!
Evaluation and execution. Evaluation is strict and goes from left to right; of a conditional only
the branch that is taken is evaluated. A function is called in a new scope inside the one it was
made in. The argument count of a function is checked before its argument is evaluated, that of a
primitive after all its arguments are.

Programs may run for ever, so evaluation takes fuel: the depth to which evaluations may nest.
-/

namespace TypedSexp

def defaultFuel : Nat := 1000000

namespace Expr

def projectFrom (range : Range) (name : Name) : Value → Run Value
  | .record fields =>
      match fields.lookup name with
      | some v => pure v
      | none => Run.fault range (.missingMember name (Value.record fields).toText false .runtime)
  | .union variant payload =>
      if variant = name then pure payload else Run.fault range (.variantMismatch name variant)
  | v => Run.fault range (.notProjectable v.toText name .runtime)

def eval : (fuel : Nat) → (scope : Nat) → Expr → Run Value
  | 0, _, _ => throw .outOfFuel
  | fuel + 1, scope, e =>
      match e with
      | .var range name => do
          match (← get).lookup? scope name with
          | some v => pure v
          | none => Run.fault range (.unboundVariable name .runtime)
      | .num _ n => pure (.num n)
      | .bool _ b => pure (.bool b)
      | .lambda _ param _ body => pure (.closure param body scope)
      | .apply range head args => do
          match ← eval fuel scope head with
          | .closure param body captured =>
              match args with
              | [arg] => do
                  let v ← eval fuel scope arg
                  let inner ← modifyGet (·.newScope (some captured) [(param, v)])
                  eval fuel inner body
              | args => Run.fault range (.arityMismatch 1 args.length .runtime)
          | .prim p => do
              let vs ← args.mapM (eval fuel scope)
              Run.ofExcept (p.apply vs)
          | v => Run.fault range (.notAFunction v.toText .runtime)
      | .cond _ guard thenBranch elseBranch => do
          match ← eval fuel scope guard with
          | .bool b => if b then eval fuel scope thenBranch else eval fuel scope elseBranch
          | v => Run.fault guard.range (.notABoolean v.toText)
      | .record _ fields => do
          let vs ← fields.mapM fun field => do return (field.1, ← eval fuel scope field.2)
          return .ofFields vs
      | .project range target name => do projectFrom range name (← eval fuel scope target)
      | .inject _ variant payload => do return .union variant (← eval fuel scope payload)

end Expr

namespace Stmt

def exec (fuel scope : Nat) : Stmt → Run (Option Text)
  | .define range name value => do
      let v ← value.eval fuel scope
      Run.change (·.define scope range name v)
      return none
  | .assign _ target value => do
      let v ← value.eval fuel scope
      match target with
      | .var range name =>
          if (← get).has scope name then
            Run.change (·.update scope name v)
            return none
          else Run.fault range (.unboundVariable name .runtime)
      | target => Run.fault target.range (.invalidTarget target.toText .runtime)
  | .print _ value => do return some (← value.eval fuel scope).toText

end Stmt

namespace Script

/-- Executes statements in order and gives the lines they write. At a failure there are none, but
what the statements before it did to the store stays. -/
def exec (fuel scope : Nat) : Script → Run (List Text)
  | [] => return []
  | stmt :: rest => do
      let line ← stmt.exec fuel scope
      let lines ← exec fuel scope rest
      return line.toList ++ lines

end Script

end TypedSexp
