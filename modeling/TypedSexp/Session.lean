import TypedSexp.Program

namespace TypedSexp

structure Session where
  checking : Bool
  context : Context := Context.initial
  store : Store := Store.initial
deriving Repr

namespace Session

def contextsAfter (checking : Bool) (Γ : Context) : Script → Except Diagnostic (List Context)
  | [] => .ok []
  | stmt :: rest => do
      let Δ ← if checking then stmt.check Γ else .ok Γ
      return Δ :: (← contextsAfter checking Δ rest)

/-- Executes statements one at a time. The context moves on with each one that succeeds, so that
after a failure the checker knows exactly the names that the store holds. -/
def execute (fuel : Nat) (s : Session) :
    List (Stmt × Context) → Except Halt (List Text) × Session
  | [] => (.ok [], s)
  | (stmt, Δ) :: rest =>
      match (Script.exec fuel Store.programScope [stmt]).startingFrom s.store with
      | (.error halt, store) => (.error halt, { s with store := store })
      | (.ok lines, store) =>
          match execute fuel { s with store := store, context := Δ } rest with
          | (.ok more, s) => (.ok (lines ++ more), s)
          | (.error halt, s) => (.error halt, s)

/-- Checks and runs a sequence of statements; the whole input is checked before any of it runs. -/
def eval (fuel : Nat) (s : Session) (source : Text) : Except Halt (List Text) × Session :=
  match Script.read source with
  | .error d => (.error (.fault d), s)
  | .ok script =>
      match contextsAfter s.checking s.context script with
      | .error d => (.error (.fault d), s)
      | .ok contexts => execute fuel s (script.zip contexts)

def typeOf (s : Session) (source : Text) : Except Diagnostic Ty := do
  (← Expr.read source).infer s.context

def legacy (fuel : Nat) (s : Session) (source : Text) : Except Halt Text × Session :=
  match Legacy.read source with
  | .error d => (.error (.fault d), s)
  | .ok e =>
      match if s.checking then (e.infer s.context).map some else .ok none with
      | .error d => (.error (.fault d), s)
      | .ok _ =>
          match (e.eval fuel Store.programScope).startingFrom s.store with
          | (.ok v, store) => (.ok v.toText, { s with store := store })
          | (.error halt, store) => (.error halt, { s with store := store })

structure Binding where
  name : Name
  type : Option Ty
  shown : Text
deriving Repr

def bindings (s : Session) : List Binding :=
  (s.store.bindings Store.programScope).map fun binding =>
    ⟨binding.1, if s.checking then s.context.lookup? binding.1 else none, binding.2.toText⟩

end Session

end TypedSexp
