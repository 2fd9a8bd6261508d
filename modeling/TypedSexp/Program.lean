import TypedSexp.Expr.Surface
import TypedSexp.Legacy.Parser
import TypedSexp.Run.Eval
import TypedSexp.Typing.Check

namespace TypedSexp

structure Program where
  name : Text
  source : Text
  script : Script
  checked : Bool
  declarations : List (Name × Ty)
deriving Repr

namespace Program

def declare (Γ : Context) : Script → Except Diagnostic (List (Name × Ty))
  | [] => .ok []
  | stmt :: rest => do
      let Δ ← stmt.check Γ
      let declarations ← declare Δ rest
      match stmt with
      | .define _ name _ => return ((Δ.lookup? name).map fun t => (name, t)).toList ++ declarations
      | _ => return declarations

def compile (name source : Text) (checking : Bool) : Except Diagnostic Program := do
  let script ← Script.read source
  if checking then
    return ⟨name, source, script, true, ← declare Context.initial script⟩
  else
    return ⟨name, source, script, false, []⟩

def run (fuel : Nat) (p : Program) : Except Halt (List Text) :=
  ((p.script.exec fuel Store.programScope).startingFrom Store.initial).1

def interpret (fuel : Nat) (source : Text) (checking : Bool) : Except Halt (List Text) :=
  match compile [] source checking with
  | .ok p => p.run fuel
  | .error d => .error (.fault d)

inductive LoadFault where
  | unreadable (path reason : Text)
  | rejected (path : Text) (d : Diagnostic)
deriving Repr

def LoadFault.message : LoadFault → Text
  | .unreadable path reason => utf8 "could not read " ++ path ++ utf8 ": " ++ reason
  | .rejected path d => utf8 "could not load " ++ path ++ utf8 ": " ++ d.message

def LoadFault.format (file source : Text) : LoadFault → Text
  | .unreadable path reason => (LoadFault.unreadable path reason).message
  | .rejected _ d => d.format file source

def LoadFault.diagnostic : LoadFault → Diagnostic
  | .unreadable path reason => Diagnostic.ofFailure (LoadFault.unreadable path reason).message
  | .rejected _ d => d

def load (path name : Text) (content : Except Text Text) (checking : Bool) :
    Except LoadFault Program :=
  match content with
  | .error reason => .error (.unreadable path reason)
  | .ok source =>
      match compile name source checking with
      | .ok p => .ok p
      | .error d => .error (.rejected path d)

def playgroundName : Text := utf8 "program.tyl"

def showTypes (source : Text) : Text :=
  match compile playgroundName source true with
  | .ok p =>
      Text.lines (p.declarations.map fun declaration =>
        declaration.1 ++ utf8 " : " ++ declaration.2.toText)
  | .error d =>
      utf8 "the program has the following errors:\n" ++ d.format playgroundName source

def showOutput (fuel : Nat) (source : Text) (checking : Bool) : Option Text :=
  match compile playgroundName source checking with
  | .error d =>
      some (utf8 "the program has the following errors:\n" ++ d.format playgroundName source)
  | .ok p =>
      match p.run fuel with
      | .ok lines => some (Text.join [Byte.newline] lines)
      | .error (.fault d) => some (utf8 "the program failed:\n" ++ d.format playgroundName source)
      | .error .outOfFuel => none

end Program

namespace Legacy

def evaluate (fuel : Nat) (source : Text) (checking : Bool) : Except Halt (Option Ty × Value) := do
  let fault (d : Diagnostic) : Halt := .fault d
  let e ← (read source).mapError fault
  let t ← if checking then some <$> (e.infer Context.initial).mapError fault else pure none
  let v ← ((e.eval fuel Store.programScope).startingFrom Store.initial).1
  return (t, v)

end Legacy

end TypedSexp
