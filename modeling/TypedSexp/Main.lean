import TypedSexp.Command.Report
import TypedSexp.Repl

namespace TypedSexp

def Text.writeTo (t : Text) (stream : IO.FS.Stream) : IO Unit := do
  stream.write ⟨t.toArray⟩
  stream.flush

/-- Reads one file. A fault in opening names the file, a fault in reading what was opened does not:
this tells a path through a file from the path of a directory. -/
def readPath (path : Text) : IO (Except FileFault Text) := do
  match String.fromUTF8? ⟨path.toArray⟩ with
  | none => return .error .missing
  | some name =>
      match ← (IO.FS.readBinFile name).toBaseIO with
      | .ok content => return .ok content.data.toList
      | .error (.inappropriateType (some _) _ _) => return .error .notDirectory
      | .error (.inappropriateType none _ _) => return .error .isDirectory
      | .error (.invalidArgument ..) =>
          return .error (if path.contains 0 then .badPath else .tooLong)
      | .error _ => return .error .missing

def readPaths (paths : List Text) : IO Disk := do
  let contents ← paths.mapM fun path => do return (path, ← readPath path)
  return fun path => (contents.lookup path).getD (.error .missing)

def readEnvironment : IO (List (Text × Text)) :=
  Settings.variableNames.filterMapM fun name => do
    match String.fromUTF8? ⟨name.toArray⟩ with
    | none => return none
    | some key => return (← IO.getEnv key).map fun value => (name, utf8 value)

namespace Repl

partial def interact (prompt : Text) (input out err : IO.FS.Stream) (r : Repl) : IO Unit := do
  (r.promptText prompt).writeTo out
  let line ← input.getLine
  if line.isEmpty then return
  let (response, next) := r.handleLine defaultFuel (utf8 (line.dropEndWhile (· == '\n')).toString)
  response.out.writeTo out
  response.err.writeTo err
  if !response.quit then interact prompt input out err next

end Repl

def runCommand (arguments : List Text) : IO UInt32 := do
  let out ← IO.getStdout
  let err ← IO.getStderr
  let asked := Command.Invocation.ofArguments arguments
  let disk ← readPaths <| match asked with
    | .ok (some i) => i.paths
    | _ => []
  let environment ← readEnvironment
  let report := Command.execute defaultFuel disk environment arguments
  report.out.writeTo out
  report.err.writeTo err
  if report.failure.isSome then return 1
  match asked with
  | .ok (some i) =>
      match i.verb, Command.settingsFor disk environment i with
      | .repl, .ok s => do
          (Text.lines [Repl.greeting]).writeTo out
          Repl.interact s.prompt (← IO.getStdin) out err { session := { checking := s.typecheck } }
          return 0
      | _, _ => return 0
  | _ => return 0

end TypedSexp

def main (arguments : List String) : IO UInt32 :=
  TypedSexp.runCommand (arguments.map TypedSexp.utf8)
