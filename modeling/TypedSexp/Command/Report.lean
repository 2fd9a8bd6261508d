import TypedSexp.Command.Arguments
import TypedSexp.Expr.Dump
import TypedSexp.Session
import TypedSexp.Text.Width

namespace TypedSexp.Command

structure Report where
  out : Text := []
  err : Text := []
  failure : Option Text := none
deriving DecidableEq, Repr

namespace Report

def print (r : Report) (line : Text) : Report := { r with out := r.out ++ Text.lines [line] }

def printError (r : Report) (line : Text) : Report := { r with err := r.err ++ Text.lines [line] }

def fail (r : Report) (message : Text) : Report :=
  { r.printError (utf8 "Error: " ++ message) with failure := some message }

end Report

/-- The program in the file that an operand names. It goes by the last part of its cleaned path,
which has to be a name by which a directory knows a file. -/
def loadTarget (disk : Disk) (target : Text) (checking : Bool) : Except Program.LoadFault Program :=
  let path := Path.clean target
  let name := Path.base path
  let content :=
    if Path.isCanonical name && !name.contains 0 then
      (disk path).mapError (FileFault.message name)
    else .error (utf8 "readfile " ++ name ++ utf8 ": invalid argument")
  Program.load name name content checking

def describeLoadFault (disk : Disk) (target : Text) (fault : Program.LoadFault) : Text :=
  match disk target with
  | .ok source => fault.format (Path.base target) source
  | .error _ => fault.message

def runAll (fuel : Nat) (disk : Disk) (s : Settings) (r : Report) : List Text → Report
  | [] => r
  | target :: rest =>
      match loadTarget disk target s.typecheck with
      | .error fault =>
          (r.printError ((describeLoadFault disk target fault).shown s.color)).fail
            (utf8 "could not load " ++ target)
      | .ok p =>
          match p.run fuel with
          | .error (.fault d) =>
              (r.printError ((d.format p.name p.source).shown s.color)).fail
                (target ++ utf8 " failed")
          | .error .outOfFuel => r.fail (target ++ utf8 " failed")
          | .ok lines => runAll fuel disk s { r with out := r.out ++ Text.lines lines } rest

def checkEach (disk : Disk) (s : Settings) (r : Report) (failed : Nat) : List Text → Report × Nat
  | [] => (r, failed)
  | target :: rest =>
      match loadTarget disk target true with
      | .error fault =>
          let line := (describeLoadFault disk target fault).shown s.color
          checkEach disk s (r.printError line) (failed + 1) rest
      | .ok p =>
          let line (declaration : Name × Ty) : Text :=
            utf8 "  " ++ declaration.1 ++ utf8 " : " ++ declaration.2.toText
          let r := p.declarations.foldl (fun r declaration => r.print (line declaration))
            (r.print (p.name.shown s.color))
          checkEach disk s r failed rest

def checkAll (disk : Disk) (s : Settings) (targets : List Text) : Report :=
  let (r, failed) := checkEach disk s {} 0 targets
  if failed = 0 then r
  else
    r.fail (utf8 "errors found in " ++ Text.ofNat failed ++ utf8 " of " ++
      Text.ofNat targets.length ++ utf8 " files")

def parseFile (disk : Disk) (s : Settings) (dump : Bool) (path : Text) : Report :=
  match disk path with
  | .error fault => Report.fail {} (utf8 "could not read file: " ++ fault.message path)
  | .ok source =>
      match Script.read source with
      | .error d =>
          (Report.printError {} ((d.format path source).shown s.color)).fail
            (utf8 "could not parse " ++ path)
      | .ok script =>
          Report.print {} (if dump then (Dump.ofScript script).toText else script.toText)

def expressionName : Text := utf8 "<expr>"

def evaluateLegacy (fuel : Nat) (checking : Bool) (source : Text) : Report :=
  let failure := utf8 "could not evaluate expression"
  match Legacy.evaluate fuel source checking with
  | .error (.fault d) => (Report.printError {} (d.format expressionName source)).fail failure
  | .error .outOfFuel => Report.fail {} failure
  | .ok (none, v) => Report.print {} v.toText
  | .ok (some t, v) => Report.print {} (v.toText ++ utf8 " : " ++ t.toText)

def settingsFor (disk : Disk) (environment : List (Text × Text)) (i : Invocation) :
    Except Text Settings :=
  (Settings.load disk environment i.configFile i.layer).mapError fun fault =>
    utf8 "could not load configuration: " ++ fault.message

def carryOut (fuel : Nat) (disk : Disk) (s : Settings) (i : Invocation) : Report :=
  match i.verb with
  | .run => runAll fuel disk s {} i.operands
  | .check => checkAll disk s i.operands
  | .parse =>
      let dump := (i.flagValue? .dump).bind Settings.readBool? = some true
      parseFile disk s dump (i.operands.head?.getD [])
  | .legacy => evaluateLegacy fuel s.typecheck (i.operands.head?.getD [])
  | .repl => {}

def execute (fuel : Nat) (disk : Disk) (environment : List (Text × Text)) (arguments : List Text) :
    Report :=
  match Invocation.ofArguments arguments with
  | .error fault => Report.fail {} fault.message
  | .ok none => {}
  | .ok (some i) =>
      match settingsFor disk environment i with
      | .error message => Report.fail {} message
      | .ok s => carryOut fuel disk s i

end TypedSexp.Command
