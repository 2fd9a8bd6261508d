import TypedSexp.Files.Tree
import TypedSexp.Log.Level
import TypedSexp.Text.Letters
import TypedSexp.Yaml.Document

namespace TypedSexp

structure Settings where
  typecheck : Bool
  logLevel : Text
  prompt : Text
  historyFile : Text
  color : Bool
  fileUsed : Text
deriving DecidableEq, Repr

namespace Settings

open Yaml (Scalar)

abbrev Layer := List (Text × Scalar)

def defaultFile : Text := utf8 "tyl.yaml"

def defaultPrompt : Text := utf8 "tyl> "

def variableStart : Text := utf8 "TYL_"

def defaults : Layer :=
  [(utf8 "typecheck", .bool true), (utf8 "log_level", .text (utf8 "error")),
    (utf8 "prompt", .text defaultPrompt), (utf8 "history_file", .text []),
    (utf8 "color", .bool true)]

inductive Fault where
  | unreadableFile (path : Text) (fault : FileFault)
  | malformedFile (path : Text) (fault : Yaml.Fault)
  | badValues (faults : List (Text × Text))
  | badLevel (level : Text) (fault : Log.Level.Fault)
deriving DecidableEq, Repr

def Fault.message : Fault → Text
  | .unreadableFile path fault =>
      utf8 "error reading config file " ++ path ++ utf8 ": " ++ fault.message (Path.clean path)
  | .malformedFile path fault =>
      utf8 "error reading config file " ++ path ++ utf8 ": " ++ fault.message
  | .badValues faults =>
      utf8 "unable to decode config: decoding failed due to the following error(s):\n\n" ++
        Text.join [Byte.newline] (faults.map fun fault => fault.1.inQuotes ++ utf8 " " ++ fault.2)
  | .badLevel level fault =>
      utf8 "invalid log_level " ++ level.quoted ++ utf8 ": " ++ fault.message level

def readBool? (t : Text) : Option Bool :=
  if [utf8 "1", utf8 "t", utf8 "T", utf8 "TRUE", utf8 "true", utf8 "True"].contains t then some true
  else if [utf8 "0", utf8 "f", utf8 "F", utf8 "FALSE", utf8 "false", utf8 "False"].contains t then
    some false
  else none

def kindText : Scalar → Text
  | .time => utf8 "time.Time"
  | .list => utf8 "[]interface \x7b\x7d"
  | _ => utf8 "map[string]interface \x7b\x7d"

def unconvertible (wanted : String) (value : Scalar) : Text :=
  utf8 "expected type '" ++ utf8 wanted ++ utf8 "', got unconvertible type " ++
    (kindText value).inQuotes

def boolOf : Scalar → Except Text Bool
  | .null => .ok false
  | .bool b => .ok b
  | .int n => .ok (n != 0)
  | .float x => .ok !x.isZero
  | .text t =>
      if t.isEmpty then .ok false
      else match readBool? t with
        | some b => .ok b
        | none => .error (utf8 "cannot parse value as 'bool': strconv.ParseBool: invalid syntax")
  | value => .error (unconvertible "bool" value)

def textOf : Scalar → Except Text Text
  | .null => .ok []
  | .bool b => .ok (if b then utf8 "1" else utf8 "0")
  | .int n => .ok (Text.ofInt n)
  | .float x => .ok x.toText
  | .text t => .ok t
  | value => .error (unconvertible "string" value)

def valueOf (layer : Layer) (key : Text) : Scalar := (layer.reverse.lookup key).getD .null

def decode (layer : Layer) (fileUsed : Text) : Except Fault Settings :=
  let bool (key : String) : Except Text Bool := boolOf (valueOf layer (utf8 key))
  let text (key : String) : Except Text Text := textOf (valueOf layer (utf8 key))
  match bool "typecheck", text "log_level", text "prompt", text "history_file", bool "color" with
  | .ok typecheck, .ok logLevel, .ok prompt, .ok historyFile, .ok color =>
      .ok ⟨typecheck, logLevel, prompt, historyFile, color, fileUsed⟩
  | typecheck, logLevel, prompt, historyFile, color =>
      let fault {α : Type} (key : String) : Except Text α → List (Text × Text)
        | .ok _ => []
        | .error reason => [(utf8 key, reason)]
      .error (.badValues (fault "typecheck" typecheck ++ fault "log_level" logLevel ++
        fault "prompt" prompt ++ fault "history_file" historyFile ++ fault "color" color))

def fileLayer (disk : Disk) (asked : Text) : Except Fault (Layer × Text) :=
  let path :=
    if asked.isEmpty then
      match disk defaultFile with
      | .ok _ => defaultFile
      | .error .isDirectory => defaultFile
      | .error _ => []
    else asked
  if path.isEmpty then .ok ([], [])
  else match disk (Path.clean path) with
    | .error fault => .error (.unreadableFile path fault)
    | .ok document =>
        match Yaml.Document.read document with
        | .ok layer => .ok (layer, path)
        | .error fault => .error (.malformedFile path fault)

def isVariable (name value : Text) : Bool :=
  !name.isEmpty && !name.contains Byte.equals && !name.contains 0 && !value.contains 0

/-- What a variable sets: the rest of its name, in small letters, is the key. A dot in it makes the
part before the dot a mapping. -/
def variableEntry (key value : Text) : Text × Scalar :=
  match key.cut Byte.dot with
  | (key, none) => (key, .text value)
  | (key, some _) => (key, .mapping)

/-- The layer of the environment. A key that one variable makes a mapping and another sets is set by
the other. -/
def environmentLayer (environment : List (Text × Text)) : Layer :=
  let entries := environment.filterMap fun given =>
    if isVariable given.1 given.2 then
      (Text.dropStart? variableStart given.1).map fun key =>
        variableEntry (Text.toLower key) given.2
    else none
  entries.filter (·.2 = .mapping) ++ entries.filter (·.2 ≠ .mapping)

def variableNames : List Text :=
  defaults.map fun entry => variableStart ++ Text.toUpper entry.1

def validate (s : Settings) : Except Fault Settings :=
  match Log.Level.read s.logLevel with
  | .ok _ => .ok s
  | .error fault => .error (.badLevel s.logLevel fault)

def load (disk : Disk) (environment : List (Text × Text)) (file : Text) (flags : Layer) :
    Except Fault Settings := do
  let (fromFile, fileUsed) ← fileLayer disk file
  let s ← decode (defaults ++ fromFile ++ environmentLayer environment ++ flags) fileUsed
  s.validate

structure Flag where
  name : Text
  isSwitch : Bool
  short : Option UInt8 := none
deriving DecidableEq, Repr

/-- The layer entry of a flag that was given. The flag that turns checking off is written the other
way round; in all other names a hyphen stands for an underscore. -/
def Flag.setting? (flag : Flag) (value : Text) : Option (Text × Scalar) :=
  if flag.isSwitch then do
    let b ← readBool? value
    if flag.name = utf8 "no-check" then return (utf8 "typecheck", .bool !b)
    else return (flag.name, .bool b)
  else some (flag.name.map fun c => if c = Byte.minus then 95 else c, .text value)

namespace Flag

def config : Flag := ⟨utf8 "config", false, none⟩

def logLevel : Flag := ⟨utf8 "log-level", false, some 108⟩

def noCheck : Flag := ⟨utf8 "no-check", true, none⟩

def prompt : Flag := ⟨utf8 "prompt", false, none⟩

def historyFile : Flag := ⟨utf8 "history-file", false, none⟩

def dump : Flag := ⟨utf8 "dump", true, none⟩

def help : Flag := ⟨utf8 "help", true, some 104⟩

end Flag

def flagLayer? (known : List Flag) (given : List (Text × Text)) : Option Layer :=
  given.mapM fun entry => do (← known.find? (·.name = entry.1)).setting? entry.2

end Settings

end TypedSexp
