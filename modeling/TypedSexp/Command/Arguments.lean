import TypedSexp.Settings.Basic

/-!
The arguments of the command line: a verb, flags and operands in any order. A flag is written
`--name value`, `--name=value`, or with one letter `-n value`, `-n=value` or `-nvalue`; a switch
needs no value. All that follows `--` is an operand.
-/

namespace TypedSexp.Command

open Settings (Flag)

inductive Verb where
  | run
  | check
  | parse
  | legacy
  | repl
deriving DecidableEq, Repr

def Verb.all : List Verb := [.run, .check, .parse, .legacy, .repl]

def Verb.toText : Verb → Text
  | .run => utf8 "run"
  | .check => utf8 "check"
  | .parse => utf8 "parse"
  | .legacy => utf8 "legacy"
  | .repl => utf8 "repl"

def Verb.ofText? (t : Text) : Option Verb := Verb.all.find? fun verb => verb.toText = t

def commonFlags : List Flag := [.config, .logLevel, .help]

def Verb.flags : Verb → List Flag
  | .run => .noCheck :: commonFlags
  | .check => commonFlags
  | .parse => .dump :: commonFlags
  | .legacy => .noCheck :: commonFlags
  | .repl => [.noCheck, .prompt, .historyFile] ++ commonFlags

inductive Fault where
  | badFlag (argument : Text)
  | unknownFlag (name : Text)
  | unknownLetter (letters : Text)
  | missingValue (name : Text)
  | missingLetterValue (letters : Text)
  | badSwitch (flag : Flag) (value : Text)
  | tooFew (expected found : Nat)
  | wrongCount (expected found : Nat)
  | unexpectedOperand (verb : Verb) (operand : Text)
deriving DecidableEq, Repr

/-- The first letter of an argument in single quotation marks. Of a letter that is not ASCII only
the first byte of its UTF-8 form is shown. -/
def letterText (letters : Text) : Text :=
  let bytes := Symbol.encode ((letters.head?.getD 0).toNat)
  Text.quotedMark ((bytes.head?.getD 0).toNat)

def Fault.message : Fault → Text
  | .badFlag argument => utf8 "bad flag syntax: " ++ argument
  | .unknownFlag name => utf8 "unknown flag: --" ++ name
  | .unknownLetter letters =>
      utf8 "unknown shorthand flag: " ++ letterText letters ++ utf8 " in -" ++ letters
  | .missingValue name => utf8 "flag needs an argument: --" ++ name
  | .missingLetterValue letters =>
      utf8 "flag needs an argument: " ++ letterText letters ++ utf8 " in -" ++ letters
  | .badSwitch flag value =>
      let name := match flag.short with
        | some letter => utf8 "-" ++ [letter] ++ utf8 ", --" ++ flag.name
        | none => utf8 "--" ++ flag.name
      utf8 "invalid argument " ++ value.quoted ++ utf8 " for " ++ name.quoted ++
        utf8 " flag: strconv.ParseBool: parsing " ++ value.quoted ++ utf8 ": invalid syntax"
  | .tooFew expected found =>
      utf8 "requires at least " ++ Text.ofNat expected ++ utf8 " arg(s), only received " ++
        Text.ofNat found
  | .wrongCount expected found =>
      utf8 "accepts " ++ Text.ofNat expected ++ utf8 " arg(s), received " ++ Text.ofNat found
  | .unexpectedOperand verb operand =>
      utf8 "unknown command " ++ operand.quoted ++ utf8 " for " ++
        (utf8 "tyl " ++ verb.toText).quoted

structure Parsed where
  flags : List (Flag × Text) := []
  operands : List Text := []
deriving DecidableEq, Repr

def Parsed.addFlag (p : Parsed) (flag : Flag) (value : Text) : Except Fault Parsed :=
  if flag.isSwitch && (Settings.readBool? value).isNone then .error (.badSwitch flag value)
  else .ok { p with flags := p.flags ++ [(flag, value)] }

def switchOn : Text := utf8 "true"

inductive Step where
  | complete (p : Parsed)
  | awaiting (flag : Flag) (fault : Fault)

def longFlag (known : List Flag) (p : Parsed) (body : Text) : Except Fault Step := do
  if body.head? = some Byte.minus || body.head? = some Byte.equals then
    .error (.badFlag (utf8 "--" ++ body))
  let (name, value) := body.cut Byte.equals
  match known.find? (·.name = name), value with
  | none, _ => .error (.unknownFlag name)
  | some flag, some value => return .complete (← p.addFlag flag value)
  | some flag, none =>
      if flag.isSwitch then return .complete (← p.addFlag flag switchOn)
      else return .awaiting flag (.missingValue name)

/-- Letters that start like this are meant for a test program and passed over. -/
def testStart : Text := utf8 "test."

def shortFlags (known : List Flag) (p : Parsed) : Text → Except Fault Step
  | [] => .ok (.complete p)
  | letter :: rest =>
      if testStart.isPrefixOf (letter :: rest) then .ok (.complete p)
      else match known.find? (·.short = some letter) with
        | none => .error (.unknownLetter (letter :: rest))
        | some flag =>
            match rest with
            | [] =>
                if flag.isSwitch then do return .complete (← p.addFlag flag switchOn)
                else .ok (.awaiting flag (.missingLetterValue [letter]))
            | next :: after =>
                if next = Byte.equals && !after.isEmpty then do
                  return .complete (← p.addFlag flag after)
                else if flag.isSwitch then do
                  shortFlags known (← p.addFlag flag switchOn) (next :: after)
                else do return .complete (← p.addFlag flag (next :: after))

def isFlag (argument : Text) : Bool := argument.head? = some Byte.minus && argument.length ≠ 1

def parseFrom (known : List Flag) (p : Parsed) (wanted : Option (Flag × Fault)) :
    List Text → Except Fault Parsed
  | [] =>
      match wanted with
      | some (_, fault) => .error fault
      | none => .ok p
  | argument :: rest =>
      match wanted with
      | some (flag, _) => do parseFrom known (← p.addFlag flag argument) none rest
      | none =>
          if argument = utf8 "--" then .ok { p with operands := p.operands ++ rest }
          else if !isFlag argument then
            parseFrom known { p with operands := p.operands ++ [argument] } none rest
          else do
            let step ← match Text.dropStart? (utf8 "--") argument with
              | some body => longFlag known p body
              | none => shortFlags known p argument.tail
            match step with
            | .complete p => parseFrom known p none rest
            | .awaiting flag fault => parseFrom known p (some (flag, fault)) rest

def takesNext (argument : Text) : Bool :=
  argument.head? = some Byte.minus && !argument.contains Byte.equals &&
    (argument.length = 2 || (utf8 "--").isPrefixOf argument)

/-- The first argument that is neither a flag nor its value, and all the others. No verb is empty or
starts with a hyphen. -/
def splitVerb (before : List Text) (skip : Bool) : List Text → Option (Text × List Text)
  | [] => none
  | argument :: rest =>
      if skip then splitVerb (before ++ [argument]) false rest
      else if argument = utf8 "--" then none
      else if takesNext argument then splitVerb (before ++ [argument]) true rest
      else if argument.isEmpty || argument.head? = some Byte.minus then
        splitVerb (before ++ [argument]) false rest
      else some (argument, before ++ rest)

structure Invocation where
  verb : Verb
  flags : List (Flag × Text)
  operands : List Text
deriving DecidableEq, Repr

def Verb.validate (verb : Verb) (operands : List Text) : Except Fault Unit :=
  match verb with
  | .run => if operands.isEmpty then .error (.tooFew 1 0) else .ok ()
  | .check => if operands.isEmpty then .error (.tooFew 1 0) else .ok ()
  | .parse => if operands.length = 1 then .ok () else .error (.wrongCount 1 operands.length)
  | .legacy => if operands.length = 1 then .ok () else .error (.wrongCount 1 operands.length)
  | .repl =>
      match operands with
      | [] => .ok ()
      | operand :: _ => .error (.unexpectedOperand .repl operand)

def asksHelp (flags : List (Flag × Text)) : Bool :=
  flags.any fun given => given.1 = .help && Settings.readBool? given.2 = some true

def Invocation.ofArguments (arguments : List Text) : Except Fault (Option Invocation) := do
  let found := do
    let (word, rest) ← splitVerb [] false arguments
    return (← Verb.ofText? word, rest)
  match found with
  | none => do
      let _ ← parseFrom commonFlags {} none arguments
      return none
  | some (verb, rest) => do
      let parsed ← parseFrom verb.flags {} none rest
      if asksHelp parsed.flags then return none
      verb.validate parsed.operands
      return some ⟨verb, parsed.flags, parsed.operands⟩

def Invocation.flagValue? (i : Invocation) (flag : Flag) : Option Text :=
  i.flags.reverse.lookup flag

def Invocation.configFile (i : Invocation) : Text := (i.flagValue? .config).getD []

def Invocation.layer (i : Invocation) : Settings.Layer :=
  i.flags.filterMap fun given => given.1.setting? given.2

def Invocation.paths (i : Invocation) : List Text :=
  let configFile := if i.configFile.isEmpty then [] else [Path.clean i.configFile]
  let files := if i.verb = .legacy then [] else i.operands ++ i.operands.map Path.clean
  Settings.defaultFile :: configFile ++ files

end TypedSexp.Command
