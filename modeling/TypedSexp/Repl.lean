import TypedSexp.Session
import TypedSexp.Sexp.Depth
import TypedSexp.Table
import TypedSexp.Text.Blank

namespace TypedSexp

structure Repl where
  session : Session
  pending : Text := []
deriving Repr

namespace Repl

structure Response where
  out : Text := []
  err : Text := []
  quit : Bool := false
deriving Repr

def inputName : Text := utf8 "<repl>"

def helpText : Text := utf8 "
Commands:
  .help           Show this help message
  .env            List the bindings defined so far
  .type <expr>    Show the type of an expression
  .legacy <expr>  Evaluate an expression in the legacy grammar
  .quit / .exit   Exit the REPL

Anything else is read as statements, for example (define x 1) or (print x).
Input continues over several lines until its parentheses are balanced.

"

def greeting : Text := utf8 "tyl REPL. Type .help for commands, .quit to exit"

def promptText (first : Text) (r : Repl) : Text :=
  if r.pending.isEmpty then first else utf8 "...> "

/-- The failure of an input as a line of the error stream; running out of fuel writes nothing. -/
def failure (source : Text) : Halt → Response
  | .fault d => { err := Text.lines [d.format inputName source] }
  | .outOfFuel => {}

def environment (s : Session) : Text :=
  if s.bindings.isEmpty then Text.lines [utf8 "(no bindings)"]
  else
    Table.draw [utf8 "Name", utf8 "Type", utf8 "Value"] (s.bindings.map fun binding =>
      [binding.name, (binding.type.map Ty.toText).getD (utf8 "-"), binding.shown])

inductive Command where
  | quit
  | help
  | env
  | type (source : Text)
  | legacy (source : Text)
  | unknown (word : Text)
deriving DecidableEq, Repr

def Command.ofLine (line : Text) : Command :=
  let (word, rest) := line.cut Byte.space
  let argument := (rest.getD []).trim
  if word = utf8 ".quit" || word = utf8 ".exit" then .quit
  else if word = utf8 ".help" then .help
  else if word = utf8 ".env" then .env
  else if word = utf8 ".type" then .type argument
  else if word = utf8 ".legacy" then .legacy argument
  else .unknown word

def answer (fuel : Nat) (r : Repl) : Command → Response × Repl
  | .quit => ({ quit := true }, r)
  | .help => ({ out := helpText }, r)
  | .env => ({ out := environment r.session }, r)
  | .type source =>
      if source.isEmpty then ({ err := Text.lines [utf8 "Usage: .type <expr>"] }, r)
      else match r.session.typeOf source with
        | .ok t => ({ out := Text.lines [t.toText] }, r)
        | .error d => (failure source (.fault d), r)
  | .legacy source =>
      if source.isEmpty then ({ err := Text.lines [utf8 "Usage: .legacy <expr>"] }, r)
      else match r.session.legacy fuel source with
        | (.ok shown, session) => ({ out := Text.lines [shown] }, { r with session := session })
        | (.error halt, session) => (failure source halt, { r with session := session })
  | .unknown word =>
      let line := utf8 "Unknown command: " ++ word ++ utf8 " (type .help for commands)"
      ({ err := Text.lines [line] }, r)

def submit (fuel : Nat) (session : Session) (source : Text) : Response × Repl :=
  match session.eval fuel source with
  | (.ok lines, session) => ({ out := Text.lines lines }, ⟨session, []⟩)
  | (.error halt, session) => (failure source halt, ⟨session, []⟩)

inductive Fate where
  | ignored
  | command (c : Command)
  | kept (pending : Text)
  | submitted (source : Text)
deriving DecidableEq, Repr

def fate (pending line : Text) : Fate :=
  let trimmed := line.trim
  if pending.isEmpty && trimmed.isEmpty then .ignored
  else if pending.isEmpty && trimmed.head? = some Byte.dot then .command (Command.ofLine trimmed)
  else
    let source := pending ++ line ++ [Byte.newline]
    if Sexp.depth source > 0 then .kept source else .submitted source

def handleLine (fuel : Nat) (r : Repl) (line : Text) : Response × Repl :=
  match fate r.pending line with
  | .ignored => ({}, r)
  | .command c => r.answer fuel c
  | .kept pending => ({}, { r with pending := pending })
  | .submitted source => submit fuel r.session source

end Repl

end TypedSexp
