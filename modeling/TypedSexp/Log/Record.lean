import TypedSexp.Log.Level
import TypedSexp.Log.Section
import TypedSexp.Text.Blank

/-!
Log records and the line each is written as. Records below `WARN` are written only for the sections
that are enabled; with a section all those are enabled whose name starts with its own.
-/

namespace TypedSexp.Log

structure Record where
  level : Level
  message : Text
  context : List Attribute
  group : Text
  attributes : List Attribute
deriving Repr

def needsQuotes (t : Text) : Bool :=
  t.isEmpty || t.symbols.any fun
    | .stray _ => true
    | .scalar c =>
        if c < 0x80 then
          c ≤ Byte.space.toNat || c = Byte.quote.toNat || c = Byte.equals.toNat
        else c = Symbol.replacement || Text.isWhiteSpace c || !Text.isPrintable c

def written (t : Text) : Text := if needsQuotes t then t.quoted else t

def keyText (path key : Text) : Text :=
  if path.isEmpty then written key
  else if needsQuotes path || needsQuotes key then (path ++ key).quoted
  else path ++ key

/-- The keys and values that an attribute is written as. A key `time` is never written. -/
def entries (path : Text) (a : Attribute) : List Text :=
  let entry (path key value : Text) : List Text :=
    if key = utf8 "time" then [] else [keyText path key ++ utf8 "=" ++ written value]
  match a.content with
  | .text t => entry path a.key t
  | .int n => entry path a.key (Text.ofInt n)
  | .bool b => entry path a.key (Text.ofBool b)
  | .expr e => entry path a.key e.toText
  | .type t => entry path a.key t.toText
  | .diagnostics ds =>
      let inner := if a.key.isEmpty then path else path ++ a.key ++ utf8 "."
      (ds.zipIdx.map fun d =>
        entry (inner ++ utf8 "e" ++ Text.ofNat d.2 ++ utf8 ".") (utf8 "msg") d.1.withCode).flatten

def Record.line (r : Record) : Text :=
  let path := if r.group.isEmpty then [] else r.group ++ utf8 "."
  let parts := [utf8 "level=" ++ written r.level.toText, utf8 "msg=" ++ written r.message] ++
    r.context.flatMap (entries []) ++ r.attributes.flatMap (entries path)
  Text.lines [Text.join (utf8 " ") parts]

def defaultSections : List Text :=
  [utf8 "lexer", utf8 "parser", utf8 "frontend", utf8 "types", utf8 "backend", utf8 "repl",
    utf8 "cli"]

structure Filter where
  minimum : Level
  sections : List Text := defaultSections
deriving Repr

def Filter.enables (f : Filter) (name : Spelling) : Bool := f.sections.any name.startsWith

def Filter.admits (f : Filter) (r : Record) : Bool :=
  f.minimum.value ≤ r.level.value &&
    (Level.warn.value ≤ r.level.value ||
      ((r.context ++ r.attributes).filterMap Attribute.section?).any f.enables)

def Filter.write (f : Filter) (r : Record) : Text := if f.admits r then r.line else []

end TypedSexp.Log
