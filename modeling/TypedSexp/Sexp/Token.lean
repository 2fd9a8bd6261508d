import TypedSexp.Source.Range

/-!
The tokens of source text: parentheses and atoms. Blanks separate atoms, a semicolon starts a
comment that runs to the end of its line, and every other byte belongs to an atom, so that splitting
text into tokens cannot fail.
-/

namespace TypedSexp.Sexp

/-- A parenthesis or an atom, at a byte offset counted from zero. -/
inductive Token where
  | opening (offset : Nat)
  | closing (offset : Nat)
  | atom (offset : Nat) (text : Text)
deriving DecidableEq, Repr

def isBlank (c : UInt8) : Bool :=
  c == Byte.space || c == Byte.tab || c == Byte.newline || c == Byte.carriageReturn

def isDelimiter (c : UInt8) : Bool :=
  isBlank c || c == Byte.openParen || c == Byte.closeParen || c == Byte.semicolon

namespace Token

/-- Where scanning stands: between tokens, inside a comment, or inside the atom that began at
`offset` and whose bytes so far, last one first, are `bytes`. -/
inductive Mode where
  | between
  | comment
  | word (offset : Nat) (bytes : Text)
deriving DecidableEq, Repr

def Mode.flush : Mode → List Token
  | .word offset bytes => [.atom offset bytes.reverse]
  | _ => []

def ofDelimiter (offset : Nat) (c : UInt8) : List Token :=
  if c = Byte.openParen then [.opening offset]
  else if c = Byte.closeParen then [.closing offset]
  else []

def Mode.afterDelimiter (c : UInt8) : Mode :=
  if c = Byte.semicolon then .comment else .between

def Mode.extend (offset : Nat) (c : UInt8) : Mode → Mode
  | .word start bytes => .word start (c :: bytes)
  | _ => .word offset [c]

def scanFrom (mode : Mode) (offset : Nat) : Text → List Token
  | [] => mode.flush
  | c :: rest =>
      if mode = .comment then
        scanFrom (if c = Byte.newline then .between else .comment) (offset + 1) rest
      else if isDelimiter c then
        mode.flush ++ ofDelimiter offset c ++
          scanFrom (Mode.afterDelimiter c) (offset + 1) rest
      else scanFrom (mode.extend offset c) (offset + 1) rest

def scan (source : Text) : List Token := scanFrom .between 0 source

end Token

end TypedSexp.Sexp
