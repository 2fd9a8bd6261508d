import TypedSexp.Yaml.Lexeme.Block
import TypedSexp.Yaml.Lexeme.Name
import TypedSexp.Yaml.Lexeme.Quoted

/-!
Cutting a document into tokens. A key of a mapping has no mark of its own in front of it: that
something was a key shows only when a colon follows it. Each level of brackets therefore keeps a
candidate, and the colon puts the marks before it that were left out.
-/

namespace TypedSexp.Yaml

open Character

structure Candidate where
  required : Bool
  number : Nat
  mark : Mark
deriving DecidableEq, Repr

/-- A key ends on its line and within 1024 characters. -/
def Candidate.isLive (k : Candidate) (here : Mark) : Bool :=
  here.line ≤ k.mark.line && here.index ≤ k.mark.index + 1024

structure Lexer where
  cursor : Cursor
  tokens : Array Token := #[]
  /-- The column of the innermost block collection; -1 outside all of them. -/
  indent : Int := -1
  indents : List Int := []
  keyAllowed : Bool := true
  candidate : Option Candidate := none
  /-- The candidates of the levels of brackets around this one. -/
  outer : List (Option Candidate) := []
  ended : Bool := false
deriving Repr

namespace Lexer

def maxDepth : Nat := 10000

def isFlow (s : Lexer) : Bool := !s.outer.isEmpty

def mark (s : Lexer) : Mark := s.cursor.mark

def candidateMark (s : Lexer) : Mark := (s.candidate.map Candidate.mark).getD ⟨0, 0, 0⟩

def emit (s : Lexer) (kind : Token.Kind) (mark : Mark) : Lexer :=
  { s with tokens := s.tokens.push ⟨kind, mark⟩ }

def emitMark (s : Lexer) (kind : Token.Kind) (n : Nat) : Lexer :=
  { s.emit kind s.mark with cursor := s.cursor.advance n }

def dropCandidate (s : Lexer) : Except Fault Lexer :=
  match s.candidate with
  | some k =>
      if k.required then .error (.inToken k.mark s.mark .missingColon)
      else .ok { s with candidate := none }
  | none => .ok s

/-- Makes the next token the candidate if a key may start here. At the column of the innermost block
collection nothing else can. -/
def noteCandidate (s : Lexer) : Except Fault Lexer := do
  if s.keyAllowed then
    let required := !s.isFlow && s.indent = s.mark.column
    let s ← s.dropCandidate
    return { s with candidate := some ⟨required, s.tokens.size, s.mark⟩ }
  else return s

def unrollFrom (column : Int) (mark : Mark) (tokens : Array Token) :
    (indent : Int) → (indents : List Int) → Int × List Int × Array Token
  | indent, [] => (indent, [], tokens)
  | indent, next :: rest =>
      if column < indent then unrollFrom column mark (tokens.push ⟨.blockEnd, mark⟩) next rest
      else (indent, next :: rest, tokens)

def unroll (s : Lexer) (column : Int) (mark : Mark) : Lexer :=
  if s.isFlow then s
  else
    let (indent, indents, tokens) := unrollFrom column mark s.tokens s.indent s.indents
    { s with indent := indent, indents := indents, tokens := tokens }

def roll (s : Lexer) (column number : Nat) (kind : Token.Kind) (mark : Mark) :
    Except Fault Lexer :=
  if s.isFlow || column ≤ s.indent then .ok s
  else if maxDepth ≤ s.indents.length then .error (.inToken s.candidateMark s.mark .depth)
  else
    .ok { s with
      indents := s.indent :: s.indents
      indent := column
      tokens := s.tokens.insertIdxIfInBounds number ⟨kind, mark⟩ }

def takeEnd (s : Lexer) : Except Fault Lexer := do
  let mark : Mark :=
    if s.mark.column = 0 then s.mark else ⟨s.mark.index, s.mark.line + 1, 0⟩
  let s := { s with cursor := { s.cursor with mark := mark } }
  let s ← (s.unroll (-1) mark).dropCandidate
  return { s.emit .streamEnd mark with keyAllowed := false, ended := true }

def takeDirective (s : Lexer) : Except Fault Lexer := do
  let s ← (s.unroll (-1) s.mark).dropCandidate
  let (kind, c) ← Name.takeDirective s.cursor
  return { s.emit kind s.mark with keyAllowed := false, cursor := c }

def takeDocumentMark (s : Lexer) : Except Fault Lexer := do
  let s ← (s.unroll (-1) s.mark).dropCandidate
  let kind := if s.cursor.head = 45 then Token.Kind.documentStart else .documentEnd
  return { s.emitMark kind 3 with keyAllowed := false }

def takeOpening (s : Lexer) (kind : Token.Kind) : Except Fault Lexer := do
  let s ← s.noteCandidate
  if maxDepth ≤ s.outer.length then .error (.inToken s.mark s.mark .depth)
  return { s.emitMark kind 1 with
    outer := s.candidate :: s.outer, candidate := none, keyAllowed := true }

def takeClosing (s : Lexer) (kind : Token.Kind) : Except Fault Lexer := do
  let s ← s.dropCandidate
  let s := match s.outer with
    | [] => s
    | candidate :: outer => { s with candidate := candidate, outer := outer }
  return { s.emitMark kind 1 with keyAllowed := false }

def takeComma (s : Lexer) : Except Fault Lexer := do
  let s ← s.dropCandidate
  return { s.emitMark .flowEntry 1 with keyAllowed := true }

def takeEntry (s : Lexer) : Except Fault Lexer := do
  if !s.isFlow && !s.keyAllowed then .error (.inToken s.mark s.mark .entryNotAllowed)
  let s ← s.roll s.mark.column s.tokens.size .blockSequenceStart s.mark
  let s ← s.dropCandidate
  return { s.emitMark .blockEntry 1 with keyAllowed := true }

def takeKey (s : Lexer) : Except Fault Lexer := do
  if !s.isFlow && !s.keyAllowed then .error (.inToken s.mark s.mark .keyNotAllowed)
  let s ← s.roll s.mark.column s.tokens.size .blockMappingStart s.mark
  let s ← s.dropCandidate
  return { s.emitMark .key 1 with keyAllowed := !s.isFlow }

def confirm (s : Lexer) (k : Candidate) : Except Fault Lexer := do
  let s := { s with tokens := s.tokens.insertIdxIfInBounds k.number ⟨.key, k.mark⟩ }
  let s ← s.roll k.mark.column k.number .blockMappingStart k.mark
  return { s with candidate := none, keyAllowed := false }

def startValue (s : Lexer) : Except Fault Lexer := do
  if !s.isFlow && !s.keyAllowed then .error (.inToken s.mark s.mark .valueNotAllowed)
  let s ← s.roll s.mark.column s.tokens.size .blockMappingStart s.mark
  return { s with keyAllowed := !s.isFlow }

def takeValue (s : Lexer) : Except Fault Lexer := do
  let s ← match s.candidate with
    | none => s.startValue
    | some k =>
        if k.isLive s.mark then s.confirm k
        else if k.required then .error (.inToken k.mark s.mark .missingColon)
        else startValue { s with candidate := none }
  return s.emitMark .value 1

def emitRead (s : Lexer) (kind : Token.Kind) (c : Cursor) : Lexer :=
  { s.emit kind s.mark with cursor := c, keyAllowed := false }

def takeAnchor (s : Lexer) (kind : Text → Token.Kind) : Except Fault Lexer := do
  let s ← s.noteCandidate
  let (name, c) ← Name.takeAnchor s.cursor
  return s.emitRead (kind name) c

def takeTag (s : Lexer) : Except Fault Lexer := do
  let s ← s.noteCandidate
  let (kind, c) ← Name.takeTagToken s.cursor
  return s.emitRead kind c

def takeBlock (s : Lexer) (literal : Bool) : Except Fault Lexer := do
  let s ← s.dropCandidate
  let (text, c) ← Block.take literal s.indent s.cursor
  return { s.emitRead (.scalar text false) c with keyAllowed := true }

def takeQuoted (s : Lexer) (single : Bool) : Except Fault Lexer := do
  let s ← s.noteCandidate
  let (text, c) ← Quoted.take single s.cursor
  return s.emitRead (.scalar text false) c

def takePlain (s : Lexer) : Except Fault Lexer := do
  let s ← s.noteCandidate
  let result ← Plain.take s.isFlow (s.indent + 1).toNat s.cursor
  return { s.emitRead (.scalar result.text true) result.cursor with keyAllowed := result.endsLine }

def isIndicator (c : Nat) : Bool := isOneOf "-?:,[]\x7b\x7d#&*!|>'\"%@\x60" c

def atPlain (s : Lexer) : Bool :=
  let c := s.cursor.head
  let next := s.cursor.look 1
  !(isGap c || isIndicator c) || (c = 45 && !isBlank next) ||
    (!s.isFlow && (c = 63 || c = 58) && !isGap next)

def takeToken (s : Lexer) : Except Fault Lexer :=
  let beforeGap := isGap (s.cursor.look 1)
  match s.cursor.head with
  | 91 => s.takeOpening .flowSequenceStart
  | 123 => s.takeOpening .flowMappingStart
  | 93 => s.takeClosing .flowSequenceEnd
  | 125 => s.takeClosing .flowMappingEnd
  | 44 => s.takeComma
  | 42 => s.takeAnchor .alias
  | 38 => s.takeAnchor .anchor
  | 33 => s.takeTag
  | 39 => s.takeQuoted true
  | 34 => s.takeQuoted false
  | c =>
      if c = 45 && beforeGap then s.takeEntry
      else if c = 63 && (s.isFlow || beforeGap) then s.takeKey
      else if c = 58 && (s.isFlow || beforeGap) then s.takeValue
      else if c = 124 && !s.isFlow then s.takeBlock true
      else if c = 62 && !s.isFlow then s.takeBlock false
      else if s.atPlain then s.takePlain
      else .error (.inToken s.mark s.mark .noToken)

/-- Takes the next token, with the white space and comments before it, the ends of block collections
that its column implies, and a comment after it. A comment after a hyphen belongs to what
follows. -/
def step (s : Lexer) : Except Fault Lexer := do
  let before := s.mark
  let (keyAllowed, c) ← s.cursor.skipToToken s.isFlow (s.cursor.rest.length + 1) s.keyAllowed
  let c ← c.want 4
  let s := unroll { s with keyAllowed := keyAllowed, cursor := c } c.column before
  if c.head = 0 then s.takeEnd
  else if c.column = 0 && c.head = 37 then s.takeDirective
  else if c.atDocumentMark then s.takeDocumentMark
  else
    let s ← s.takeToken
    if s.tokens.back?.map Token.kind = some .blockEntry then return s
    else return { s with cursor := ← s.cursor.skipLineComment }

/-- A required candidate that is out of reach of a colon, once two tokens after it show that or the
document has ended. -/
def overdue? (s : Lexer) : Option Candidate :=
  ((s.candidate :: s.outer).filterMap id).find? fun k =>
    k.required && !k.isLive s.mark && (s.ended || k.number + 3 ≤ s.tokens.size)

def run : (fuel : Nat) → Lexer → Lexer × Option Fault
  | 0, s => (s, none)
  | fuel + 1, s =>
      match s.overdue? with
      | some k => (s, some (.inToken k.mark s.mark .missingColon))
      | none =>
          if s.ended then (s, none)
          else match s.step with
            | .ok s => run fuel s
            | .error fault => (s, some fault)

/-- How many of the tokens so far are certain. A reader of tokens looks two tokens ahead, and a
candidate is not certain before it is known whether it is a key. -/
def certain (s : Lexer) : Nat :=
  (s.candidate :: s.outer).foldl (fun count candidate =>
    match candidate with
    | some k => if (k.required || k.isLive s.mark) && k.number < count then k.number else count
    | none => count) (s.tokens.size - 2)

end Lexer

structure Stream where
  tokens : List Token
  fault : Option Fault
deriving Repr

def Stream.ofSource (source : Source) : Stream :=
  match Lexer.run (source.characters.length + 3) { cursor := .ofSource source } with
  | (s, none) => ⟨s.tokens.toList, none⟩
  | (s, some fault) => ⟨s.tokens.toList.take s.certain, some fault⟩

end TypedSexp.Yaml
