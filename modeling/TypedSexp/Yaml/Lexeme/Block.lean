import TypedSexp.Yaml.Cursor

namespace TypedSexp.Yaml.Block

open Character

inductive Chomping where
  | strip
  | clip
  | keep
deriving DecidableEq, Repr

structure Header where
  chomping : Chomping := .clip
  /-- How much more the block is indented; zero if its first line is to tell. -/
  increment : Nat := 0
deriving DecidableEq, Repr

def takeChomping (c : Cursor) : Except Fault (Chomping × Cursor) := do
  let c ← c.want 1
  if c.head = 43 then return (.keep, c.advance 1)
  else if c.head = 45 then return (.strip, c.advance 1)
  else return (.clip, c)

def takeIncrement (start : Mark) (c : Cursor) : Except Fault (Nat × Cursor) := do
  let c ← c.want 1
  if c.head = 48 then .error (.inToken start c.mark .zeroIndent)
  else if isDigit c.head then return (c.head - 48, c.advance 1)
  else return (0, c)

def takeHeader (start : Mark) (c : Cursor) : Except Fault (Header × Cursor) := do
  let c ← c.want 1
  if isDigit c.head then
    let (increment, c) ← takeIncrement start c
    let (chomping, c) ← takeChomping c
    return (⟨chomping, increment⟩, c)
  else
    let (chomping, after) ← takeChomping c
    if chomping = .clip then return ({}, c)
    else
      let (increment, c) ← takeIncrement start after
      return (⟨chomping, increment⟩, c)

def takeLineEnd (start : Mark) (c : Cursor) : Except Fault Cursor := do
  let c ← c.skipBlanks
  let c ← if c.head = 35 then c.skipLine else pure c
  if isLineEnd c.head then c.skipBreak else .error (.inToken start c.mark .blockEnd)

/-- Takes empty lines and the indentation of the first line that is not empty: the line breaks, and
the greatest column reached. While `indent` is zero, all leading spaces are indentation. -/
def takeBreaks (start : Mark) (indent : Nat) :
    (fuel : Nat) → (breaks : Text) → (reached : Nat) → Cursor → Except Fault (Text × Nat × Cursor)
  | 0, breaks, reached, c => .ok (breaks, reached, c)
  | fuel + 1, breaks, reached, c => do
      let c ← c.want 1
      let run := if indent = 0 then c.rest else c.rest.take (indent - c.column)
      let c ← c.walk 1 (run.takeWhile (· = 32)).length
      let reached := if reached < c.column then c.column else reached
      if (indent = 0 || c.column < indent) && c.head = 9 then
        .error (.inToken start c.mark .blockTab)
      else if isBreak c.head then
        let (taken, c) ← c.takeBreak
        takeBreaks start indent fuel (breaks ++ taken) reached c
      else return (breaks, reached, c)

def indentFor (outer : Int) (reached : Nat) : Nat :=
  let least := (outer + 1).toNat
  let indent := if reached < least then least else reached
  if indent = 0 then 1 else indent

structure Lines where
  text : Text := []
  last : Text := []
  empty : Text := []
  wasBlank : Bool := false

def Lines.joined (lines : Lines) (literal isBlank : Bool) : Text :=
  if !literal && !lines.wasBlank && !isBlank && lines.last.head? = some 10 then
    lines.text ++ (if lines.empty.isEmpty then [32] else lines.empty)
  else lines.text ++ lines.last ++ lines.empty

def takeLines (literal : Bool) (start : Mark) (indent : Nat) :
    (fuel : Nat) → Lines → Cursor → Except Fault (Lines × Cursor)
  | 0, lines, c => .ok (lines, c)
  | fuel + 1, lines, c =>
      if c.column = indent && c.head ≠ 0 then do
        let blank := isBlank c.head
        let before := lines.joined literal blank
        let (line, c) ← c.takeWhile (!isLineEnd ·)
        let (last, c) ← c.takeBreak
        let (empty, _, c) ← takeBreaks start indent (c.rest.length + 1) [] 0 c
        takeLines literal start indent fuel ⟨before ++ line, last, empty, blank⟩ c
      else .ok (lines, c)

def take (literal : Bool) (outer : Int) (c : Cursor) : Except Fault (Text × Cursor) := do
  let start := c.mark
  let (header, c) ← takeHeader start (c.advance 1)
  let c ← takeLineEnd start c
  let given :=
    if header.increment = 0 then 0
    else if 0 ≤ outer then outer.toNat + header.increment
    else header.increment
  let (empty, reached, c) ← takeBreaks start given (c.rest.length + 1) [] 0 c
  let indent := if given = 0 then indentFor outer reached else given
  let (lines, c) ← takeLines literal start indent (c.rest.length + 1) { empty := empty } c
  let text := match header.chomping with
    | .strip => lines.text
    | .clip => lines.text ++ lines.last
    | .keep => lines.text ++ lines.last ++ lines.empty
  return (text, c)

end TypedSexp.Yaml.Block
