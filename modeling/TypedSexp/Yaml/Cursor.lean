import TypedSexp.Yaml.Window

/-!
A place in a document and the characters that follow it. After the last character every look ahead
finds the character zero, which no document holds.
-/

namespace TypedSexp.Yaml

namespace Character

def isBlank (c : Nat) : Bool := c = 32 || c = 9

def isBreak (c : Nat) : Bool := c = 10 || c = 13 || c = 0x85 || c = 0x2028 || c = 0x2029

def isLineEnd (c : Nat) : Bool := c = 0 || isBreak c

def isGap (c : Nat) : Bool := isBlank c || isLineEnd c

def isDigit (c : Nat) : Bool := 48 ≤ c && c ≤ 57

def isWord (c : Nat) : Bool :=
  isDigit c || (65 ≤ c && c ≤ 90) || (97 ≤ c && c ≤ 122) || c = 95 || c = 45

def hexValue? (c : Nat) : Option Nat :=
  if isDigit c then some (c - 48)
  else if 97 ≤ c && c ≤ 102 then some (c - 87)
  else if 65 ≤ c && c ≤ 70 then some (c - 55)
  else none

def isOneOf (characters : String) (c : Nat) : Bool := characters.toList.any (·.toNat = c)

end Character

open Character

structure Cursor where
  rest : List Nat
  window : Window
  mark : Mark := ⟨0, 0, 0⟩
  /-- How many lines ended since the last character that is not blank. -/
  breaks : Nat := 0
deriving Repr

namespace Cursor

def ofSource (source : Source) : Cursor :=
  { rest := source.characters, window := .ofSource source }

def look (c : Cursor) (ahead : Nat) : Nat := c.rest.getD ahead 0

def head (c : Cursor) : Nat := c.look 0

def line (c : Cursor) : Nat := c.mark.line

def column (c : Cursor) : Nat := c.mark.column

def want (n : Nat) (c : Cursor) : Except Fault Cursor := do
  return { c with window := ← c.window.want n c.head }

def advance (n : Nat) (c : Cursor) : Cursor :=
  { rest := c.rest.drop n
    window := c.window.advance n
    mark := ⟨c.mark.index + n, c.mark.line, c.mark.column + n⟩
    breaks := if (c.rest.take n).all isBlank then c.breaks else 0 }

def walk (n : Nat) : (count : Nat) → Cursor → Except Fault Cursor
  | 0, c => .ok c
  | count + 1, c => do walk n count (← (c.advance 1).want n)

/-- The characters up to the first that is not in a class, and the place of that one. The class has
no line breaks. -/
def takeWhile (p : Nat → Bool) (c : Cursor) : Except Fault (Text × Cursor) := do
  let c ← c.want 1
  let taken := c.rest.takeWhile p
  return (taken.flatMap Symbol.encode, ← c.walk 1 taken.length)

def skipWhile (p : Nat → Bool) (c : Cursor) : Except Fault Cursor := do
  let c ← c.want 1
  c.walk 1 (c.rest.takeWhile p).length

def skipBlanks (c : Cursor) : Except Fault Cursor := c.skipWhile isBlank

def skipLine (c : Cursor) : Except Fault Cursor := c.skipWhile (!isLineEnd ·)

def nextLine (n : Nat) (c : Cursor) : Cursor :=
  ⟨c.rest.drop n, c.window.advance n, ⟨c.mark.index + n, c.mark.line + 1, 0⟩, c.breaks + 1⟩

def takeBreak (c : Cursor) : Except Fault (Text × Cursor) := do
  let c ← c.want 2
  match c.rest with
  | 13 :: 10 :: _ => return ([10], c.nextLine 2)
  | b :: _ =>
      if b = 0x2028 || b = 0x2029 then return (Symbol.encode b, c.nextLine 1)
      else if isBreak b then return ([10], c.nextLine 1)
      else return ([], c)
  | [] => return ([], c)

def skipBreak (c : Cursor) : Except Fault Cursor := do
  if isBreak c.head then return (← c.takeBreak).2 else return c

def walkTo (index : Nat) : (fuel : Nat) → Cursor → Except Fault Cursor
  | 0, c => .ok c
  | fuel + 1, c => do
      let c ← c.want 1
      if index ≤ c.mark.index then return c
      else if isBreak c.head then walkTo index fuel (← c.skipBreak)
      else walkTo index fuel (c.advance 1)

def commentReach : Nat := 512

def wantComment (ahead : Nat) (c : Cursor) : Except Fault Cursor :=
  c.want (if ahead < commentReach then ahead + 1 else commentReach)

def skipLineComment (c : Cursor) : Except Fault Cursor := do
  if c.breaks ≠ 0 then return c
  let blanks := (c.rest.takeWhile isBlank).length
  let c ← c.wantComment blanks
  if blanks < commentReach && c.look blanks = 35 then (← c.walk 1 blanks).skipLine else return c

def gapAfterComment (c : Cursor) : Nat :=
  if c.head = 10 || c.head = 13 then
    ((c.rest.drop 1).takeWhile fun b => isBlank b || b = 10 || b = 13).length + 1
  else 1

def skipComments : (fuel : Nat) → Cursor → Except Fault Cursor
  | 0, c => .ok c
  | fuel + 1, c => do
      let c ← c.skipLine
      let ahead := c.gapAfterComment
      let c ← c.wantComment ahead
      if (c.head = 10 || c.head = 13) && ahead < commentReach && c.look ahead = 35 then
        skipComments fuel (← c.walkTo (c.mark.index + ahead) (ahead + 1))
      else return c

/-- Passes over a character at the start of a line if the window starts with a byte order mark. The
mark is not looked for at the line itself. -/
def skipMark (c : Cursor) : Except Fault Cursor := do
  let c ← c.want 1
  if c.column = 0 && c.window.startsMarked then return c.advance 1 else return c

/-- Passes over white space and comments. Tabs count as white space inside brackets (`flow`) and
where no key may start; outside brackets a key may start on each new line. -/
def skipToToken (flow : Bool) :
    (fuel : Nat) → (keyAllowed : Bool) → Cursor → Except Fault (Bool × Cursor)
  | 0, keyAllowed, c => .ok (keyAllowed, c)
  | fuel + 1, keyAllowed, c => do
      let c ← c.skipMark
      let c ← c.skipWhile fun b => b = 32 || ((flow || !keyAllowed) && b = 9)
      let c ← if c.head = 35 then skipComments c.rest.length c else pure c
      if isBreak c.head then skipToToken flow fuel (keyAllowed || !flow) (← c.skipBreak)
      else return (keyAllowed, c)

def atDocumentMark (c : Cursor) : Bool :=
  c.column = 0 && (c.rest.take 3 = [45, 45, 45] || c.rest.take 3 = [46, 46, 46]) &&
    isGap (c.look 3)

end Cursor

end TypedSexp.Yaml
