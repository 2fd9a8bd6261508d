import TypedSexp.Yaml.Cursor

/-!
Plain scalars: text without quotes, which may run over several lines. A single line break inside it
is read as a space, and of several breaks the first is dropped.
-/

namespace TypedSexp.Yaml

open Character

structure Gap where
  blanks : Text := []
  first : Text := []
  more : Text := []
  isBroken : Bool := false
deriving DecidableEq, Repr

namespace Gap

def text (gap : Gap) : Text :=
  if !gap.isBroken then gap.blanks
  else if gap.first.head? = some 10 then (if gap.more.isEmpty then [32] else gap.more)
  else gap.first ++ gap.more

/-- Takes blanks and line breaks. A tab may not stand in the first `indent` columns of a line;
`start` is where the scalar started. -/
def take (indent : Nat) (start : Mark) :
    (fuel : Nat) → Gap → Cursor → Except Fault (Gap × Cursor)
  | 0, gap, c => .ok (gap, c)
  | fuel + 1, gap, c => do
      let c ← c.want 1
      if isBlank c.head then
        if gap.isBroken then
          if c.column < indent && c.head = 9 then .error (.inToken start c.mark .plainTab)
          else take indent start fuel gap (c.advance 1)
        else
          take indent start fuel { gap with blanks := gap.blanks ++ Symbol.encode c.head }
            (c.advance 1)
      else if isBreak c.head then
        let (taken, c) ← c.takeBreak
        if gap.isBroken then take indent start fuel { gap with more := gap.more ++ taken } c
        else take indent start fuel { gap with blanks := [], first := taken, isBroken := true } c
      else return (gap, c)

end Gap

namespace Plain

/-- How many characters the word has that starts here: up to white space, a colon before that, or,
inside brackets, a mark of the collection. -/
def wordLength (flow : Bool) : List Nat → Nat
  | [] => 0
  | c :: rest =>
      if isGap c || (c = 58 && isGap (rest.headD 0)) || (flow && isOneOf ",?[]\x7b\x7d" c) then 0
      else wordLength flow rest + 1

structure Result where
  text : Text
  endsLine : Bool
  cursor : Cursor

def takeFrom (flow : Bool) (indent : Nat) (start : Mark) :
    (fuel : Nat) → (text : Text) → (gap : Gap) → Cursor → Except Fault Result
  | 0, text, gap, c => .ok ⟨text, gap.isBroken, c⟩
  | fuel + 1, text, gap, c => do
      let c ← c.want 4
      if c.atDocumentMark || c.head = 35 then return ⟨text, gap.isBroken, c⟩
      else
        let length := wordLength flow c.rest
        let word := (c.rest.take length).flatMap Symbol.encode
        let c ← c.walk 2 length
        let (text, gap) := if length = 0 then (text, gap) else (text ++ gap.text ++ word, {})
        if isBlank c.head || isBreak c.head then
          let (gap, c) ← gap.take indent start (c.rest.length + 1) c
          if !flow && c.column < indent then return ⟨text, gap.isBroken, c⟩
          else takeFrom flow indent start fuel text gap c
        else return ⟨text, gap.isBroken, c⟩

def take (flow : Bool) (indent : Nat) (c : Cursor) : Except Fault Result :=
  takeFrom flow indent c.mark (c.rest.length + 1) [] {} c

end Plain

end TypedSexp.Yaml
