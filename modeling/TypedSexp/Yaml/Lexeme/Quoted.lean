import TypedSexp.Yaml.Lexeme.Plain

namespace TypedSexp.Yaml.Quoted

open Character

def escape? (letter : Nat) : Option Nat :=
  match letter with
  | 48 => some 0
  | 97 => some 7
  | 98 => some 8
  | 116 => some 9
  | 9 => some 9
  | 110 => some 10
  | 118 => some 11
  | 102 => some 12
  | 114 => some 13
  | 101 => some 27
  | 32 => some 32
  | 34 => some 34
  | 39 => some 39
  | 92 => some 92
  | 78 => some 0x85
  | 95 => some 0xA0
  | 76 => some 0x2028
  | 80 => some 0x2029
  | _ => none

def escapeDigits? (letter : Nat) : Option Nat :=
  match letter with
  | 120 => some 2
  | 117 => some 4
  | 85 => some 8
  | _ => none

def hexNumber? (digits : List Nat) : Option Nat :=
  digits.foldlM (fun acc c => (hexValue? c).map (acc * 16 + ·)) 0

def takeEscape (start : Mark) (c : Cursor) : Except Fault (Text × Cursor) :=
  let letter := c.look 1
  match escape? letter, escapeDigits? letter with
  | some code, _ => .ok (Symbol.encode code, c.advance 2)
  | none, some count => do
      let c ← (c.advance 2).want count
      let digits := c.rest.take count
      match hexNumber? digits with
      | none => .error (.inToken start c.mark .escapeDigits)
      | some code =>
          if digits.length < count then .error (.inToken start c.mark .escapeDigits)
          else if (0xD800 ≤ code && code ≤ 0xDFFF) || 0x10FFFF < code then
            .error (.inToken start c.mark .escapeCode)
          else .ok (Symbol.encode code, c.advance count)
  | none, none => .error (.inToken start c.mark .unknownEscape)

/-- A run of characters without white space; `isBroken` if an escaped line break ended it. -/
structure Run where
  text : Text
  isBroken : Bool
  cursor : Cursor

def takeRun (single : Bool) (start : Mark) :
    (fuel : Nat) → (text : Text) → Cursor → Except Fault Run
  | 0, text, c => .ok ⟨text, false, c⟩
  | fuel + 1, text, c =>
      if isGap c.head then .ok ⟨text, false, c⟩
      else if single && c.head = 39 then
        if c.look 1 = 39 then do
          takeRun single start fuel (text ++ [39]) (← (c.advance 2).want 2)
        else .ok ⟨text, false, c⟩
      else if !single && c.head = 34 then .ok ⟨text, false, c⟩
      else if !single && c.head = 92 then
        if isBreak (c.look 1) then do
          return ⟨text, true, ← ((← c.want 3).advance 1).skipBreak⟩
        else do
          let (escaped, c) ← takeEscape start c
          takeRun single start fuel (text ++ escaped) (← c.want 2)
      else do
        takeRun single start fuel (text ++ Symbol.encode c.head) (← (c.advance 1).want 2)

def takeFrom (single : Bool) (start : Mark) :
    (fuel : Nat) → (text : Text) → Cursor → Except Fault (Text × Cursor)
  | 0, _, c => .error (.inToken start c.mark .quotedEnd)
  | fuel + 1, text, c => do
      let c ← c.want 4
      if c.atDocumentMark then .error (.inToken start c.mark .quotedIndicator)
      else if c.head = 0 then .error (.inToken start c.mark .quotedEnd)
      else
        let run ← takeRun single start c.rest.length [] c
        let text := text ++ run.text
        let c ← run.cursor.want 1
        if c.head = (if single then 39 else 34) then return (text, c.advance 1)
        else
          let (gap, c) ← Gap.take 0 start (c.rest.length + 1) { isBroken := run.isBroken } c
          takeFrom single start fuel (text ++ gap.text) c

def take (single : Bool) (c : Cursor) : Except Fault (Text × Cursor) :=
  takeFrom single c.mark (c.rest.length + 1) [] (c.advance 1)

end TypedSexp.Yaml.Quoted
