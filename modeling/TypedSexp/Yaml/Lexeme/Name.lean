import TypedSexp.Yaml.Cursor
import TypedSexp.Yaml.Token

namespace TypedSexp.Yaml.Name

open Character

def takeAnchor (c : Cursor) : Except Fault (Text × Cursor) := do
  let start := c.mark
  let (name, c) ← (c.advance 1).takeWhile isWord
  if name.isEmpty || !(isGap c.head || isOneOf "?:,]\x7d%@\x60" c.head) then
    .error (.inToken start c.mark .anchorName)
  else return (name, c)

def escapedOctet? (c : Cursor) : Option UInt8 := do
  if c.head ≠ 37 then none
  let high ← hexValue? (c.look 1)
  let low ← hexValue? (c.look 2)
  return (high * 16 + low).toUInt8

def takeTrail (start : Mark) : (count : Nat) → Cursor → Except Fault (Text × Cursor)
  | 0, c => .ok ([], c)
  | count + 1, c => do
      let c ← c.want 3
      match escapedOctet? c with
      | none => .error (.inToken start c.mark .escapedOctet)
      | some octet =>
          if (Text.continuation? octet).isSome then
            let (more, c) ← takeTrail start count (c.advance 3)
            return (octet :: more, c)
          else .error (.inToken start c.mark .escapedTrailing)

def takeEscaped (start : Mark) (c : Cursor) : Except Fault (Text × Cursor) := do
  let c ← c.want 3
  match escapedOctet? c with
  | none => .error (.inToken start c.mark .escapedOctet)
  | some octet =>
      match Source.sequenceLength? octet with
      | none => .error (.inToken start c.mark .escapedLeading)
      | some length =>
          let (trail, c) ← takeTrail start (length - 1) (c.advance 3)
          return (octet :: trail, c)

def isTagCharacter (c : Nat) : Bool := isWord c || isOneOf ";/?:@&=+$,.!~*'()[]%" c

def takeTagFrom (start : Mark) :
    (fuel : Nat) → (text : Text) → Cursor → Except Fault (Text × Cursor)
  | 0, text, c => .ok (text, c)
  | fuel + 1, text, c => do
      let c ← c.want 1
      if c.head = 37 then
        let (escaped, c) ← takeEscaped start c
        takeTagFrom start fuel (text ++ escaped) c
      else if isTagCharacter c.head then
        takeTagFrom start fuel (text ++ Symbol.encode c.head) (c.advance 1)
      else return (text, c)

def takeTag (start : Mark) (before : Text) (c : Cursor) : Except Fault (Text × Cursor) := do
  let c ← c.want 1
  if before.isEmpty && !isTagCharacter c.head then .error (.inToken start c.mark .tagUri)
  else takeTagFrom start (c.rest.length + 1) (before.drop 1) c

def takeHandle (start : Mark) (c : Cursor) : Except Fault (Text × Cursor) := do
  let c ← c.want 1
  if c.head ≠ 33 then .error (.inToken start c.mark .tagMark)
  else
    let (word, c) ← (c.advance 1).takeWhile isWord
    if c.head = 33 then return (33 :: word ++ [33], c.advance 1) else return (33 :: word, c)

def isHandle (handle : Text) : Bool := 1 < handle.length && handle.getLast? = some 33

def takeTagToken (c : Cursor) : Except Fault (Token.Kind × Cursor) := do
  let start := c.mark
  let c ← c.want 2
  let (tag, c) ←
    if c.look 1 = 60 then do
      let (suffix, c) ← takeTag start [] (c.advance 2)
      if c.head ≠ 62 then .error (.inToken start c.mark .tagClosing)
      pure (Token.Kind.tag [] suffix, c.advance 1)
    else do
      let (handle, c) ← takeHandle start c
      if isHandle handle then
        let (suffix, c) ← takeTag start [] c
        pure (Token.Kind.tag handle suffix, c)
      else
        let (suffix, c) ← takeTag start handle c
        if suffix.isEmpty then pure (Token.Kind.tag [] [33], c)
        else pure (Token.Kind.tag [33] suffix, c)
  let c ← c.want 1
  if isGap c.head then return (tag, c) else .error (.inToken start c.mark .tagEnd)

def takeVersionNumber (start : Mark) (c : Cursor) : Except Fault (Nat × Cursor) := do
  let c ← c.want 1
  let digits := c.rest.takeWhile isDigit
  if 2 < digits.length then .error (.inToken start c.mark .versionLong)
  else if digits.isEmpty then .error (.inToken start c.mark .versionNumber)
  else
    return (digits.foldl (fun acc d => acc * 10 + (d - 48)) 0, ← c.walk 1 digits.length)

def takeVersion (start : Mark) (c : Cursor) : Except Fault (Token.Kind × Cursor) := do
  let (major, c) ← takeVersionNumber start (← c.skipBlanks)
  if c.head ≠ 46 then .error (.inToken start c.mark .versionDot)
  let (minor, c) ← takeVersionNumber start (c.advance 1)
  return (.version major minor, c)

def takeHandleMeaning (start : Mark) (c : Cursor) : Except Fault (Token.Kind × Cursor) := do
  let (handle, c) ← takeHandle start (← c.skipBlanks)
  if handle.getLast? ≠ some 33 then .error (.inToken start c.mark .tagMark)
  let c ← c.want 1
  if !isBlank c.head then .error (.inToken start c.mark .tagBlank)
  let (meaning, c) ← takeTag start [] (← c.skipBlanks)
  if !isGap c.head then .error (.inToken start c.mark .tagEnd)
  return (.handle handle meaning, c)

def takeDirective (c : Cursor) : Except Fault (Token.Kind × Cursor) := do
  let start := c.mark
  let (name, c) ← (c.advance 1).takeWhile isWord
  if name.isEmpty then .error (.inToken start c.mark .directiveName)
  if !isGap c.head then .error (.inToken start c.mark .directiveLetter)
  let (directive, c) ←
    if name = utf8 "YAML" then takeVersion start c
    else if name = utf8 "TAG" then takeHandleMeaning start c
    else .error (.inToken start c.mark .unknownDirective)
  let c ← c.skipBlanks
  let c ← if c.head = 35 then c.skipLine else pure c
  if isLineEnd c.head then return (directive, ← c.skipBreak)
  else .error (.inToken start c.mark .directiveEnd)

end TypedSexp.Yaml.Name
