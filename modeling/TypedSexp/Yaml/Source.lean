import TypedSexp.Yaml.Fault

/-!
The characters of a document. Its bytes are UTF-8, or UTF-16 if they start with the mark of that
encoding; controls other than tabs and line breaks are not allowed. A document is decoded block by
block, and what is wrong with a block shows only when the block is decoded.
-/

namespace TypedSexp.Yaml

/-- A document: its characters up to the first flaw, and the blocks in which they are decoded. -/
structure Source where
  characters : List Nat
  blocks : List Nat
  problem : Option Problem
deriving Repr

namespace Source

def isAllowed (c : Nat) : Bool :=
  c = 9 || c = 10 || c = 13 || (0x20 ≤ c && c ≤ 0x7E) || c = 0x85 || (0xA0 ≤ c && c ≤ 0xD7FF) ||
    (0xE000 ≤ c && c ≤ 0xFFFD) || (0x10000 ≤ c && c ≤ 0x10FFFF)

def allowed (c : Nat) : Except Problem Nat :=
  if isAllowed c then .ok c else .error .controlCharacter

def sequenceLength? (b : UInt8) : Option Nat :=
  if b < 0x80 then some 1
  else if 0xC0 ≤ b && b < 0xE0 then some 2
  else if 0xE0 ≤ b && b < 0xF0 then some 3
  else if 0xF0 ≤ b && b < 0xF8 then some 4
  else none

def leadingBits (length : Nat) (b : UInt8) : Nat :=
  match length with
  | 1 => b.toNat
  | 2 => b.toNat % 0x20
  | 3 => b.toNat % 0x10
  | _ => b.toNat % 0x08

def leastFor : (length : Nat) → Nat
  | 1 => 0
  | 2 => 0x80
  | 3 => 0x800
  | _ => 0x10000

def character (length bits : Nat) (trail : Text) : Except Problem Nat := do
  if trail.length + 1 < length then .error .cutSequence
  let code ← trail.foldlM (fun acc b =>
    match Text.continuation? b with
    | some bits => .ok (acc * 0x40 + bits)
    | none => .error .trailingByte) bits
  if code < leastFor length then .error .longSequence
  if (0xD800 ≤ code && code ≤ 0xDFFF) || 0x10FFFF < code then .error .noCharacter
  allowed code

structure Flaw where
  problem : Problem
  /-- How many bytes show it; none if it takes the end of the document. -/
  width : Option Nat
deriving DecidableEq, Repr

structure Decoded where
  characters : List (Nat × Nat) := []
  flaw : Option Flaw := none
deriving Repr

namespace Decoded

def cons (c width : Nat) (d : Decoded) : Decoded :=
  { d with characters := (c, width) :: d.characters }

def fail (problem : Problem) (width : Option Nat) : Decoded := { flaw := some ⟨problem, width⟩ }

end Decoded

def ofUtf8 (skip : Nat) : Text → Decoded
  | [] => {}
  | b :: rest =>
      match skip with
      | skip + 1 => ofUtf8 skip rest
      | 0 =>
          match sequenceLength? b with
          | none => .fail .leadingByte (some 1)
          | some length =>
              match character length (leadingBits length b) (rest.take (length - 1)) with
              | .ok c => (ofUtf8 (length - 1) rest).cons c length
              | .error .cutSequence => .fail .cutSequence none
              | .error problem => .fail problem (some length)

def units (lowFirst : Bool) : Text → List Nat × Bool
  | [] => ([], false)
  | [_] => ([], true)
  | a :: b :: rest =>
      let unit := if lowFirst then a.toNat + 0x100 * b.toNat else b.toNat + 0x100 * a.toNat
      let (more, odd) := units lowFirst rest
      (unit :: more, odd)

def isHighSurrogate (unit : Nat) : Bool := 0xD800 ≤ unit && unit < 0xDC00

def isLowSurrogate (unit : Nat) : Bool := 0xDC00 ≤ unit && unit < 0xE000

def ofUnits (odd : Bool) : List Nat → Decoded
  | [] => if odd then .fail .cutUnit none else {}
  | unit :: rest =>
      if isLowSurrogate unit then .fail .lowSurrogate (some 2)
      else if isHighSurrogate unit then
        match rest with
        | [] => .fail .cutPair none
        | low :: rest =>
            if isLowSurrogate low then
              (ofUnits odd rest).cons (0x10000 + unit % 0x400 * 0x400 + low % 0x400) 4
            else .fail .noLowSurrogate (some 4)
      else if isAllowed unit then (ofUnits odd rest).cons unit 2
      else .fail .controlCharacter (some 2)

def ofUtf16 (lowFirst : Bool) (t : Text) : Decoded :=
  let (us, odd) := units lowFirst t
  ofUnits odd us

def blockSize : Nat := 512

/-- How many characters each block has, where the first one has `count` characters already and room
for `room` bytes. A block with a flaw is not counted. -/
def blocksFrom (flaw : Option Flaw) : (count room : Nat) → (widths : List Nat) → List Nat
  | count, room, [] =>
      let holdsFlaw := (flaw.bind Flaw.width).any (· ≤ room)
      if holdsFlaw || count = 0 then [] else [count]
  | count, room, width :: rest =>
      if width ≤ room then blocksFrom flaw (count + 1) (room - width) rest
      else count :: blocksFrom flaw 1 (blockSize - width) rest

def ofDecoded (mark : Nat) (d : Decoded) : Source where
  characters := d.characters.map Prod.fst
  blocks := blocksFrom d.flaw 0 (blockSize - mark) (d.characters.map Prod.snd)
  problem := d.flaw.map Flaw.problem

def ofText : (document : Text) → Source
  | 0xFF :: 0xFE :: rest => ofDecoded 2 (ofUtf16 true rest)
  | 0xFE :: 0xFF :: rest => ofDecoded 2 (ofUtf16 false rest)
  | 0xEF :: 0xBB :: 0xBF :: rest => ofDecoded 3 (ofUtf8 0 rest)
  | document => ofDecoded 0 (ofUtf8 0 document)

end Source

end TypedSexp.Yaml
