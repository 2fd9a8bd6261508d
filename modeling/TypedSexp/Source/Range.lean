import TypedSexp.Text.Basic

/-!
Places in source text. A position is a byte offset counted from one, so that zero is free to mean
that something was not read from source at all.
-/

namespace TypedSexp

/-- The bytes from position `start` up to, and without, position `stop`. -/
structure Range where
  start : Int
  stop : Int
deriving DecidableEq, Repr

namespace Range

def none : Range := ⟨0, 0⟩

instance : Inhabited Range := ⟨none⟩

/-- The range of the bytes at offsets `start` to `stop`, counted from zero. -/
def ofOffsets (start stop : Int) : Range := ⟨start + 1, stop + 1⟩

/-- The range of offsets that are words of 64 bits; the last word is followed by the first. -/
def ofWords (start stop : Int64) : Range := ⟨(start + 1).toInt, (stop + 1).toInt⟩

def isValid (r : Range) : Bool := r.start != 0

def between (first second : Range) : Range := ⟨first.start, second.stop⟩

def shift (offset : Int) (r : Range) : Range := ⟨r.start + offset, r.stop + offset⟩

def toText (r : Range) : Text :=
  if r.start = r.stop then Text.ofInt r.start
  else Text.ofInt r.start ++ utf8 "-" ++ Text.ofInt r.stop

end Range

/-- A place as an editor shows it; lines and columns count from one. -/
structure LineCol where
  line : Nat
  column : Nat
deriving DecidableEq, Repr

namespace LineCol

def advance (here : LineCol) : Text → LineCol
  | [] => here
  | c :: rest =>
      if c = Byte.newline then advance ⟨here.line + 1, 1⟩ rest
      else advance ⟨here.line, here.column + 1⟩ rest

def ofPosition? (source : Text) (position : Int) : Option LineCol :=
  if 1 ≤ position ∧ position ≤ source.length + 1 then
    some (advance ⟨1, 1⟩ (source.take (position - 1).toNat))
  else none

end LineCol

end TypedSexp
