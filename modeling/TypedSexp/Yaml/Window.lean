import TypedSexp.Yaml.Source

/-!
The part of a document that is open to a reader. It reaches over whole blocks, and it is moved up to
the reader whenever the reader wants to see beyond its end.
-/

namespace TypedSexp.Yaml

def byteOrderMark : Nat := 0xFEFF

structure Window where
  ahead : Nat := 0
  startsMarked : Bool := false
  blocks : List Nat
  problem : Option Problem
deriving Repr

namespace Window

def ofSource (source : Source) : Window := { blocks := source.blocks, problem := source.problem }

/-- Opens blocks until `n` characters are open, and one character more at the end of the document:
how many are open then, and the blocks that are still closed. -/
def openBlocks (n : Nat) (problem : Option Problem) :
    (ahead : Nat) → (blocks : List Nat) → Except Fault (Nat × List Nat)
  | ahead, [] =>
      match problem with
      | some problem => .error (.plain problem)
      | none => .ok (ahead + 1, [])
  | ahead, block :: rest =>
      if n ≤ ahead + block then .ok (ahead + block, rest)
      else openBlocks n problem (ahead + block) rest

def want (n head : Nat) (w : Window) : Except Fault Window :=
  if n ≤ w.ahead then .ok w
  else do
    let (ahead, blocks) ← openBlocks n w.problem w.ahead w.blocks
    return { w with ahead := ahead, blocks := blocks, startsMarked := head = byteOrderMark }

def advance (n : Nat) (w : Window) : Window := { w with ahead := w.ahead - n }

end Window

end TypedSexp.Yaml
