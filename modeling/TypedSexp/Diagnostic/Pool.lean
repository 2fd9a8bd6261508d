import TypedSexp.Diagnostic.Basic

/-!
Accumulators of diagnostics for runs that are independent of each other, such as the files of one
check. An accumulator is shared: whoever holds a handle to it sees what anyone adds. Adding without
a handle starts a new accumulator.
-/

namespace TypedSexp.Diagnostic

structure Pool where
  accumulators : Array (List Diagnostic) := #[]
deriving Repr

namespace Pool

abbrev Handle := Option Nat

def contents (pool : Pool) : Handle → List Diagnostic
  | none => []
  | some i => pool.accumulators[i]?.getD []

def start (pool : Pool) (ds : List Diagnostic) : Handle × Pool :=
  (some pool.accumulators.size, ⟨pool.accumulators.push ds⟩)

def add (pool : Pool) (ds : List Diagnostic) : Handle → Handle × Pool
  | none => pool.start ds
  | some i => (some i, ⟨pool.accumulators.modify i (· ++ ds)⟩)

def addFailure (pool : Pool) (failure : Option Diagnostic) (h : Handle) : Handle × Pool :=
  match failure with
  | none => (h, pool)
  | some d => pool.add [d] h

def merge (pool : Pool) (first second : Handle) : Handle × Pool :=
  match first with
  | none => (second, pool)
  | some _ =>
      if (pool.contents second).isEmpty then (first, pool)
      else pool.add (pool.contents second) first

def joined? (ds : List Diagnostic) : Option Text :=
  if ds.isEmpty then none else some (Text.join [Byte.newline] (ds.map Diagnostic.message))

end Pool

end TypedSexp.Diagnostic
