import TypedSexp.Run.Store

namespace TypedSexp

inductive Halt where
  | fault (d : Diagnostic)
  | outOfFuel
deriving Repr, Inhabited

abbrev Run (α : Type) := ExceptT Halt (StateM Store) α

namespace Run

def fault {α : Type} (range : Range) (cause : Cause) : Run α := throw (.fault ⟨range, cause⟩)

def ofExcept {α : Type} : Except Diagnostic α → Run α
  | .ok a => pure a
  | .error d => throw (.fault d)

def change (f : Store → Except Diagnostic Store) : Run Unit := do
  set (← ofExcept (f (← get)))

def startingFrom {α : Type} (x : Run α) (store : Store) : Except Halt α × Store :=
  (ExceptT.run x).run store

end Run

end TypedSexp
