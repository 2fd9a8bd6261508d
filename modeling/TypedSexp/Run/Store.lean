import TypedSexp.Diagnostic.Basic
import TypedSexp.Run.Value

namespace TypedSexp

/-- The names that a scope binds, in the order in which they were bound, and a map of their values. -/
structure Scope where
  parent : Option Nat
  names : List Name
  values : List (Name × Value)
deriving Repr, Inhabited

namespace Scope

def empty (parent : Option Nat) : Scope := ⟨parent, [], []⟩

def owns (s : Scope) (name : Name) : Bool := (s.values.lookup name).isSome

def set (s : Scope) (name : Name) (v : Value) : Scope :=
  { s with values := Members.insert name v s.values }

def add (s : Scope) (name : Name) (v : Value) : Scope :=
  { s with names := s.names ++ [name], values := Members.insert name v s.values }

def holding (parent : Option Nat) (bindings : List (Name × Value)) : Scope :=
  bindings.foldl (fun scope binding => scope.add binding.1 binding.2) (empty parent)

def bindings (s : Scope) : List (Name × Value) := Members.listed s.names s.values

end Scope

structure Store where
  scopes : Array Scope := #[]
deriving Repr, Inhabited

namespace Store

def size (s : Store) : Nat := s.scopes.size

def scope? (s : Store) (id : Nat) : Option Scope := s.scopes[id]?

def newScope (s : Store) (parent : Option Nat) (bindings : List (Name × Value)) : Nat × Store :=
  (s.size, ⟨s.scopes.push (.holding parent bindings)⟩)

def parent? (s : Store) (id : Nat) : Option Nat := (s.scope? id).bind Scope.parent

def names (s : Store) (id : Nat) : List Name := ((s.scope? id).map Scope.names).getD []

def values (s : Store) (id : Nat) : List (Name × Value) :=
  ((s.scope? id).map Scope.values).getD []

def bindings (s : Store) (id : Nat) : List (Name × Value) :=
  ((s.scope? id).map Scope.bindings).getD []

def owns (s : Store) (id : Nat) (name : Name) : Bool :=
  ((s.scope? id).map (Scope.owns · name)).getD false

@[semireducible]
def owner? (s : Store) (name : Name) (id : Nat) : Option Nat :=
  if s.owns id name then some id
  else match s.parent? id with
    | none => none
    | some outer => if outer < id then s.owner? name outer else none
termination_by id

def has (s : Store) (id : Nat) (name : Name) : Bool := (s.owner? name id).isSome

def lookup? (s : Store) (id : Nat) (name : Name) : Option Value := do
  (s.values (← s.owner? name id)).lookup name

def get (s : Store) (id : Nat) (name : Name) : Except Diagnostic Value :=
  match s.lookup? id name with
  | some v => .ok v
  | none => .error ⟨Range.none, .unboundVariable name .runtime⟩

def modifyScope (s : Store) (id : Nat) (f : Scope → Scope) : Store := ⟨s.scopes.modify id f⟩

/-- A scope binds a name only once; `range` is where a second attempt is reported. -/
def define (s : Store) (id : Nat) (range : Range) (name : Name) (v : Value) :
    Except Diagnostic Store :=
  if s.owns id name then .error ⟨range, .redefinition name⟩
  else .ok (s.modifyScope id (·.add name v))

def update (s : Store) (id : Nat) (name : Name) (v : Value) : Except Diagnostic Store :=
  match s.owner? name id with
  | some owner => .ok (s.modifyScope owner (·.set name v))
  | none => .error ⟨Range.none, .unboundVariable name .runtime⟩

def root : Store := ⟨#[.empty none]⟩

def programScope : Nat := 1

/-- The primitives are bound in scope 0 and programs run in scope 1 inside it, so that they may
define a primitive's name again. -/
def initial : Store :=
  ⟨#[.holding none (Primitive.all.map fun p => (p.name, .prim p)), .empty (some 0)]⟩

end Store

end TypedSexp
