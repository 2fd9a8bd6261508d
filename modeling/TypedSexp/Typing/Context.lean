import TypedSexp.Primitive

namespace TypedSexp

/-- The types of the names in scope, the latest binding first; it hides earlier ones of its name. -/
structure Context where
  bindings : List (Name × Ty) := []
deriving Repr, Inhabited

namespace Context

def empty : Context := {}

def extend (Γ : Context) (name : Name) (t : Ty) : Context := ⟨(name, t) :: Γ.bindings⟩

def lookup? (Γ : Context) (name : Name) : Option Ty := Γ.bindings.lookup name

def names (Γ : Context) : List Name := Text.sortNames (Γ.bindings.map Prod.fst)

def size (Γ : Context) : Nat := Γ.names.length

def initial : Context := ⟨Primitive.all.map fun p => (p.name, p.signature)⟩

@[simp]
theorem lookup?_empty (name : Name) : empty.lookup? name = none := rfl

theorem lookup?_extend (Γ : Context) (name other : Name) (t : Ty) :
    (Γ.extend name t).lookup? other = if other = name then some t else Γ.lookup? other := by
  by_cases h : other = name
  · simp [extend, lookup?, h]
  · simp [extend, lookup?, List.lookup_cons, h, beq_false_of_ne h]

end Context

end TypedSexp
