namespace TypedSexp

/-- A stack; the first of `items` is the top. -/
structure Stack (α : Type) where
  items : List α := []
deriving Repr

namespace Stack

variable {α : Type}

def empty : Stack α := {}

def size (s : Stack α) : Nat := s.items.length

def push (s : Stack α) (a : α) : Stack α := ⟨a :: s.items⟩

def top? (s : Stack α) : Option α := s.items.head?

def pop? (s : Stack α) : Option (α × Stack α) :=
  match s.items with
  | [] => none
  | a :: rest => some (a, ⟨rest⟩)

@[simp]
theorem top?_push (s : Stack α) (a : α) : (s.push a).top? = some a := rfl

@[simp]
theorem pop?_push (s : Stack α) (a : α) : (s.push a).pop? = some (a, s) := rfl

@[simp]
theorem size_push (s : Stack α) (a : α) : (s.push a).size = s.size + 1 := rfl

theorem top?_eq_map_pop? (s : Stack α) : s.top? = s.pop?.map Prod.fst := by
  rcases s with ⟨_ | ⟨a, rest⟩⟩ <;> rfl

end Stack

end TypedSexp
