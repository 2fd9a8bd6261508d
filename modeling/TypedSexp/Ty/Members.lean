import TypedSexp.Text.Basic

/-!
Members of record and union types: finite maps from names to types, kept as association lists in
increasing byte order of the names.
-/

namespace TypedSexp.Members

variable {α : Type}

def insert (name : Name) (a : α) : List (Name × α) → List (Name × α)
  | [] => [(name, a)]
  | (other, b) :: rest =>
      if name < other then (name, a) :: (other, b) :: rest
      else if name = other then (name, a) :: rest
      else (other, b) :: insert name a rest

/-- The map that a list of entries describes; of two entries for a name the later one counts. -/
def ofList (entries : List (Name × α)) : List (Name × α) :=
  entries.foldl (fun members entry => insert entry.1 entry.2 members) []

def names (members : List (Name × α)) : List Name := members.map Prod.fst

def listed (names : List Name) (members : List (Name × α)) : List (Name × α) :=
  names.filterMap fun name => (members.lookup name).map (name, ·)

def missingFrom (members others : List (Name × α)) : List Name :=
  (names (ofList members)).filter fun name => (others.lookup name).isNone

end TypedSexp.Members
