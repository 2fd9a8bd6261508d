import TypedSexp.Ty.Members

namespace TypedSexp

/-- The type of an expression. An arrow lists its inputs, as only primitives take several. -/
inductive Ty where
  | nat
  | bool
  | arrow (inputs : List Ty) (output : Ty)
  | record (members : List (Name × Ty))
  | union (members : List (Name × Ty))
deriving Repr, Inhabited

namespace Ty

mutual

def toText : Ty → Text
  | .nat => utf8 "Nat"
  | .bool => utf8 "Bool"
  | .arrow inputs output =>
      utf8 "(->" ++ toTextInputs inputs ++ utf8 " " ++ toText output ++ utf8 ")"
  | .record members =>
      utf8 "(rec" ++
        (Members.ofList (memberTexts members)).flatMap
          (fun member => utf8 " " ++ member.1 ++ utf8 " " ++ member.2) ++
        utf8 ")"
  | .union members =>
      utf8 "(union (" ++
        Text.join (utf8 " ") ((Members.ofList (memberTexts members)).map
          fun member => member.1 ++ utf8 " " ++ member.2) ++
        utf8 "))"

def toTextInputs : List Ty → Text
  | [] => []
  | t :: rest => utf8 " " ++ toText t ++ toTextInputs rest

def memberTexts : List (Name × Ty) → List (Name × Text)
  | [] => []
  | (name, t) :: rest => (name, toText t) :: memberTexts rest

end

mutual

def equal : Ty → Ty → Bool
  | .nat, .nat => true
  | .bool, .bool => true
  | .arrow inputs output, .arrow inputs' output' => equalAll inputs inputs' && equal output output'
  | .record members, .record members' =>
      members.length == members'.length && equalMembers members members'
  | .union members, .union members' =>
      members.length == members'.length && equalMembers members members'
  | _, _ => false

def equalAll : List Ty → List Ty → Bool
  | [], [] => true
  | t :: rest, t' :: rest' => equal t t' && equalAll rest rest'
  | _, _ => false

def equalMembers : List (Name × Ty) → List (Name × Ty) → Bool
  | [], _ => true
  | (name, t) :: rest, others =>
      match others.lookup name with
      | some t' => equal t t' && equalMembers rest others
      | none => false

end

def members? : Ty → Option (List (Name × Ty))
  | .record members => some members
  | .union members => some members
  | _ => none

end Ty

end TypedSexp
