import TypedSexp.Expr.Basic
import TypedSexp.Text.Quoted

/-!
A script written out as nested blocks, every part with its name. The two basic types and the empty
list of fields are single objects that all expressions share: one that occurs more than once is
written in full at its first place, with a label, and as its label from then on.
-/

namespace TypedSexp

inductive Shared where
  | nat
  | bool
  | noFields
deriving DecidableEq, Repr

inductive Dump where
  | leaf (text : Text)
  | shared (s : Shared)
  | block (opening : Text) (parts : List (Text × Dump))
deriving Repr, Inhabited

namespace Dump

def openBrace : Text := [123]

def closeBrace : Text := [125]

def sharedText : Shared → Text
  | .nat => utf8 "&NatType" ++ openBrace ++ closeBrace
  | .bool => utf8 "&BoolType" ++ openBrace ++ closeBrace
  | .noFields => utf8 "[]FieldInit" ++ openBrace ++ closeBrace

mutual

def occurrences : Dump → List Shared
  | .leaf _ => []
  | .shared s => [s]
  | .block _ parts => occurrencesIn parts

def occurrencesIn : List (Text × Dump) → List Shared
  | [] => []
  | (_, d) :: rest => occurrences d ++ occurrencesIn rest

end

def labelled (d : Dump) : List Shared :=
  d.occurrences.eraseDups.filter (d.occurrences.count · > 1)

def label? (labels : List Shared) (s : Shared) : Option Text :=
  (labels.idxOf? s).map fun n => utf8 "p" ++ Text.ofNat n

def indent (depth : Nat) : Text := List.replicate (2 * depth) Byte.space

mutual

def render (labels : List Shared) (depth : Nat) (seen : List Shared) :
    Dump → (Text × Text) × List Shared
  | .leaf text => ((text, []), seen)
  | .shared s =>
      match label? labels s with
      | none => ((sharedText s, []), seen)
      | some label =>
          if seen.contains s then ((label, []), seen)
          else ((sharedText s, utf8 " // " ++ label), s :: seen)
  | .block opening [] => ((opening ++ openBrace ++ closeBrace, []), seen)
  | .block opening (part :: parts) =>
      let (body, seen) := renderParts labels (depth + 1) seen (part :: parts)
      ((opening ++ openBrace ++ [Byte.newline] ++ body ++ indent depth ++ closeBrace, []), seen)

def renderParts (labels : List Shared) (depth : Nat) (seen : List Shared) :
    List (Text × Dump) → Text × List Shared
  | [] => ([], seen)
  | (label, d) :: rest =>
      let ((text, remark), seen) := render labels depth seen d
      let (more, seen) := renderParts labels depth seen rest
      (indent depth ++ label ++ text ++ utf8 "," ++ remark ++ [Byte.newline] ++ more, seen)

end

def toText (d : Dump) : Text := (render d.labelled 0 [] d).1.1

def part (name : String) (d : Dump) : Text × Dump := (utf8 name ++ utf8 ": ", d)

def items (opening : String) (ds : List Dump) : Dump :=
  .block (utf8 opening) (ds.map fun d => ([], d))

def quoted (t : Text) : Dump := .leaf t.quoted

def ofRange (r : Range) : Text × Dump :=
  part "Range" (.block (utf8 "Range")
    [part "PosStart" (.leaf (Text.ofInt r.start)), part "PosEnd" (.leaf (Text.ofInt r.stop))])

def ofMembers (members : List (Name × Dump)) : Dump :=
  .block (utf8 "map[string]Type")
    ((members.map fun member => (member.1.quoted, member.2)).mergeSort (fun a b => a.1 ≤ b.1)
      |>.map fun member => (member.1 ++ utf8 ": ", member.2))

mutual

def ofTy : Ty → Dump
  | .nat => .shared .nat
  | .bool => .shared .bool
  | .arrow inputs output =>
      .block (utf8 "&ArrowType")
        [part "Inputs" (items "[]Type" (ofTys inputs)), part "Output" (ofTy output)]
  | .record members => .block (utf8 "&RecordType") [part "Fields" (ofMembers (ofTyMembers members))]
  | .union members => .block (utf8 "&UnionType") [part "Variants" (ofMembers (ofTyMembers members))]

def ofTys : List Ty → List Dump
  | [] => []
  | t :: rest => ofTy t :: ofTys rest

def ofTyMembers : List (Name × Ty) → List (Name × Dump)
  | [] => []
  | (name, t) :: rest => (name, ofTy t) :: ofTyMembers rest

end

mutual

def ofExpr : Expr → Dump
  | .var r name => .block (utf8 "&Var") [ofRange r, part "Name" (quoted name)]
  | .num r value => .block (utf8 "&NumLit") [ofRange r, part "Value" (.leaf (Numeral.write value))]
  | .bool r value => .block (utf8 "&BoolLit") [ofRange r, part "Value" (.leaf (Text.ofBool value))]
  | .lambda r param paramType body =>
      .block (utf8 "&Lambda") [ofRange r, part "Param" (quoted param),
        part "ParamType" (ofTy paramType), part "Body" (ofExpr body)]
  | .apply r head args =>
      .block (utf8 "&Apply") [ofRange r, part "Head" (ofExpr head),
        part "Args" (items "[]Expr" (ofExprs args))]
  | .cond r guard thenBranch elseBranch =>
      .block (utf8 "&If") [ofRange r, part "Cond" (ofExpr guard), part "Then" (ofExpr thenBranch),
        part "Else" (ofExpr elseBranch)]
  | .record r [] => .block (utf8 "&RecordLit") [ofRange r, part "Fields" (.shared .noFields)]
  | .record r fields =>
      .block (utf8 "&RecordLit") [ofRange r, part "Fields" (items "[]FieldInit" (ofFields fields))]
  | .project r target name =>
      .block (utf8 "&Project") [ofRange r, part "Target" (ofExpr target), part "Name" (quoted name)]
  | .inject r variant payload =>
      .block (utf8 "&Inject") [ofRange r, part "Variant" (quoted variant),
        part "Payload" (ofExpr payload)]

def ofExprs : List Expr → List Dump
  | [] => []
  | e :: rest => ofExpr e :: ofExprs rest

def ofFields : List (Name × Expr) → List Dump
  | [] => []
  | (name, e) :: rest =>
      .block (utf8 "FieldInit") [part "Name" (quoted name), part "Value" (ofExpr e)] ::
        ofFields rest

end

def ofStmt : Stmt → Dump
  | .define r name value =>
      .block (utf8 "&Define") [ofRange r, part "Name" (quoted name), part "Value" (ofExpr value)]
  | .assign r target value =>
      .block (utf8 "&Assign")
        [ofRange r, part "Target" (ofExpr target), part "Value" (ofExpr value)]
  | .print r value => .block (utf8 "&Print") [ofRange r, part "Value" (ofExpr value)]

def ofScript (script : Script) : Dump :=
  .block (utf8 "Program") [part "Stmts" (items "[]Stmt" (script.map ofStmt))]

end Dump

end TypedSexp
