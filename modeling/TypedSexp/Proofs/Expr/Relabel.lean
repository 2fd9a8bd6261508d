import TypedSexp.Proofs.Ensures
import TypedSexp.Proofs.Expr.WellFormed
import TypedSexp.Typing.Check

namespace TypedSexp

theorem Members.map_eq_self {α : Type} {f : α → α} {members : List (Name × α)}
    (h : ∀ entry ∈ members, f entry.2 = entry.2) :
    members.map (fun entry => (entry.1, f entry.2)) = members := by
  induction members with
  | nil => rfl
  | cons entry rest ih =>
      obtain ⟨hentry, hrest⟩ := List.forall_mem_cons.mp h
      rw [List.map_cons, hentry, ih hrest]

def Diagnostic.relocate (f : Range → Range) (d : Diagnostic) : Diagnostic :=
  { d with range := f d.range }

end TypedSexp

namespace Except

open TypedSexp (Diagnostic Range)

variable {α α' β β' : Type} {f : Range → Range}

def relocate (f : Range → Range) (g : α → β) : Except Diagnostic α → Except Diagnostic β
  | .ok a => .ok (g a)
  | .error d => .error (d.relocate f)

theorem relocate_bind {g : α → α'} {h : β → β'} {x : Except Diagnostic α}
    {k : α → Except Diagnostic β} {k' : α' → Except Diagnostic β'}
    (hk : ∀ a, k' (g a) = (k a).relocate f h) :
    x.relocate f g >>= k' = (x >>= k).relocate f h := by
  cases x with
  | ok a => exact hk a
  | error d => rfl

theorem relocate_eq_ok_iff {g : α → β} {x : Except Diagnostic α} {b : β} :
    x.relocate f g = .ok b ↔ ∃ a, x = .ok a ∧ g a = b := by
  cases x with
  | ok a => simp [relocate]
  | error d => simp [relocate]

end Except

namespace TypedSexp

namespace Expr

mutual

def relabel (f : Range → Range) (g : Ty → Ty) : Expr → Expr
  | .var range name => .var (f range) name
  | .num range value => .num (f range) value
  | .bool range value => .bool (f range) value
  | .lambda range param paramType body =>
      .lambda (f range) param (g paramType) (relabel f g body)
  | .apply range head args => .apply (f range) (relabel f g head) (relabelAll f g args)
  | .cond range guard thenBranch elseBranch =>
      .cond (f range) (relabel f g guard) (relabel f g thenBranch) (relabel f g elseBranch)
  | .record range fields => .record (f range) (relabelFields f g fields)
  | .project range target name => .project (f range) (relabel f g target) name
  | .inject range variant payload => .inject (f range) variant (relabel f g payload)

def relabelAll (f : Range → Range) (g : Ty → Ty) : List Expr → List Expr
  | [] => []
  | e :: rest => relabel f g e :: relabelAll f g rest

def relabelFields (f : Range → Range) (g : Ty → Ty) : List (Name × Expr) → List (Name × Expr)
  | [] => []
  | (name, e) :: rest => (name, relabel f g e) :: relabelFields f g rest

end

variable (f : Range → Range) (g : Ty → Ty)

theorem relabelAll_eq_map (args : List Expr) : relabelAll f g args = args.map (relabel f g) := by
  induction args with
  | nil => rfl
  | cons e rest ih => simp [relabelAll, ih]

theorem relabelFields_eq_map (fields : List (Name × Expr)) :
    relabelFields f g fields = fields.map fun field => (field.1, field.2.relabel f g) := by
  induction fields with
  | nil => rfl
  | cons field rest ih => simp [relabelFields, ih]

theorem range_relabel (e : Expr) : (e.relabel f g).range = f e.range := by
  cases e <;> rfl

theorem relabel_id (e : Expr) : e.relabel id id = e := by
  induction e using Expr.induct with
  | var => rfl
  | num => rfl
  | bool => rfl
  | lambda range param paramType body ih => simp [relabel, ih]
  | apply range head args ihhead ihargs =>
      have hargs : args.map (relabel id id) = args := by
        rw [List.map_congr_left ihargs, List.map_id']
      simp [relabel, ihhead, relabelAll_eq_map, hargs]
  | cond range guard thenBranch elseBranch ihguard ihthen ihelse =>
      simp [relabel, ihguard, ihthen, ihelse]
  | record range fields ih =>
      simp [relabel, relabelFields_eq_map, Members.map_eq_self ih]
  | project range target name ih => simp [relabel, ih]
  | inject range variant payload ih => simp [relabel, ih]

theorem relabel_relabel (f f' : Range → Range) (e : Expr) :
    (e.relabel f id).relabel f' id = e.relabel (f' ∘ f) id := by
  induction e using Expr.induct with
  | var => rfl
  | num => rfl
  | bool => rfl
  | lambda range param paramType body ih => simp [relabel, ih]
  | apply range head args ihhead ihargs =>
      have hargs : args.map (relabel f' id ∘ relabel f id) = args.map (relabel (f' ∘ f) id) :=
        List.map_congr_left ihargs
      simp [relabel, relabelAll_eq_map, ihhead, hargs]
  | cond range guard thenBranch elseBranch ihguard ihthen ihelse =>
      simp [relabel, ihguard, ihthen, ihelse]
  | record range fields ih =>
      have hfields := List.map_congr_left fun field hfield =>
        congrArg (Prod.mk field.1) (ih field hfield)
      simp only [relabel, relabelFields_eq_map, List.map_map, ← hfields]
      rfl
  | project range target name ih => simp [relabel, ih]
  | inject range variant payload ih => simp [relabel, ih]

theorem toTextArgs_relabel {args : List Expr}
    (h : ∀ e ∈ args, (e.relabel f id).toText = e.toText) :
    toTextArgs (args.map (relabel f id)) = toTextArgs args := by
  induction args with
  | nil => rfl
  | cons e rest ih =>
      obtain ⟨he, hrest⟩ := List.forall_mem_cons.mp h
      simp only [List.map_cons, toTextArgs, he, ih hrest]

theorem toTextFields_relabel {fields : List (Name × Expr)}
    (h : ∀ field ∈ fields, (field.2.relabel f id).toText = field.2.toText) :
    toTextFields (fields.map fun field => (field.1, field.2.relabel f id)) =
      toTextFields fields := by
  induction fields with
  | nil => rfl
  | cons field rest ih =>
      obtain ⟨hfield, hrest⟩ := List.forall_mem_cons.mp h
      simp only [List.map_cons, toTextFields, hfield, ih hrest]

theorem toText_relabel (e : Expr) : (e.relabel f id).toText = e.toText := by
  induction e using Expr.induct with
  | var => rfl
  | num => rfl
  | bool => rfl
  | lambda range param paramType body ih => simp only [relabel, toText, ih, id_eq]
  | apply range head args ihhead ihargs =>
      simp only [relabel, relabelAll_eq_map, toText, ihhead, toTextArgs_relabel f ihargs]
  | cond range guard thenBranch elseBranch ihguard ihthen ihelse =>
      simp only [relabel, toText, ihguard, ihthen, ihelse]
  | record range fields ih =>
      simp only [relabel, relabelFields_eq_map, toText, toTextFields_relabel f ih]
  | project range target name ih => simp only [relabel, toText, ih]
  | inject range variant payload ih => simp only [relabel, toText, ih]

theorem checkArgs_relabel (whole : Expr) (number : Nat) (inputs : List Ty) (args : List Expr)
    (found : List Ty) :
    checkArgs (whole.relabel f id) number inputs (args.map (relabel f id)) found =
      (checkArgs whole number inputs args found).relocate f id := by
  induction inputs generalizing number args found with
  | nil => rfl
  | cons input inputs ih =>
      cases args with
      | nil => rfl
      | cons arg args =>
          cases found with
          | nil => rfl
          | cons found founds =>
              simp only [List.map_cons, checkArgs, toText_relabel, range_relabel]
              split
              · exact ih (number + 1) args founds
              · rfl

theorem applyType_relabel (whole : Expr) (range : Range) (args : List Expr) (found : List Ty)
    (t : Ty) :
    applyType (whole.relabel f id) (f range) (args.map (relabel f id)) found t =
      (applyType whole range args found t).relocate f id := by
  cases t with
  | arrow inputs output =>
      simp only [applyType, List.length_map, checkArgs_relabel]
      split
      · exact Except.relocate_bind fun _ => rfl
      · rfl
  | _ => rfl

theorem memberType_relabel (range : Range) (name : Name) (t : Ty) :
    memberType (f range) name t = (memberType range name t).relocate f id := by
  cases t with
  | record members =>
      simp only [memberType]
      cases members.lookup name <;> rfl
  | union members =>
      simp only [memberType]
      cases members.lookup name <;> rfl
  | _ => rfl

theorem inferAll_relabel {Γ : Context} {args : List Expr}
    (h : ∀ e ∈ args, infer Γ (e.relabel f id) = (infer Γ e).relocate f id) :
    inferAll Γ (args.map (relabel f id)) = (inferAll Γ args).relocate f id := by
  induction args with
  | nil => rfl
  | cons e rest ih =>
      obtain ⟨he, hrest⟩ := List.forall_mem_cons.mp h
      simp only [List.map_cons, inferAll, he, ih hrest]
      exact Except.relocate_bind fun t => Except.relocate_bind fun types => rfl

theorem inferFields_relabel {Γ : Context} {fields : List (Name × Expr)}
    (h : ∀ field ∈ fields, infer Γ (field.2.relabel f id) = (infer Γ field.2).relocate f id) :
    inferFields Γ (fields.map fun field => (field.1, field.2.relabel f id)) =
      (inferFields Γ fields).relocate f id := by
  induction fields with
  | nil => rfl
  | cons field rest ih =>
      obtain ⟨hfield, hrest⟩ := List.forall_mem_cons.mp h
      simp only [List.map_cons, inferFields, hfield, ih hrest]
      exact Except.relocate_bind fun t => Except.relocate_bind fun types => rfl

theorem infer_relabel (Γ : Context) (e : Expr) :
    infer Γ (e.relabel f id) = (infer Γ e).relocate f id := by
  induction e using Expr.induct generalizing Γ with
  | var range name =>
      simp only [relabel, infer]
      cases Γ.lookup? name <;> rfl
  | num => rfl
  | bool => rfl
  | lambda range param paramType body ih =>
      simp only [relabel, infer, ih, id_eq]
      exact Except.relocate_bind fun output => rfl
  | apply range head args ihhead ihargs =>
      have hargs := inferAll_relabel f fun e he => ihargs e he Γ
      simp only [relabel, infer, ihhead, relabelAll_eq_map, hargs]
      refine Except.relocate_bind fun headType => Except.relocate_bind fun argTypes => ?_
      have happly := applyType_relabel f (.apply range head args) range args argTypes headType
      simpa only [relabel, relabelAll_eq_map, id_eq] using happly
  | cond range guard thenBranch elseBranch ihguard ihthen ihelse =>
      have htext := toText_relabel f (.cond range guard thenBranch elseBranch)
      simp only [relabel] at htext
      simp only [relabel, infer, ihguard, ihthen, ihelse, htext, range_relabel]
      refine Except.relocate_bind fun guardType => ?_
      rw [id_eq]
      split
      · refine Except.relocate_bind fun thenType => Except.relocate_bind fun elseType => ?_
        simp only [id_eq]
        split <;> rfl
      · rfl
  | record range fields ih =>
      have hfields := inferFields_relabel f fun field hfield => ih field hfield Γ
      simp only [relabel, infer, relabelFields_eq_map, hfields]
      exact Except.relocate_bind fun entries => rfl
  | project range target name ih =>
      simp only [relabel, infer, ih]
      exact Except.relocate_bind fun t => memberType_relabel f range name t
  | inject range variant payload ih =>
      simp only [relabel, infer, ih]
      exact Except.relocate_bind fun t => rfl

end Expr

namespace Stmt

def relabel (f : Range → Range) (g : Ty → Ty) : Stmt → Stmt
  | .define range name value => .define (f range) name (value.relabel f g)
  | .assign range target value => .assign (f range) (target.relabel f g) (value.relabel f g)
  | .print range value => .print (f range) (value.relabel f g)

theorem relabel_id (stmt : Stmt) : stmt.relabel id id = stmt := by
  cases stmt <;> simp [relabel, Expr.relabel_id]

theorem relabel_relabel (f f' : Range → Range) (stmt : Stmt) :
    (stmt.relabel f id).relabel f' id = stmt.relabel (f' ∘ f) id := by
  cases stmt <;> simp [relabel, Expr.relabel_relabel]

theorem check_relabel (f : Range → Range) (Γ : Context) (stmt : Stmt) :
    check Γ (stmt.relabel f id) = (check Γ stmt).relocate f id := by
  cases stmt with
  | define range name value =>
      simp only [relabel, check, Expr.infer_relabel]
      exact Except.relocate_bind fun t => rfl
  | assign range target value =>
      simp only [relabel, check, Expr.infer_relabel]
      refine Except.relocate_bind fun found => ?_
      have htext := Expr.toText_relabel f target
      cases target with
      | var targetRange name =>
          simp only [Expr.relabel, id_eq]
          cases Γ.lookup? name with
          | none => rfl
          | some declared =>
              simp only
              split <;> rfl
      | _ => simp only [Expr.relabel, Expr.range] at htext ⊢; rw [htext]; rfl
  | print range value =>
      simp only [relabel, check, Expr.infer_relabel]
      exact Except.relocate_bind fun t => rfl

end Stmt

end TypedSexp
