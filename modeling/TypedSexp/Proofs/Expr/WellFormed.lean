import TypedSexp.Expr.Surface
import TypedSexp.Proofs.Ty.Reading

namespace TypedSexp

open Sexp (IsWord OfWords)

namespace Expr

@[elab_as_elim]
theorem induct {motive : Expr → Prop}
    (var : ∀ range name, motive (.var range name))
    (num : ∀ range value, motive (.num range value))
    (bool : ∀ range value, motive (.bool range value))
    (lambda : ∀ range param paramType body, motive body →
      motive (.lambda range param paramType body))
    (apply : ∀ range head args, motive head → (∀ arg ∈ args, motive arg) →
      motive (.apply range head args))
    (cond : ∀ range guard thenBranch elseBranch, motive guard → motive thenBranch →
      motive elseBranch → motive (.cond range guard thenBranch elseBranch))
    (record : ∀ range fields, (∀ field ∈ fields, motive field.2) → motive (.record range fields))
    (project : ∀ range target name, motive target → motive (.project range target name))
    (inject : ∀ range variant payload, motive payload → motive (.inject range variant payload))
    (e : Expr) : motive e :=
  @Expr.rec motive (fun args => ∀ arg ∈ args, motive arg)
    (fun fields => ∀ field ∈ fields, motive field.2) (fun field => motive field.2)
    var num bool lambda apply cond record project inject (by simp)
    (fun _ _ hhead htail => List.forall_mem_cons.mpr ⟨hhead, htail⟩) (by simp)
    (fun _ _ hhead htail => List.forall_mem_cons.mpr ⟨hhead, htail⟩) (fun _ _ h => h) e

/-- An expression with a source form whose types all satisfy `T`: every name is a word, a variable
is not spelled like a literal, the fields of a record have distinct names, and no variable at the
head of an application is spelled like a special form. -/
inductive WellFormedWith (T : Ty → Prop) : Expr → Prop
  | var {range : Range} {name : Name} :
      IsWord name → name ≠ utf8 "true" → name ≠ utf8 "false" →
      Numeral.isNumeral name = false → WellFormedWith T (.var range name)
  | num {range : Range} {value : UInt64} : WellFormedWith T (.num range value)
  | bool {range : Range} {value : Bool} : WellFormedWith T (.bool range value)
  | lambda {range : Range} {param : Name} {paramType : Ty} {body : Expr} :
      IsWord param → T paramType → WellFormedWith T body →
      WellFormedWith T (.lambda range param paramType body)
  | apply {range : Range} {head : Expr} {args : List Expr} :
      (∀ r name, head = .var r name → Special.ofText? name = none) → WellFormedWith T head →
      (∀ arg ∈ args, WellFormedWith T arg) → WellFormedWith T (.apply range head args)
  | cond {range : Range} {guard thenBranch elseBranch : Expr} :
      WellFormedWith T guard → WellFormedWith T thenBranch → WellFormedWith T elseBranch →
      WellFormedWith T (.cond range guard thenBranch elseBranch)
  | record {range : Range} {fields : List (Name × Expr)} :
      (Members.names fields).Nodup → (∀ field ∈ fields, IsWord field.1) →
      (∀ field ∈ fields, WellFormedWith T field.2) → WellFormedWith T (.record range fields)
  | project {range : Range} {target : Expr} {name : Name} :
      WellFormedWith T target → IsWord name → WellFormedWith T (.project range target name)
  | inject {range : Range} {variant : Name} {payload : Expr} :
      IsWord variant → WellFormedWith T payload →
      WellFormedWith T (.inject range variant payload)

abbrev WellFormed : Expr → Prop := WellFormedWith Ty.WellFormed

abbrev Readable : Expr → Prop := WellFormedWith Ty.Readable

theorem WellFormedWith.mono {T U : Ty → Prop} (hTU : ∀ t, T t → U t) {e : Expr}
    (h : e.WellFormedWith T) : e.WellFormedWith U := by
  induction h with
  | var hword htrue hfalse hnumeral => exact .var hword htrue hfalse hnumeral
  | num => exact .num
  | bool => exact .bool
  | lambda hword htype _ ih => exact .lambda hword (hTU _ htype) ih
  | apply hspecial _ _ ihhead ihargs => exact .apply hspecial ihhead ihargs
  | cond _ _ _ ihguard ihthen ihelse => exact .cond ihguard ihthen ihelse
  | record hnodup hword _ ih => exact .record hnodup hword ih
  | project _ hword ih => exact .project ih hword
  | inject hword _ ih => exact .inject hword ih

theorem Readable.wellFormed {e : Expr} (h : e.Readable) : e.WellFormed :=
  h.mono fun _ ht => ht.wellFormed

inductive Regular : Expr → Prop
  | var {range : Range} {name : Name} : Regular (.var range name)
  | num {range : Range} {value : UInt64} : Regular (.num range value)
  | bool {range : Range} {value : Bool} : Regular (.bool range value)
  | lambda {range : Range} {param : Name} {paramType : Ty} {body : Expr} :
      paramType.Ordered → Regular body → Regular (.lambda range param paramType body)
  | apply {range : Range} {head : Expr} {args : List Expr} :
      Regular head → (∀ arg ∈ args, Regular arg) → Regular (.apply range head args)
  | cond {range : Range} {guard thenBranch elseBranch : Expr} :
      Regular guard → Regular thenBranch → Regular elseBranch →
      Regular (.cond range guard thenBranch elseBranch)
  | record {range : Range} {fields : List (Name × Expr)} :
      (Members.names fields).Nodup → (∀ field ∈ fields, Regular field.2) →
      Regular (.record range fields)
  | project {range : Range} {target : Expr} {name : Name} :
      Regular target → Regular (.project range target name)
  | inject {range : Range} {variant : Name} {payload : Expr} :
      Regular payload → Regular (.inject range variant payload)

theorem WellFormedWith.regular {e : Expr} (h : e.WellFormedWith Ty.Readable) : e.Regular := by
  induction h with
  | var => exact .var
  | num => exact .num
  | bool => exact .bool
  | lambda _ htype _ ih => exact .lambda htype.ordered ih
  | apply _ _ _ ihhead ihargs => exact .apply ihhead ihargs
  | cond _ _ _ ihguard ihthen ihelse => exact .cond ihguard ihthen ihelse
  | record hnodup _ _ ih => exact .record hnodup ih
  | project _ _ ih => exact .project ih
  | inject _ _ ih => exact .inject ih

theorem fieldName_ensures (range : Range) (seen : List Name) {s : Sexp} (h : s.OfWords) :
    (fieldName range seen s).Ensures (fun name => name ∉ seen ∧ IsWord name)
      (Diagnostic.IsAt .parse) := by
  cases h with
  | atom hword =>
      simp only [fieldName]
      split
      · rfl
      · simp_all
  | list => rfl

structure ReadFrom (s : Sexp) (e : Expr) : Prop where
  readable : e.Readable
  var : ∀ range name, e = .var range name → ∃ r, s = .atom r name

theorem ofAtom_ensures (range : Range) {text : Text} (h : IsWord text) :
    (ofAtom range text).Ensures (ReadFrom (.atom range text)) (Diagnostic.IsAt .parse) := by
  unfold ofAtom
  split
  · exact ⟨.bool, by simp⟩
  case isFalse htrue =>
    split
    · exact ⟨.bool, by simp⟩
    case isFalse hfalse =>
      split
      · split
        · exact ⟨.num, by simp⟩
        · rfl
      case isFalse hnumeral =>
        refine ⟨.var h htrue hfalse (by simpa using hnumeral), ?_⟩
        rintro r name ⟨⟩
        exact ⟨range, rfl⟩

def Reads (s : Sexp) : Prop := (ofSexp s).Ensures (ReadFrom s) (Diagnostic.IsAt .parse)

theorem ofSexps_ensures {ss : List Sexp} (h : ∀ s ∈ ss, Reads s) :
    (ofSexps ss).Ensures (fun args => ∀ arg ∈ args, arg.Readable) (Diagnostic.IsAt .parse) := by
  induction ss with
  | nil => simp [ofSexps]
  | cons s rest ih =>
      obtain ⟨hs, hrest⟩ := List.forall_mem_cons.mp h
      simp only [ofSexps, Except.ensures_bind, Except.ensures_pure]
      exact hs.imp fun e he => (ih hrest).imp fun args hargs =>
        List.forall_mem_cons.mpr ⟨he.readable, hargs⟩

theorem fieldsOf_ensures (range : Range) (seen : List Name) (ss : List Sexp)
    (hwords : ∀ s ∈ ss, s.OfWords) (h : ∀ s ∈ ss, Reads s) :
    (fieldsOf range seen ss).Ensures (Members.Listed Readable seen) (Diagnostic.IsAt .parse) := by
  match ss with
  | [] => exact .nil _ seen
  | [_] => exact .nil _ seen
  | name :: value :: rest =>
      simp only [fieldsOf, Except.ensures_bind, Except.ensures_pure]
      refine (fieldName_ensures range seen (hwords name (by simp))).imp fun name hname => ?_
      refine (h value (by simp)).imp fun e he => ?_
      refine (fieldsOf_ensures range (name :: seen) rest (by grind) (by grind)).imp ?_
      intro fields hfields
      exact .cons hname he.readable hfields

theorem reads_special {range : Range} {head : Sexp} {args : List Sexp} {form : Special}
    (hspecial : Special.ofHead? head = some form) (hwords : ∀ s ∈ args, s.OfWords)
    (h : ∀ s ∈ args, Reads s) : Reads (.list range (head :: args)) := by
  rw [Reads, ofSexp.eq_def]
  cases form with
  | lambda =>
      simp only [hspecial]
      split
      case h_1 r param ty body =>
        have hparam := Sexp.ofWords_atom_iff.mp (hwords _ List.mem_cons_self)
        simp only [Except.ensures_bind, Except.ensures_pure]
        refine (Ty.ofSexp_ensures (hwords ty (by simp))).imp fun t ht => ?_
        refine (h body (by simp)).imp fun e he => ?_
        exact ⟨.lambda hparam ht he.readable, by simp⟩
      · rfl
      · rfl
  | cond =>
      simp only [hspecial]
      split
      case h_1 guard thenBranch elseBranch =>
        simp only [Except.ensures_bind, Except.ensures_pure]
        refine (h guard (by simp)).imp fun g hg => ?_
        refine (h thenBranch (by simp)).imp fun t ht => ?_
        refine (h elseBranch (by simp)).imp fun e he => ?_
        exact ⟨.cond hg.readable ht.readable he.readable, by simp⟩
      · rfl
  | record =>
      simp only [hspecial]
      split
      · rfl
      · simp only [Except.ensures_bind, Except.ensures_pure]
        refine (fieldsOf_ensures range [] args hwords h).imp fun fields hfields => ?_
        exact ⟨.record hfields.nodup hfields.word hfields.holds, by simp⟩
  | project =>
      simp only [hspecial]
      split
      case h_1 target r name =>
        have hname := Sexp.ofWords_atom_iff.mp (hwords (.atom r name) (by simp))
        simp only [Except.ensures_bind, Except.ensures_pure]
        refine (h target (by simp)).imp fun e he => ?_
        exact ⟨.project he.readable hname, by simp⟩
      · rfl
      · rfl
  | inject =>
      simp only [hspecial]
      split
      case h_1 r variant payload =>
        have hvariant := Sexp.ofWords_atom_iff.mp (hwords _ List.mem_cons_self)
        simp only [Except.ensures_bind, Except.ensures_pure]
        refine (h payload (by simp)).imp fun e he => ?_
        exact ⟨.inject hvariant he.readable, by simp⟩
      · rfl
      · rfl

theorem reads_apply {range : Range} {head : Sexp} {args : List Sexp}
    (hspecial : Special.ofHead? head = none) (hhead : Reads head) (h : ∀ s ∈ args, Reads s) :
    Reads (.list range (head :: args)) := by
  rw [Reads, ofSexp.eq_def]
  simp only [hspecial, Except.ensures_bind, Except.ensures_pure]
  refine hhead.imp fun e he => (ofSexps_ensures h).imp fun es hes => ?_
  refine ⟨.apply ?_ he.readable hes, by simp⟩
  intro r name hvar
  obtain ⟨r', rfl⟩ := he.var r name hvar
  exact hspecial

theorem reads_of_ofWords {s : Sexp} (h : s.OfWords) : Reads s := by
  induction h with
  | @atom range text hword =>
      rw [Reads, ofSexp]
      exact ofAtom_ensures range hword
  | @list range elems hwords ih =>
      cases elems with
      | nil => rfl
      | cons head args =>
          obtain ⟨hhead, hargs⟩ := List.forall_mem_cons.mp ih
          cases hspecial : Special.ofHead? head with
          | none => exact reads_apply hspecial hhead hargs
          | some form =>
              exact reads_special hspecial (List.forall_mem_cons.mp hwords).2 hargs

theorem ofSexp_ensures {s : Sexp} (h : s.OfWords) :
    (ofSexp s).Ensures Readable (Diagnostic.IsAt .parse) :=
  (reads_of_ofWords h).imp fun _ he => he.readable

theorem read_ensures (source : Text) :
    (read source).Ensures Readable (Diagnostic.IsAt .parse) := by
  simp only [read, Except.ensures_bind]
  refine (Sexp.readAll_ofWords source).imp fun ss hss => ?_
  rcases ss with _ | ⟨s, _ | ⟨second, rest⟩⟩
  · rfl
  · exact ofSexp_ensures (hss s (by simp))
  · rfl

end Expr

namespace Stmt

inductive WellFormedWith (T : Ty → Prop) : Stmt → Prop
  | define {range : Range} {name : Name} {value : Expr} :
      IsWord name → value.WellFormedWith T → WellFormedWith T (.define range name value)
  | assign {range : Range} {target value : Expr} :
      target.WellFormedWith T → value.WellFormedWith T →
      WellFormedWith T (.assign range target value)
  | print {range : Range} {value : Expr} :
      value.WellFormedWith T → WellFormedWith T (.print range value)

abbrev WellFormed : Stmt → Prop := WellFormedWith Ty.WellFormed

abbrev Readable : Stmt → Prop := WellFormedWith Ty.Readable

theorem Readable.wellFormed {stmt : Stmt} (h : stmt.Readable) : stmt.WellFormed := by
  cases h with
  | define hword hvalue => exact .define hword (Expr.Readable.wellFormed hvalue)
  | assign htarget hvalue =>
      exact .assign (Expr.Readable.wellFormed htarget) (Expr.Readable.wellFormed hvalue)
  | print hvalue => exact .print (Expr.Readable.wellFormed hvalue)

theorem ofSexp_ensures {s : Sexp} (h : s.OfWords) :
    (ofSexp s).Ensures Readable (Diagnostic.IsAt .parse) := by
  match s with
  | .atom _ _ => rfl
  | .list _ [] => rfl
  | .list _ (.list _ _ :: _) => rfl
  | .list range (.atom _ head :: args) =>
      have hargs := (List.forall_mem_cons.mp (Sexp.ofWords_list_iff.mp h)).2
      rw [ofSexp.eq_def]
      simp only
      split
      · split
        case h_1 r name value =>
          have hname := Sexp.ofWords_atom_iff.mp (hargs _ List.mem_cons_self)
          simp only [Except.ensures_bind, Except.ensures_pure]
          exact (Expr.ofSexp_ensures (hargs value (by simp))).imp fun e he => .define hname he
        · rfl
        · rfl
      · split
        case h_1 target value =>
          simp only [Except.ensures_bind, Except.ensures_pure]
          refine (Expr.ofSexp_ensures (hargs target (by simp))).imp fun t ht => ?_
          exact (Expr.ofSexp_ensures (hargs value (by simp))).imp fun e he => .assign ht he
        · rfl
      · split
        case h_1 value =>
          simp only [Except.ensures_bind, Except.ensures_pure]
          exact (Expr.ofSexp_ensures (hargs value (by simp))).imp fun e he => .print he
        · rfl
      · rfl

end Stmt

namespace Script

theorem ofSexps_ensures {ss : List Sexp} (h : ∀ s ∈ ss, s.OfWords) :
    (ofSexps ss).Ensures (fun script => ∀ stmt ∈ script, stmt.Readable)
      (Diagnostic.IsAt .parse) := by
  induction ss with
  | nil => simp [ofSexps]
  | cons s rest ih =>
      obtain ⟨hs, hrest⟩ := List.forall_mem_cons.mp h
      simp only [ofSexps, Except.ensures_bind, Except.ensures_pure]
      exact (Stmt.ofSexp_ensures hs).imp fun stmt hstmt => (ih hrest).imp fun script hscript =>
        List.forall_mem_cons.mpr ⟨hstmt, hscript⟩

theorem read_ensures (source : Text) :
    (read source).Ensures (fun script => ∀ stmt ∈ script, stmt.Readable)
      (Diagnostic.IsAt .parse) := by
  simp only [read, Except.ensures_bind]
  exact (Sexp.readAll_ofWords source).imp fun ss hss => ofSexps_ensures hss

end Script

end TypedSexp
