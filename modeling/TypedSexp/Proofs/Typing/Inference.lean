import TypedSexp.Proofs.Typing.Variables

namespace TypedSexp

structure Ty.Kept (T : Ty → Prop) (W : Name → Prop) : Prop where
  nat : T .nat
  bool : T .bool
  arrow : ∀ {t u : Ty}, T t → T u → T (.arrow [t] u)
  output : ∀ {inputs : List Ty} {output : Ty}, T (.arrow inputs output) → T output
  record : ∀ {entries : List (Name × Ty)}, (∀ entry ∈ entries, W entry.1 ∧ T entry.2) →
    T (.record (Members.ofList entries))
  field : ∀ {members : List (Name × Ty)} {member : Name × Ty}, T (.record members) →
    member ∈ members → T member.2
  union : T (.union [])
  variant : ∀ {members : List (Name × Ty)} {member : Name × Ty}, T (.union members) →
    member ∈ members → T member.2

theorem Ty.kept_ordered : Ty.Kept Ty.Ordered fun _ => True where
  nat := .nat
  bool := .bool
  arrow ht hu := .arrow (by simpa using ht) hu
  output h := by
    cases h with
    | arrow _ houtput => exact houtput
  record h := .record (Members.ordered_ofList _)
    fun entry hmem => (h entry (Members.mem_of_mem_ofList hmem)).2
  field h hmem := by
    cases h with
    | record _ hmembers => exact hmembers _ hmem
  union := .union List.Pairwise.nil (by simp)
  variant h hmem := by
    cases h with
    | union _ hmembers => exact hmembers _ hmem

namespace Expr

inductive Annotated (T : Ty → Prop) (W : Name → Prop) : Expr → Prop
  | var {range : Range} {name : Name} : Annotated T W (.var range name)
  | num {range : Range} {value : UInt64} : Annotated T W (.num range value)
  | bool {range : Range} {value : Bool} : Annotated T W (.bool range value)
  | lambda {range : Range} {param : Name} {paramType : Ty} {body : Expr} :
      T paramType → Annotated T W body → Annotated T W (.lambda range param paramType body)
  | apply {range : Range} {head : Expr} {args : List Expr} :
      Annotated T W head → (∀ arg ∈ args, Annotated T W arg) →
      Annotated T W (.apply range head args)
  | cond {range : Range} {guard thenBranch elseBranch : Expr} :
      Annotated T W guard → Annotated T W thenBranch → Annotated T W elseBranch →
      Annotated T W (.cond range guard thenBranch elseBranch)
  | record {range : Range} {fields : List (Name × Expr)} :
      (∀ field ∈ fields, W field.1) → (∀ field ∈ fields, Annotated T W field.2) →
      Annotated T W (.record range fields)
  | project {range : Range} {target : Expr} {name : Name} :
      Annotated T W target → Annotated T W (.project range target name)
  | inject {range : Range} {variant : Name} {payload : Expr} :
      Annotated T W payload → Annotated T W (.inject range variant payload)

theorem Regular.annotated {e : Expr} (h : e.Regular) :
    e.Annotated Ty.Ordered fun _ => True := by
  induction h with
  | var => exact .var
  | num => exact .num
  | bool => exact .bool
  | lambda htype _ ih => exact .lambda htype ih
  | apply _ _ ihhead ihargs => exact .apply ihhead ihargs
  | cond _ _ _ ihguard ihthen ihelse => exact .cond ihguard ihthen ihelse
  | record _ _ ih => exact .record (by simp) ih
  | project _ ih => exact .project ih
  | inject _ ih => exact .inject ih

theorem WellFormedWith.annotated {T : Ty → Prop} {e : Expr} (h : e.WellFormedWith T) :
    e.Annotated T Sexp.IsWord := by
  induction h with
  | var => exact .var
  | num => exact .num
  | bool => exact .bool
  | lambda _ htype _ ih => exact .lambda htype ih
  | apply _ _ _ ihhead ihargs => exact .apply ihhead ihargs
  | cond _ _ _ ihguard ihthen ihelse => exact .cond ihguard ihthen ihelse
  | record _ hword _ ih => exact .record hword ih
  | project _ _ ih => exact .project ih
  | inject _ _ ih => exact .inject ih

theorem checkArgs_ensures (whole : Expr) (number : Nat) (inputs : List Ty) (args : List Expr)
    (found : List Ty) :
    (checkArgs whole number inputs args found).Ensures (fun _ => True)
      (Diagnostic.IsAt .typing) := by
  fun_induction checkArgs whole number inputs args found with
  | case1 number input inputs arg args found founds hequal ih => exact ih
  | case2 => rfl
  | case3 => trivial

theorem applyType_ensures {T : Ty → Prop} {W : Name → Prop} (hT : Ty.Kept T W) (whole : Expr)
    (range : Range) (args : List Expr) (found : List Ty) {t : Ty} (ht : T t) :
    (applyType whole range args found t).Ensures T (Diagnostic.IsAt .typing) := by
  cases t with
  | arrow inputs output =>
      simp only [applyType]
      split
      · simp only [Except.ensures_bind, Except.ensures_pure]
        exact (checkArgs_ensures whole 1 _ args found).imp fun _ _ => hT.output ht
      · rfl
  | _ => rfl

theorem memberType_ensures {T : Ty → Prop} {W : Name → Prop} (hT : Ty.Kept T W) (range : Range)
    (name : Name) {t : Ty} (ht : T t) :
    (memberType range name t).Ensures T (Diagnostic.IsAt .typing) := by
  cases t with
  | record members =>
      simp only [memberType]
      split
      case h_1 t hlookup => exact hT.field ht (Members.mem_of_lookup hlookup)
      · rfl
  | union members =>
      simp only [memberType]
      split
      case h_1 t hlookup => exact hT.variant ht (Members.mem_of_lookup hlookup)
      · rfl
  | _ => rfl

theorem inferAll_ensures {T : Ty → Prop} {Γ : Context} {args : List Expr}
    (h : ∀ e ∈ args, (infer Γ e).Ensures T (Diagnostic.IsAt .typing)) :
    (inferAll Γ args).Ensures (fun types => types.length = args.length ∧ ∀ t ∈ types, T t)
      (Diagnostic.IsAt .typing) := by
  induction args with
  | nil => simp [inferAll]
  | cons e rest ih =>
      obtain ⟨he, hrest⟩ := List.forall_mem_cons.mp h
      simp only [inferAll, Except.ensures_bind, Except.ensures_pure]
      refine he.imp fun t ht => (ih hrest).imp fun types htypes => ?_
      exact ⟨by simp [htypes.1], List.forall_mem_cons.mpr ⟨ht, htypes.2⟩⟩

theorem inferFields_ensures {T : Ty → Prop} {W : Name → Prop} {Γ : Context}
    {fields : List (Name × Expr)} (hnames : ∀ field ∈ fields, W field.1)
    (h : ∀ field ∈ fields, (infer Γ field.2).Ensures T (Diagnostic.IsAt .typing)) :
    (inferFields Γ fields).Ensures (fun entries => ∀ entry ∈ entries, W entry.1 ∧ T entry.2)
      (Diagnostic.IsAt .typing) := by
  induction fields with
  | nil => simp [inferFields]
  | cons field rest ih =>
      obtain ⟨hname, hnames⟩ := List.forall_mem_cons.mp hnames
      obtain ⟨hfield, hrest⟩ := List.forall_mem_cons.mp h
      simp only [inferFields, Except.ensures_bind, Except.ensures_pure]
      exact hfield.imp fun t ht => (ih hnames hrest).imp fun entries hentries =>
        List.forall_mem_cons.mpr ⟨⟨hname, ht⟩, hentries⟩

theorem infer_ensures_of {T : Ty → Prop} {W : Name → Prop} (hT : Ty.Kept T W) {e : Expr}
    (he : e.Annotated T W) {Γ : Context}
    (hΓ : ∀ x t, e.mentions x = true → Γ.lookup? x = some t → T t) :
    (infer Γ e).Ensures T (Diagnostic.IsAt .typing) := by
  induction he generalizing Γ with
  | @var range name =>
      simp only [infer]
      split
      case h_1 t hlookup => exact hΓ name t (by simp [mentions]) hlookup
      · rfl
  | num => exact hT.nat
  | bool => exact hT.bool
  | @lambda range param paramType body htype _ ih =>
      simp only [infer, Except.ensures_bind, Except.ensures_pure]
      refine (ih fun x t hx ht => ?_).imp fun output houtput => hT.arrow htype houtput
      rw [Context.lookup?_extend] at ht
      split at ht
      · cases ht
        exact htype
      case isFalse hne => exact hΓ x t (by simp [mentions, hx, Ne.symm hne]) ht
  | apply _ _ ihhead ihargs =>
      simp only [infer, Except.ensures_bind]
      refine (ihhead fun x t hx => hΓ x t (by simp [mentions, hx])).imp fun headType hhead => ?_
      refine (inferAll_ensures fun e he => ihargs e he fun x t hx =>
        hΓ x t (by simp [mentions, mentionsAny_of_mem he hx])).imp fun argTypes _ => ?_
      exact applyType_ensures hT _ _ _ _ hhead
  | cond _ _ _ ihguard ihthen ihelse =>
      simp only [infer, Except.ensures_bind]
      refine (ihguard fun x t hx => hΓ x t (by simp [mentions, hx])).imp fun guardType _ => ?_
      split
      · simp only [Except.ensures_bind]
        refine (ihthen fun x t hx => hΓ x t (by simp [mentions, hx])).imp fun thenType hthen => ?_
        refine (ihelse fun x t hx => hΓ x t (by simp [mentions, hx])).imp fun elseType _ => ?_
        split
        · exact hthen
        · rfl
      · rfl
  | record hnames _ ih =>
      simp only [infer, Except.ensures_bind, Except.ensures_pure]
      refine (inferFields_ensures hnames fun field hfield => ih field hfield fun x t hx => ?_).imp
        fun entries hentries => hT.record hentries
      exact hΓ x t (by simp [mentions, mentionsField_of_mem hfield hx])
  | project _ ih =>
      simp only [infer, Except.ensures_bind]
      refine (ih fun x t hx => hΓ x t (by simp [mentions, hx])).imp fun t ht => ?_
      exact memberType_ensures hT _ _ ht
  | inject _ ih =>
      simp only [infer, Except.ensures_bind, Except.ensures_pure]
      exact (ih fun x t hx => hΓ x t (by simp [mentions, hx])).imp fun _ _ => hT.union

theorem infer_ensures {e : Expr} (he : e.Regular) {Γ : Context} (hΓ : Γ.Ordered) :
    (infer Γ e).Ensures Ty.Ordered (Diagnostic.IsAt .typing) :=
  infer_ensures_of Ty.kept_ordered he.annotated fun x t _ ht => hΓ x t ht

theorem ordered_of_infer {e : Expr} {Γ : Context} {t : Ty} (he : e.Regular) (hΓ : Γ.Ordered)
    (ht : infer Γ e = .ok t) : t.Ordered :=
  (infer_ensures he hΓ).of_ok ht

theorem inferAll_ok {Γ : Context} {args : List Expr} {types : List Ty}
    (hargs : ∀ e ∈ args, e.Regular) (hΓ : Γ.Ordered) (h : inferAll Γ args = .ok types) :
    types.length = args.length ∧ ∀ t ∈ types, t.Ordered :=
  (inferAll_ensures fun e he => infer_ensures (hargs e he) hΓ).of_ok h

theorem eq_of_checkArgs {whole : Expr} {number : Nat} {inputs : List Ty} {args : List Expr}
    {found : List Ty} (hinputs : ∀ t ∈ inputs, t.Ordered) (hfound : ∀ t ∈ found, t.Ordered)
    (hlength : inputs.length = args.length) (hlength' : found.length = args.length)
    (h : checkArgs whole number inputs args found = .ok ()) : inputs = found := by
  fun_induction checkArgs whole number inputs args found with
  | case1 number input inputs arg args found founds hequal ih =>
      obtain ⟨hinput, hinputs⟩ := List.forall_mem_cons.mp hinputs
      obtain ⟨hfound, hfounds⟩ := List.forall_mem_cons.mp hfound
      rw [Ty.eq_of_equal hinput hfound hequal,
        ih hinputs hfounds (by simpa using hlength) (by simpa using hlength') h]
  | case2 => simp [mismatch] at h
  | case3 inputs number args found hshort =>
      cases args with
      | nil =>
          rw [List.length_eq_zero_iff.mp hlength, List.length_eq_zero_iff.mp hlength']
      | cons arg args =>
          obtain ⟨input, inputs, rfl⟩ := List.exists_cons_of_length_eq_add_one hlength
          obtain ⟨found, founds, rfl⟩ := List.exists_cons_of_length_eq_add_one hlength'
          exact absurd rfl (hshort input inputs arg args found founds rfl rfl)

theorem infer_apply_ok {range : Range} {head : Expr} {args : List Expr} {Γ : Context} {t : Ty}
    (hhead : head.Regular) (hargs : ∀ e ∈ args, e.Regular) (hΓ : Γ.Ordered)
    (h : infer Γ (.apply range head args) = .ok t) :
    ∃ inputs, infer Γ head = .ok (.arrow inputs t) ∧ inferAll Γ args = .ok inputs := by
  simp only [infer, Except.bind_eq_ok_iff] at h
  obtain ⟨headType, hheadType, argTypes, hargTypes, h⟩ := h
  have hordered := ordered_of_infer hhead hΓ hheadType
  have hfound := inferAll_ok hargs hΓ hargTypes
  cases hordered with
  | @arrow inputs output hinputs houtput =>
      simp only [applyType] at h
      split at h
      case isTrue hlength =>
        simp only [Except.bind_eq_ok_iff, Except.pure_eq_ok_iff] at h
        obtain ⟨_, hcheck, rfl⟩ := h
        have heq := eq_of_checkArgs hinputs hfound.2 hlength hfound.1 hcheck
        subst heq
        exact ⟨inputs, hheadType, hargTypes⟩
      case isFalse => simp at h
  | _ => simp [applyType] at h

theorem infer_cond_ok {range : Range} {guard thenBranch elseBranch : Expr} {Γ : Context} {t : Ty}
    (hguard : guard.Regular) (hthen : thenBranch.Regular) (helse : elseBranch.Regular)
    (hΓ : Γ.Ordered) (h : infer Γ (.cond range guard thenBranch elseBranch) = .ok t) :
    infer Γ guard = .ok .bool ∧ infer Γ thenBranch = .ok t ∧ infer Γ elseBranch = .ok t := by
  simp only [infer, Except.bind_eq_ok_iff] at h
  obtain ⟨guardType, hguardType, h⟩ := h
  split at h
  case isTrue hbool =>
    simp only [Except.bind_eq_ok_iff] at h
    obtain ⟨thenType, hthenType, elseType, helseType, h⟩ := h
    split at h
    case isTrue hequal =>
      have hbool := Ty.eq_of_equal .bool (ordered_of_infer hguard hΓ hguardType) hbool
      have hsame := Ty.eq_of_equal (ordered_of_infer hthen hΓ hthenType)
        (ordered_of_infer helse hΓ helseType) hequal
      cases h
      exact ⟨hbool ▸ hguardType, hthenType, hsame ▸ helseType⟩
    case isFalse => simp [mismatch] at h
  case isFalse => simp [mismatch] at h

theorem infer_project_ok {range : Range} {target : Expr} {name : Name} {Γ : Context} {t : Ty}
    (h : infer Γ (.project range target name) = .ok t) :
    (∃ members, infer Γ target = .ok (.record members) ∧ members.lookup name = some t) ∨
      ∃ members, infer Γ target = .ok (.union members) ∧ members.lookup name = some t := by
  simp only [infer, Except.bind_eq_ok_iff] at h
  obtain ⟨targetType, htarget, h⟩ := h
  cases targetType with
  | record members =>
      simp only [memberType] at h
      split at h
      case h_1 u hlookup =>
        cases h
        exact .inl ⟨members, htarget, hlookup⟩
      case h_2 => simp at h
  | union members =>
      simp only [memberType] at h
      split at h
      case h_1 u hlookup =>
        cases h
        exact .inr ⟨members, htarget, hlookup⟩
      case h_2 => simp at h
  | _ => simp [memberType] at h

end Expr

namespace Stmt

theorem check_ensures {stmt : Stmt} (hstmt : stmt.Readable) {Γ : Context} (hΓ : Γ.Ordered) :
    (stmt.check Γ).Ensures Context.Ordered (Diagnostic.IsAt .typing) := by
  cases hstmt with
  | define _ hvalue =>
      simp only [check, Except.ensures_bind, Except.ensures_pure]
      exact (Expr.infer_ensures hvalue.regular hΓ).imp fun t ht => hΓ.extend _ ht
  | assign _ hvalue =>
      simp only [check, Except.ensures_bind]
      refine (Expr.infer_ensures hvalue.regular hΓ).imp fun t ht => ?_
      split
      · split
        · split
          · exact hΓ
          · rfl
        · rfl
      · rfl
  | print hvalue =>
      simp only [check, Except.ensures_bind, Except.ensures_pure]
      exact (Expr.infer_ensures hvalue.regular hΓ).imp fun _ _ => hΓ

theorem check_define_ok {range : Range} {name : Name} {value : Expr} {Γ Δ : Context}
    (h : check Γ (.define range name value) = .ok Δ) :
    ∃ t, value.infer Γ = .ok t ∧ Δ = Γ.extend name t := by
  simp only [check, Except.bind_eq_ok_iff, Except.pure_eq_ok_iff] at h
  obtain ⟨t, ht, rfl⟩ := h
  exact ⟨t, ht, rfl⟩

theorem check_print_ok {range : Range} {value : Expr} {Γ Δ : Context}
    (h : check Γ (.print range value) = .ok Δ) : ∃ t, value.infer Γ = .ok t ∧ Δ = Γ := by
  simp only [check, Except.bind_eq_ok_iff, Except.pure_eq_ok_iff] at h
  obtain ⟨t, ht, rfl⟩ := h
  exact ⟨t, ht, rfl⟩

theorem check_assign_ok {range : Range} {target value : Expr} {Γ Δ : Context} (hΓ : Γ.Ordered)
    (hvalue : value.Readable) (h : check Γ (.assign range target value) = .ok Δ) :
    ∃ targetRange name t, target = .var targetRange name ∧ Γ.lookup? name = some t ∧
      value.infer Γ = .ok t ∧ Δ = Γ := by
  simp only [check, Except.bind_eq_ok_iff] at h
  obtain ⟨found, hfound, h⟩ := h
  split at h
  case h_1 targetRange name =>
    split at h
    case h_1 declared hdeclared =>
      split at h
      case isTrue hequal =>
        have hsame := Ty.eq_of_equal (hΓ name declared hdeclared)
          (Expr.ordered_of_infer hvalue.regular hΓ hfound) hequal
        cases h
        exact ⟨targetRange, name, declared, rfl, hdeclared, hsame ▸ hfound, rfl⟩
      case isFalse => simp [Expr.mismatch] at h
    case h_2 => simp at h
  case h_2 => simp at h

end Stmt

namespace Context

theorem lookup?_initial (p : Primitive) : initial.lookup? p.name = some p.signature := by
  cases p <;> rfl

theorem primitive_of_lookup?_initial {x : Name} {t : Ty} (h : initial.lookup? x = some t) :
    ∃ p : Primitive, x = p.name ∧ t = p.signature := by
  have hmem : (x, t) ∈ initial.bindings := Members.mem_of_lookup h
  obtain ⟨p, -, heq⟩ := List.mem_map.mp hmem
  cases heq
  exact ⟨p, rfl, rfl⟩

theorem initial_ordered : initial.Ordered := by
  intro x t h
  obtain ⟨p, -, rfl⟩ := primitive_of_lookup?_initial h
  exact Ty.signature_ordered p

end Context

end TypedSexp
