import TypedSexp.Proofs.Expr.WellFormed
import TypedSexp.Proofs.Numeral
import TypedSexp.Proofs.Ty.Printing

namespace TypedSexp

open Sexp (IsWord OfWords)

namespace Expr

mutual

def content : Expr → Expr
  | .var _ name => .var Range.none name
  | .num _ value => .num Range.none value
  | .bool _ value => .bool Range.none value
  | .lambda _ param paramType body => .lambda Range.none param paramType.canonical (content body)
  | .apply _ head args => .apply Range.none (content head) (contentAll args)
  | .cond _ guard thenBranch elseBranch =>
      .cond Range.none (content guard) (content thenBranch) (content elseBranch)
  | .record _ fields => .record Range.none (contentFields fields)
  | .project _ target name => .project Range.none (content target) name
  | .inject _ variant payload => .inject Range.none variant (content payload)

def contentAll : List Expr → List Expr
  | [] => []
  | e :: rest => content e :: contentAll rest

def contentFields : List (Name × Expr) → List (Name × Expr)
  | [] => []
  | (name, e) :: rest => (name, content e) :: contentFields rest

end

mutual

def toSexp : Expr → Sexp
  | .var _ name => .atom Range.none name
  | .num _ value => .atom Range.none (Numeral.write value)
  | .bool _ value => .atom Range.none (Text.ofBool value)
  | .lambda _ param paramType body =>
      .list Range.none [.atom Range.none (utf8 "lambda"), .atom Range.none param,
        paramType.toSexp, toSexp body]
  | .apply _ head args => .list Range.none (toSexp head :: toSexps args)
  | .cond _ guard thenBranch elseBranch =>
      .list Range.none [.atom Range.none (utf8 "if"), toSexp guard, toSexp thenBranch,
        toSexp elseBranch]
  | .record _ fields => .list Range.none (.atom Range.none (utf8 "rec") :: fieldSexps fields)
  | .project _ target name =>
      .list Range.none [.atom Range.none (utf8 "field"), toSexp target, .atom Range.none name]
  | .inject _ variant payload =>
      .list Range.none [.atom Range.none (utf8 "union"), .atom Range.none variant, toSexp payload]

def toSexps : List Expr → List Sexp
  | [] => []
  | e :: rest => toSexp e :: toSexps rest

def fieldSexps : List (Name × Expr) → List Sexp
  | [] => []
  | (name, e) :: rest => .atom Range.none name :: toSexp e :: fieldSexps rest

end

theorem length_fieldSexps (fields : List (Name × Expr)) :
    (fieldSexps fields).length = 2 * fields.length := by
  induction fields with
  | nil => rfl
  | cons field rest ih =>
      simp only [fieldSexps, List.length_cons, ih]
      omega

theorem toTextArgs_eq {args : List Expr} (h : ∀ e ∈ args, e.toText = e.toSexp.toText) :
    toTextArgs args = (toSexps args).flatMap fun s => Byte.space :: s.toText := by
  induction args with
  | nil => rfl
  | cons e rest ih =>
      obtain ⟨he, hrest⟩ := List.forall_mem_cons.mp h
      simp [toTextArgs, toSexps, he, ih hrest, Sexp.utf8_space]

theorem toTextFields_eq {fields : List (Name × Expr)}
    (h : ∀ field ∈ fields, field.2.toText = field.2.toSexp.toText) :
    toTextFields fields = (fieldSexps fields).flatMap fun s => Byte.space :: s.toText := by
  induction fields with
  | nil => rfl
  | cons field rest ih =>
      obtain ⟨hfield, hrest⟩ := List.forall_mem_cons.mp h
      simp [toTextFields, fieldSexps, hfield, ih hrest, Sexp.toText, Sexp.utf8_space]

theorem toText_toSexp (e : Expr) : e.toText = e.toSexp.toText := by
  induction e using Expr.induct with
  | var => rfl
  | num => rfl
  | bool => rfl
  | lambda range param paramType body ih =>
      have hhead : utf8 "(lambda " = Byte.openParen :: (utf8 "lambda" ++ [Byte.space]) := rfl
      simp [toText, toSexp, Sexp.toText, Sexp.toTextAll_cons, ih, Ty.toText_toSexp, hhead,
        Sexp.utf8_space, Sexp.utf8_close]
  | apply range head args ihhead ihargs =>
      simp [toText, toSexp, Sexp.toText, Sexp.toTextAll_cons, ihhead, toTextArgs_eq ihargs,
        Sexp.utf8_open, Sexp.utf8_close]
  | cond range guard thenBranch elseBranch ihguard ihthen ihelse =>
      have hhead : utf8 "(if " = Byte.openParen :: (utf8 "if" ++ [Byte.space]) := rfl
      simp [toText, toSexp, Sexp.toText, Sexp.toTextAll_cons, ihguard, ihthen, ihelse, hhead,
        Sexp.utf8_space, Sexp.utf8_close]
  | record range fields ih =>
      have hhead : utf8 "(rec" = Byte.openParen :: utf8 "rec" := rfl
      simp [toText, toSexp, Sexp.toText, Sexp.toTextAll_cons, toTextFields_eq ih, hhead,
        Sexp.utf8_close]
  | project range target name ih =>
      have hhead : utf8 "(field " = Byte.openParen :: (utf8 "field" ++ [Byte.space]) := rfl
      simp [toText, toSexp, Sexp.toText, Sexp.toTextAll_cons, ih, hhead, Sexp.utf8_space,
        Sexp.utf8_close]
  | inject range variant payload ih =>
      have hhead : utf8 "(union " = Byte.openParen :: (utf8 "union" ++ [Byte.space]) := rfl
      simp [toText, toSexp, Sexp.toText, Sexp.toTextAll_cons, ih, hhead, Sexp.utf8_space,
        Sexp.utf8_close]

theorem isWord_write (n : UInt64) : IsWord (Numeral.write n) := by
  refine ⟨Numeral.write_ne_nil n, fun c hc => ?_⟩
  have hdigit := Numeral.isDigit_of_mem_write hc
  cases hdelimiter : Sexp.isDelimiter c with
  | false => rfl
  | true =>
      simp only [Sexp.isDelimiter, Sexp.isBlank, Bool.or_eq_true, beq_iff_eq] at hdelimiter
      rcases hdelimiter with ((((((rfl | rfl) | rfl) | rfl) | rfl) | rfl) | rfl) <;> cases hdigit

theorem isWord_ofBool (b : Bool) : IsWord (Text.ofBool b) := by
  cases b <;> decide

theorem toSexps_ofWords {args : List Expr} (h : ∀ e ∈ args, e.toSexp.OfWords) :
    ∀ s ∈ toSexps args, s.OfWords := by
  induction args with
  | nil => simp [toSexps]
  | cons e rest ih =>
      obtain ⟨he, hrest⟩ := List.forall_mem_cons.mp h
      exact List.forall_mem_cons.mpr ⟨he, ih hrest⟩

theorem fieldSexps_ofWords {fields : List (Name × Expr)}
    (hword : ∀ field ∈ fields, IsWord field.1) (h : ∀ field ∈ fields, field.2.toSexp.OfWords) :
    ∀ s ∈ fieldSexps fields, s.OfWords := by
  induction fields with
  | nil => simp [fieldSexps]
  | cons field rest ih =>
      obtain ⟨hname, hnames⟩ := List.forall_mem_cons.mp hword
      obtain ⟨hfield, hrest⟩ := List.forall_mem_cons.mp h
      simp only [fieldSexps, List.forall_mem_cons]
      exact ⟨.atom hname, hfield, ih hnames hrest⟩

theorem toSexp_ofWords {e : Expr} (h : e.WellFormed) : e.toSexp.OfWords := by
  induction h with
  | var hword => exact .atom hword
  | num => exact .atom (isWord_write _)
  | bool => exact .atom (isWord_ofBool _)
  | lambda hword htype _ ih =>
      refine .list ?_
      simp only [List.forall_mem_cons]
      exact ⟨.atom (by decide), .atom hword, Ty.toSexp_ofWords htype, ih, by simp⟩
  | apply _ _ _ ihhead ihargs =>
      exact .list (List.forall_mem_cons.mpr ⟨ihhead, toSexps_ofWords ihargs⟩)
  | cond _ _ _ ihguard ihthen ihelse =>
      refine .list ?_
      simp only [List.forall_mem_cons]
      exact ⟨.atom (by decide), ihguard, ihthen, ihelse, by simp⟩
  | record _ hword _ ih =>
      exact .list (List.forall_mem_cons.mpr ⟨.atom (by decide), fieldSexps_ofWords hword ih⟩)
  | project _ hword ih =>
      refine .list ?_
      simp only [List.forall_mem_cons]
      exact ⟨.atom (by decide), ih, .atom hword, by simp⟩
  | inject hword _ ih =>
      refine .list ?_
      simp only [List.forall_mem_cons]
      exact ⟨.atom (by decide), .atom hword, ih, by simp⟩

def ReadsBack (e : Expr) : Prop :=
  ∀ s : Sexp, s.content = e.toSexp.content → ∃ e', ofSexp s = .ok e' ∧ e'.content = e.content

theorem ofSexps_of_content {args : List Expr} (h : ∀ e ∈ args, ReadsBack e) {ss : List Sexp}
    (hss : ss.map Sexp.content = (toSexps args).map Sexp.content) :
    ∃ args', ofSexps ss = .ok args' ∧ contentAll args' = contentAll args := by
  induction args generalizing ss with
  | nil =>
      obtain rfl : ss = [] := by simpa [toSexps] using hss
      exact ⟨[], rfl, rfl⟩
  | cons e rest ih =>
      obtain ⟨he, hrest⟩ := List.forall_mem_cons.mp h
      obtain ⟨s, tail, rfl, hs, htail⟩ := List.map_eq_cons_iff.mp hss
      obtain ⟨e', he', hcontent⟩ := he s hs
      obtain ⟨rest', hrest', hcontents⟩ := ih hrest htail
      refine ⟨e' :: rest', ?_, by simp only [contentAll, hcontent, hcontents]⟩
      rw [ofSexps, he', hrest']
      rfl

theorem fieldsOf_of_content (range : Range) (seen : List Name) {fields : List (Name × Expr)}
    (hnodup : (Members.names fields).Nodup) (hseen : ∀ field ∈ fields, field.1 ∉ seen)
    (h : ∀ field ∈ fields, ReadsBack field.2) {ss : List Sexp}
    (hss : ss.map Sexp.content = (fieldSexps fields).map Sexp.content) :
    ∃ fields', fieldsOf range seen ss = .ok fields' ∧
      contentFields fields' = contentFields fields := by
  induction fields generalizing seen ss with
  | nil =>
      obtain rfl : ss = [] := by simpa [fieldSexps] using hss
      exact ⟨[], rfl, rfl⟩
  | cons field rest ih =>
      obtain ⟨name, e⟩ := field
      obtain ⟨he, hrest⟩ := List.forall_mem_cons.mp h
      obtain ⟨first, tail, rfl, hfirst, htail⟩ := List.map_eq_cons_iff.mp hss
      obtain ⟨second, tail, rfl, hsecond, htail⟩ := List.map_eq_cons_iff.mp htail
      obtain ⟨r, rfl⟩ := Sexp.content_eq_atom hfirst
      have hcontains : seen.contains name = false := by
        simpa using (List.forall_mem_cons.mp hseen).1
      obtain ⟨e', he', hcontent⟩ := he second hsecond
      obtain ⟨rest', hrest', hcontents⟩ := ih (name :: seen) (List.nodup_cons.mp hnodup).2
        (Members.not_mem_seen hnodup hseen) hrest htail
      refine ⟨(name, e') :: rest', ?_, by simp only [contentFields, hcontent, hcontents]⟩
      simp only [fieldsOf, fieldName, hcontains, Bool.false_eq_true, if_false, he']
      change (do return (name, e') :: (← fieldsOf range (name :: seen) tail)) = _
      rw [hrest']
      rfl

theorem special_of_isNumeral {text : Text} (h : Numeral.isNumeral text = true) :
    Special.ofText? text = none := by
  have hne (word : Text) (hword : Numeral.isNumeral word = false) : text ≠ word := by
    rintro rfl
    simp [h] at hword
  simp only [Special.ofText?, hne (utf8 "lambda") rfl, hne (utf8 "if") rfl, hne (utf8 "rec") rfl,
    hne (utf8 "field") rfl, hne (utf8 "union") rfl, if_false]

theorem special_of_content {head : Expr}
    (hvar : ∀ r name, head = .var r name → Special.ofText? name = none) {s : Sexp}
    (hs : s.content = head.toSexp.content) : Special.ofHead? s = none := by
  cases head with
  | var range name =>
      obtain ⟨r, rfl⟩ := Sexp.content_eq_atom hs
      exact hvar range name rfl
  | num range value =>
      obtain ⟨r, rfl⟩ := Sexp.content_eq_atom hs
      exact special_of_isNumeral (Numeral.isNumeral_write value)
  | bool range value =>
      obtain ⟨r, rfl⟩ := Sexp.content_eq_atom hs
      cases value <;> rfl
  | _ =>
      obtain ⟨r, ss, rfl, -⟩ := Sexp.content_eq_list hs
      rfl

theorem ofAtom_write (range : Range) (n : UInt64) :
    ofAtom range (Numeral.write n) = .ok (.num range n) := by
  have hnumeral := Numeral.isNumeral_write n
  have htrue : Numeral.write n ≠ utf8 "true" := by
    intro heq
    rw [heq] at hnumeral
    cases hnumeral
  have hfalse : Numeral.write n ≠ utf8 "false" := by
    intro heq
    rw [heq] at hnumeral
    cases hnumeral
  simp only [ofAtom, htrue, hfalse, hnumeral, if_false, if_true, Numeral.read_write]

theorem readsBack_lambda {range : Range} {param : Name} {paramType : Ty} {body : Expr}
    (htype : paramType.WellFormed) (hbody : ReadsBack body) :
    ReadsBack (.lambda range param paramType body) := by
  intro s hs
  obtain ⟨r₁, r₂, args, rfl, hargs⟩ := Sexp.content_eq_form hs
  simp only [List.map_cons, List.map_nil, List.map_eq_cons_iff, List.map_eq_nil_iff] at hargs
  obtain ⟨name, _, rfl, hname, ty, _, rfl, hty, part, _, rfl, hpart, rfl⟩ := hargs
  obtain ⟨r, rfl⟩ := Sexp.content_eq_atom hname
  obtain ⟨body', hbody', hcontent⟩ := hbody part hpart
  refine ⟨.lambda r₁ param paramType.canonical body', ?_, ?_⟩
  · change (do return lambda r₁ param (← Ty.ofSexp ty) (← ofSexp part)) = _
    rw [Ty.readsBack_of_wellFormed htype ty hty, hbody']
    rfl
  · change lambda Range.none param paramType.canonical.canonical body'.content = _
    rw [Ty.canonical_canonical, hcontent]
    rfl

theorem readsBack_apply {range : Range} {head : Expr} {args : List Expr}
    (hvar : ∀ r name, head = .var r name → Special.ofText? name = none) (hhead : ReadsBack head)
    (hargs : ∀ e ∈ args, ReadsBack e) : ReadsBack (.apply range head args) := by
  intro s hs
  obtain ⟨r, ss, rfl, hss⟩ := Sexp.content_eq_list hs
  obtain ⟨first, rest, rfl, hfirst, hrest⟩ := List.map_eq_cons_iff.mp hss
  obtain ⟨head', hhead', hcontent⟩ := hhead first hfirst
  obtain ⟨args', hargs', hcontents⟩ := ofSexps_of_content hargs hrest
  refine ⟨.apply r head' args', ?_, ?_⟩
  · rw [ofSexp.eq_def]
    simp only [special_of_content hvar hfirst, hhead', hargs']
    rfl
  · change apply Range.none head'.content (contentAll args') = _
    rw [hcontent, hcontents]
    rfl

theorem readsBack_cond {range : Range} {guard thenBranch elseBranch : Expr}
    (hguard : ReadsBack guard) (hthen : ReadsBack thenBranch) (helse : ReadsBack elseBranch) :
    ReadsBack (.cond range guard thenBranch elseBranch) := by
  intro s hs
  obtain ⟨r₁, r₂, args, rfl, hargs⟩ := Sexp.content_eq_form hs
  simp only [List.map_cons, List.map_nil, List.map_eq_cons_iff, List.map_eq_nil_iff] at hargs
  obtain ⟨first, _, rfl, hfirst, second, _, rfl, hsecond, third, _, rfl, hthird, rfl⟩ := hargs
  obtain ⟨guard', hguard', hcontent₁⟩ := hguard first hfirst
  obtain ⟨then', hthen', hcontent₂⟩ := hthen second hsecond
  obtain ⟨else', helse', hcontent₃⟩ := helse third hthird
  refine ⟨.cond r₁ guard' then' else', ?_, ?_⟩
  · change (do return Expr.cond r₁ (← ofSexp first) (← ofSexp second) (← ofSexp third)) = _
    rw [hguard', hthen', helse']
    rfl
  · change Expr.cond Range.none guard'.content then'.content else'.content = _
    rw [hcontent₁, hcontent₂, hcontent₃]
    rfl

theorem readsBack_record {range : Range} {fields : List (Name × Expr)}
    (hnodup : (Members.names fields).Nodup) (h : ∀ field ∈ fields, ReadsBack field.2) :
    ReadsBack (.record range fields) := by
  intro s hs
  obtain ⟨r₁, r₂, args, rfl, hargs⟩ := Sexp.content_eq_form hs
  obtain ⟨fields', hfields', hcontent⟩ := fieldsOf_of_content r₁ [] hnodup (by simp) h hargs
  have hlength : args.length % 2 = 0 := by
    have := congrArg List.length hargs
    simp [length_fieldSexps] at this
    omega
  refine ⟨.record r₁ fields', ?_, congrArg (record Range.none) hcontent⟩
  change (if args.length % 2 ≠ 0 then _ else do return record r₁ (← fieldsOf r₁ [] args)) = _
  rw [if_neg (by simp [hlength]), hfields']
  rfl

theorem readsBack_project {range : Range} {target : Expr} {name : Name}
    (htarget : ReadsBack target) : ReadsBack (.project range target name) := by
  intro s hs
  obtain ⟨r₁, r₂, args, rfl, hargs⟩ := Sexp.content_eq_form hs
  simp only [List.map_cons, List.map_nil, List.map_eq_cons_iff, List.map_eq_nil_iff] at hargs
  obtain ⟨first, _, rfl, hfirst, second, _, rfl, hsecond, rfl⟩ := hargs
  obtain ⟨r, rfl⟩ := Sexp.content_eq_atom hsecond
  obtain ⟨target', htarget', hcontent⟩ := htarget first hfirst
  refine ⟨.project r₁ target' name, ?_, congrArg (project Range.none · name) hcontent⟩
  change (do return project r₁ (← ofSexp first) name) = _
  rw [htarget']
  rfl

theorem readsBack_inject {range : Range} {variant : Name} {payload : Expr}
    (hpayload : ReadsBack payload) : ReadsBack (.inject range variant payload) := by
  intro s hs
  obtain ⟨r₁, r₂, args, rfl, hargs⟩ := Sexp.content_eq_form hs
  simp only [List.map_cons, List.map_nil, List.map_eq_cons_iff, List.map_eq_nil_iff] at hargs
  obtain ⟨first, _, rfl, hfirst, second, _, rfl, hsecond, rfl⟩ := hargs
  obtain ⟨r, rfl⟩ := Sexp.content_eq_atom hfirst
  obtain ⟨payload', hpayload', hcontent⟩ := hpayload second hsecond
  refine ⟨.inject r₁ variant payload', ?_, congrArg (inject Range.none variant) hcontent⟩
  change (do return inject r₁ variant (← ofSexp second)) = _
  rw [hpayload']
  rfl

theorem readsBack_of_wellFormed {e : Expr} (h : e.WellFormed) : ReadsBack e := by
  induction h with
  | @var range name _ htrue hfalse hnumeral =>
      intro s hs
      obtain ⟨r, rfl⟩ := Sexp.content_eq_atom hs
      refine ⟨.var r name, ?_, rfl⟩
      simp only [ofSexp, ofAtom, htrue, hfalse, hnumeral, if_false, Bool.false_eq_true]
  | @num range value =>
      intro s hs
      obtain ⟨r, rfl⟩ := Sexp.content_eq_atom hs
      exact ⟨.num r value, by rw [ofSexp, ofAtom_write], rfl⟩
  | @bool range value =>
      intro s hs
      obtain ⟨r, rfl⟩ := Sexp.content_eq_atom hs
      exact ⟨.bool r value, by cases value <;> rfl, rfl⟩
  | lambda _ htype _ ih => exact readsBack_lambda htype ih
  | apply hvar _ _ ihhead ihargs => exact readsBack_apply hvar ihhead ihargs
  | cond _ _ _ ihguard ihthen ihelse => exact readsBack_cond ihguard ihthen ihelse
  | record hnodup _ _ ih => exact readsBack_record hnodup ih
  | project _ _ ih => exact readsBack_project ih
  | inject _ _ ih => exact readsBack_inject ih

theorem read_toText_of_wellFormed {e : Expr} (h : e.WellFormed) :
    ∃ e', read e.toText = .ok e' ∧ e'.content = e.content := by
  have hword : ∀ s ∈ [e.toSexp], s.OfWords := by simpa using toSexp_ofWords h
  obtain ⟨ss, hread, hss⟩ := Sexp.readAll_join (c := Byte.space) rfl hword
  obtain ⟨s, _, rfl, hs, hnil⟩ := List.map_eq_cons_iff.mp hss
  obtain rfl := List.map_eq_nil_iff.mp hnil
  obtain ⟨e', he', hcontent⟩ := readsBack_of_wellFormed h s hs
  refine ⟨e', ?_, hcontent⟩
  have htext : Text.join [Byte.space] ([e.toSexp].map Sexp.toText) = e.toText := by
    rw [toText_toSexp]
    rfl
  rw [read, ← htext, hread]
  exact he'

end Expr

end TypedSexp
