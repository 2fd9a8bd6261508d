import TypedSexp.Proofs.Numeral
import TypedSexp.Proofs.Ty.Grammar

namespace TypedSexp

open Sexp (Entry AreRead TakesNewAtoms readEntries)

namespace Expr

def Special.text : Special → Text
  | .lambda => utf8 "lambda"
  | .cond => utf8 "if"
  | .record => utf8 "rec"
  | .project => utf8 "field"
  | .inject => utf8 "union"

inductive Written : Sexp → Expr → Prop
  | bool {range : Range} {b : Bool} : Written (.atom range (Text.ofBool b)) (.bool range b)
  | num {range : Range} {text : Text} {n : UInt64} :
      Numeral.isNumeral text = true → Numeral.value text = n.toNat →
      Written (.atom range text) (.num range n)
  | var {range : Range} {text : Text} :
      (∀ b, text ≠ Text.ofBool b) → Numeral.isNumeral text = false →
      Written (.atom range text) (.var range text)
  | lambda {range place r : Range} {param : Name} {s s' : Sexp} {t : Ty} {body : Expr} :
      Ty.Written s t → Written s' body →
      Written (.list range [.atom place Special.lambda.text, .atom r param, s, s'])
        (.lambda range param t body)
  | cond {range place : Range} {s₁ s₂ s₃ : Sexp} {guard thenBranch elseBranch : Expr} :
      Written s₁ guard → Written s₂ thenBranch → Written s₃ elseBranch →
      Written (.list range [.atom place Special.cond.text, s₁, s₂, s₃])
        (.cond range guard thenBranch elseBranch)
  | record {range place : Range} {fields : List (Entry × Expr)} :
      (Members.names (fields.map Entry.binding)).Nodup →
      (∀ field ∈ fields, Written field.1.part field.2) →
      Written (.list range (.atom place Special.record.text ::
          Entry.flatAll (fields.map Prod.fst)))
        (.record range (fields.map Entry.binding))
  | project {range place r : Range} {s : Sexp} {target : Expr} {name : Name} :
      Written s target →
      Written (.list range [.atom place Special.project.text, s, .atom r name])
        (.project range target name)
  | inject {range place r : Range} {variant : Name} {s : Sexp} {payload : Expr} :
      Written s payload →
      Written (.list range [.atom place Special.inject.text, .atom r variant, s])
        (.inject range variant payload)
  | apply {range : Range} {s : Sexp} {head : Expr} {args : List (Sexp × Expr)} :
      (∀ place special, s ≠ .atom place (Special.text special)) →
      Written s head → (∀ arg ∈ args, Written arg.1 arg.2) →
      Written (.list range (s :: args.map Prod.fst)) (.apply range head (args.map Prod.snd))

theorem Special.eq_text_of_ofText? {t : Text} {special : Special} (h : ofText? t = some special) :
    t = special.text := by
  simp only [ofText?] at h
  iterate 5
    split at h
    · cases h
      assumption
  cases h

theorem Special.eq_atom_of_ofHead? {s : Sexp} {special : Special} (h : ofHead? s = some special) :
    ∃ place, s = .atom place special.text := by
  cases s with
  | atom place text => exact ⟨place, by rw [eq_text_of_ofText? h]⟩
  | list range elems => cases h

theorem ofAtom_ofBool (range : Range) (b : Bool) :
    ofAtom range (Text.ofBool b) = .ok (.bool range b) := by
  cases b <;> rfl

theorem ofAtom_var {range : Range} {text : Text} (hbool : ∀ b, text ≠ Text.ofBool b)
    (hnumeral : Numeral.isNumeral text = false) : ofAtom range text = .ok (.var range text) := by
  have htrue : text ≠ utf8 "true" := hbool true
  have hfalse : text ≠ utf8 "false" := hbool false
  simp only [ofAtom, htrue, hfalse, hnumeral, if_false, Bool.false_eq_true]

theorem ne_ofBool_of_isNumeral {text : Text} (h : Numeral.isNumeral text = true) (b : Bool) :
    text ≠ Text.ofBool b := by
  rintro rfl
  cases b <;> cases h

theorem ofAtom_num_iff {range : Range} {text : Text} (hnumeral : Numeral.isNumeral text = true)
    {e : Expr} :
    ofAtom range text = .ok e ↔ ∃ n, Numeral.value text = UInt64.toNat n ∧ e = .num range n := by
  have htrue : text ≠ utf8 "true" := ne_ofBool_of_isNumeral hnumeral true
  have hfalse : text ≠ utf8 "false" := ne_ofBool_of_isNumeral hnumeral false
  simp only [← Numeral.read_eq_ok_iff hnumeral, ofAtom, htrue, hfalse, hnumeral, if_false, if_true]
  cases Numeral.read text with
  | ok n => simp [eq_comm]
  | error fault => simp

theorem ofAtom_eq_ok_iff {range : Range} {text : Text} {e : Expr} :
    ofAtom range text = .ok e ↔ Written (.atom range text) e := by
  constructor
  · intro h
    by_cases hnumeral : Numeral.isNumeral text = true
    · obtain ⟨n, hvalue, rfl⟩ := (ofAtom_num_iff hnumeral).mp h
      exact .num hnumeral hvalue
    · by_cases hbool : ∃ b, text = Text.ofBool b
      · obtain ⟨b, rfl⟩ := hbool
        rw [ofAtom_ofBool] at h
        cases h
        exact .bool
      · rw [not_exists] at hbool
        rw [Bool.not_eq_true] at hnumeral
        rw [ofAtom_var hbool hnumeral] at h
        cases h
        exact .var hbool hnumeral
  · intro h
    cases h with
    | bool => exact ofAtom_ofBool _ _
    | num hnumeral hvalue => exact (ofAtom_num_iff hnumeral).mpr ⟨_, hvalue, rfl⟩
    | var hbool hnumeral => exact ofAtom_var hbool hnumeral

theorem takesNewAtoms_fieldName (range : Range) : TakesNewAtoms (fieldName range) :=
  Ty.takesNewAtoms_memberName range .field

theorem ofSexps_eq_mapM (ss : List Sexp) : ofSexps ss = ss.mapM ofSexp := by
  induction ss with
  | nil => rfl
  | cons s rest ih => rw [ofSexps, ih, List.mapM_cons]

theorem fieldsOf_eq_readEntries (range : Range) (seen : List Name) (ss : List Sexp) :
    fieldsOf range seen ss = readEntries (fieldName range) ofSexp seen ss :=
  Sexp.eq_readEntries (fun _ => rfl) (fun _ _ => rfl) (fun _ _ _ _ => by rw [fieldsOf]) seen ss

section

variable {range place : Range} {args : List Sexp} {e : Expr}

theorem ofSexp_lambda_iff :
    ofSexp (.list range (.atom place Special.lambda.text :: args)) = .ok e ↔
      ∃ r param s s' t body, args = [.atom r param, s, s'] ∧ Ty.ofSexp s = .ok t ∧
        ofSexp s' = .ok body ∧ e = .lambda range param t body := by
  have hspecial : Special.ofHead? (.atom place Special.lambda.text) = some .lambda := rfl
  rw [ofSexp.eq_def]
  simp only [hspecial]
  split
  · simp only [Except.bind_eq_ok_iff, Except.pure_eq_ok_iff]
    grind
  · exact iff_of_false (fun h => by cases h) (by grind)
  · exact iff_of_false (fun h => by cases h) (by grind)

theorem ofSexp_cond_iff :
    ofSexp (.list range (.atom place Special.cond.text :: args)) = .ok e ↔
      ∃ s₁ s₂ s₃ guard thenBranch elseBranch, args = [s₁, s₂, s₃] ∧ ofSexp s₁ = .ok guard ∧
        ofSexp s₂ = .ok thenBranch ∧ ofSexp s₃ = .ok elseBranch ∧
        e = .cond range guard thenBranch elseBranch := by
  have hspecial : Special.ofHead? (.atom place Special.cond.text) = some .cond := rfl
  rw [ofSexp.eq_def]
  simp only [hspecial]
  split
  · simp only [Except.bind_eq_ok_iff, Except.pure_eq_ok_iff]
    grind
  · exact iff_of_false (fun h => by cases h) (by grind)

theorem ofSexp_project_iff :
    ofSexp (.list range (.atom place Special.project.text :: args)) = .ok e ↔
      ∃ s r name target, args = [s, .atom r name] ∧ ofSexp s = .ok target ∧
        e = .project range target name := by
  have hspecial : Special.ofHead? (.atom place Special.project.text) = some .project := rfl
  rw [ofSexp.eq_def]
  simp only [hspecial]
  split
  · simp only [Except.bind_eq_ok_iff, Except.pure_eq_ok_iff]
    grind
  · exact iff_of_false (fun h => by cases h) (by grind)
  · exact iff_of_false (fun h => by cases h) (by grind)

theorem ofSexp_inject_iff :
    ofSexp (.list range (.atom place Special.inject.text :: args)) = .ok e ↔
      ∃ r variant s payload, args = [.atom r variant, s] ∧ ofSexp s = .ok payload ∧
        e = .inject range variant payload := by
  have hspecial : Special.ofHead? (.atom place Special.inject.text) = some .inject := rfl
  rw [ofSexp.eq_def]
  simp only [hspecial]
  split
  · simp only [Except.bind_eq_ok_iff, Except.pure_eq_ok_iff]
    grind
  · exact iff_of_false (fun h => by cases h) (by grind)
  · exact iff_of_false (fun h => by cases h) (by grind)

theorem ofSexp_record_iff :
    ofSexp (.list range (.atom place Special.record.text :: args)) = .ok e ↔
      ∃ fields : List (Entry × Expr), args = Entry.flatAll (fields.map Prod.fst) ∧
        AreRead ofSexp [] fields ∧ e = .record range (fields.map Entry.binding) := by
  have hspecial : Special.ofHead? (.atom place Special.record.text) = some .record := rfl
  rw [ofSexp.eq_def]
  simp only [hspecial]
  split
  · rename_i hodd
    refine iff_of_false (fun h => by cases h) ?_
    rintro ⟨fields, rfl, -⟩
    rw [Entry.length_flatAll] at hodd
    omega
  · rename_i heven
    simp only [fieldsOf_eq_readEntries, Except.bind_eq_ok_iff, Except.pure_eq_ok_iff]
    constructor
    · rintro ⟨members, hmembers, rfl⟩
      obtain ⟨entries, rfl⟩ := Sexp.eq_flatAll_of_readEntries (takesNewAtoms_fieldName range)
        (not_not.mp heven) hmembers
      obtain ⟨fields, rfl, rfl, hfields⟩ :=
        (Sexp.readEntries_flatAll_iff (takesNewAtoms_fieldName range)).mp hmembers
      exact ⟨fields, rfl, hfields, rfl⟩
    · rintro ⟨fields, rfl, hfields, rfl⟩
      exact ⟨_, (Sexp.readEntries_flatAll_iff (takesNewAtoms_fieldName range)).mpr
        ⟨fields, rfl, rfl, hfields⟩, rfl⟩

theorem ofSexp_apply_iff {s : Sexp} (hs : ∀ place special, s ≠ .atom place (Special.text special)) :
    ofSexp (.list range (s :: args)) = .ok e ↔
      ∃ (head : Expr) (pairs : List (Sexp × Expr)), args = pairs.map Prod.fst ∧
        ofSexp s = .ok head ∧ (∀ pair ∈ pairs, ofSexp pair.1 = .ok pair.2) ∧
        e = .apply range head (pairs.map Prod.snd) := by
  have hspecial : Special.ofHead? s = none := by
    refine Option.eq_none_iff_forall_ne_some.mpr fun special h => ?_
    obtain ⟨place, rfl⟩ := Special.eq_atom_of_ofHead? h
    exact hs place special rfl
  rw [ofSexp.eq_def]
  simp only [hspecial, ofSexps_eq_mapM, Except.bind_eq_ok_iff, Except.pure_eq_ok_iff,
    Except.mapM_eq_ok_iff]
  constructor
  · rintro ⟨head, hhead, _, ⟨pairs, rfl, rfl, hpairs⟩, rfl⟩
    exact ⟨head, pairs, rfl, hhead, hpairs, rfl⟩
  · rintro ⟨head, pairs, rfl, hhead, hpairs, rfl⟩
    exact ⟨head, hhead, _, ⟨pairs, rfl, rfl, hpairs⟩, rfl⟩

end

theorem written_of_ofSexp_special {range place : Range} {special : Special} {args : List Sexp}
    {e : Expr} (hparts : ∀ s ∈ args, ∀ e, ofSexp s = .ok e → Written s e)
    (h : ofSexp (.list range (.atom place special.text :: args)) = .ok e) :
    Written (.list range (.atom place special.text :: args)) e := by
  cases special with
  | lambda =>
      obtain ⟨r, param, s, s', t, body, rfl, ht, hbody, rfl⟩ := ofSexp_lambda_iff.mp h
      exact .lambda (Ty.ofSexp_eq_ok_iff.mp ht) (hparts s' (by simp) body hbody)
  | cond =>
      obtain ⟨s₁, s₂, s₃, guard, thenBranch, elseBranch, rfl, h₁, h₂, h₃, rfl⟩ :=
        ofSexp_cond_iff.mp h
      exact .cond (hparts s₁ (by simp) _ h₁) (hparts s₂ (by simp) _ h₂) (hparts s₃ (by simp) _ h₃)
  | record =>
      obtain ⟨fields, rfl, hfields, rfl⟩ := ofSexp_record_iff.mp h
      refine .record hfields.nodup fun field hfield => ?_
      exact hparts _ (Entry.part_mem_flatAll (List.mem_map_of_mem hfield)) _
        (hfields.read field hfield)
  | project =>
      obtain ⟨s, r, name, target, rfl, htarget, rfl⟩ := ofSexp_project_iff.mp h
      exact .project (hparts s (by simp) target htarget)
  | inject =>
      obtain ⟨r, variant, s, payload, rfl, hpayload, rfl⟩ := ofSexp_inject_iff.mp h
      exact .inject (hparts s (by simp) payload hpayload)

theorem written_of_ofSexp {s : Sexp} {e : Expr} (h : ofSexp s = .ok e) : Written s e := by
  induction s using Sexp.induct generalizing e with
  | atom range text => exact ofAtom_eq_ok_iff.mp h
  | list range elems ih =>
      match elems with
      | [] => cases h
      | s :: args =>
          have hparts : ∀ s ∈ args, ∀ e, ofSexp s = .ok e → Written s e :=
            fun s hs e he => ih s (List.mem_cons_of_mem _ hs) he
          by_cases hspecial : ∃ place special, s = .atom place (Special.text special)
          · obtain ⟨place, special, rfl⟩ := hspecial
            exact written_of_ofSexp_special hparts h
          · simp only [not_exists] at hspecial
            obtain ⟨head, pairs, rfl, hhead, hpairs, rfl⟩ := (ofSexp_apply_iff hspecial).mp h
            refine .apply hspecial (ih s List.mem_cons_self hhead) fun pair hpair => ?_
            exact hparts _ (List.mem_map_of_mem hpair) _ (hpairs pair hpair)

theorem Written.ofSexp_eq {s : Sexp} {e : Expr} (h : Written s e) : ofSexp s = .ok e := by
  induction h with
  | bool => exact ofAtom_eq_ok_iff.mpr .bool
  | num hnumeral hvalue => exact ofAtom_eq_ok_iff.mpr (.num hnumeral hvalue)
  | var hbool hnumeral => exact ofAtom_eq_ok_iff.mpr (.var hbool hnumeral)
  | lambda ht _ ihbody =>
      exact ofSexp_lambda_iff.mpr ⟨_, _, _, _, _, _, rfl, Ty.ofSexp_eq_ok_iff.mpr ht, ihbody, rfl⟩
  | cond _ _ _ ih₁ ih₂ ih₃ =>
      exact ofSexp_cond_iff.mpr ⟨_, _, _, _, _, _, rfl, ih₁, ih₂, ih₃, rfl⟩
  | record hnodup _ ih => exact ofSexp_record_iff.mpr ⟨_, rfl, ⟨hnodup, by simp, ih⟩, rfl⟩
  | project _ ih => exact ofSexp_project_iff.mpr ⟨_, _, _, _, rfl, ih, rfl⟩
  | inject _ ih => exact ofSexp_inject_iff.mpr ⟨_, _, _, _, rfl, ih, rfl⟩
  | apply hspecial _ _ ihhead ihargs =>
      exact (ofSexp_apply_iff hspecial).mpr ⟨_, _, rfl, ihhead, ihargs, rfl⟩

theorem ofSexp_eq_ok_iff {s : Sexp} {e : Expr} : ofSexp s = .ok e ↔ Written s e :=
  ⟨written_of_ofSexp, Written.ofSexp_eq⟩

theorem Written.head_ne {range r : Range} {s : Sexp} {ss : List Sexp} {head : Expr}
    {args : List Expr} (h : Written (.list range (s :: ss)) (.apply r head args)) :
    ∀ place special, s ≠ .atom place (Special.text special) := by
  cases h with
  | apply hspecial _ _ => exact hspecial

theorem atom_is_read_iff {range : Range} {text : Text} :
    (∃ e, ofSexp (.atom range text) = .ok e) ↔
      ¬(Numeral.isNumeral text = true ∧ 2 ^ 64 ≤ Numeral.value text) := by
  simp only [ofSexp_eq_ok_iff]
  constructor
  · rintro ⟨e, h⟩ ⟨hnumeral, hvalue⟩
    cases h with
    | bool => exact ne_ofBool_of_isNumeral hnumeral _ rfl
    | @num _ _ n _ hn =>
        have := n.toNat_lt
        omega
    | var _ hnumeral' => simp [hnumeral] at hnumeral'
  · intro h
    by_cases hnumeral : Numeral.isNumeral text = true
    · have hlt : Numeral.value text < 2 ^ 64 := by
        by_contra hle
        exact h ⟨hnumeral, Nat.le_of_not_lt hle⟩
      refine ⟨_, .num hnumeral (n := UInt64.ofNat (Numeral.value text)) ?_⟩
      exact (UInt64.toNat_ofNat_of_lt hlt).symm
    · by_cases hbool : ∃ b, text = Text.ofBool b
      · obtain ⟨b, rfl⟩ := hbool
        exact ⟨_, .bool⟩
      · exact ⟨_, .var (not_exists.mp hbool) (Bool.eq_false_iff.mpr hnumeral)⟩

end Expr

namespace Stmt

inductive Written : Sexp → Stmt → Prop
  | define {range place r : Range} {name : Name} {s : Sexp} {value : Expr} :
      Expr.Written s value →
      Written (.list range [.atom place (utf8 "define"), .atom r name, s])
        (.define range name value)
  | assign {range place : Range} {s s' : Sexp} {target value : Expr} :
      Expr.Written s target → Expr.Written s' value →
      Written (.list range [.atom place (utf8 "assign"), s, s']) (.assign range target value)
  | print {range place : Range} {s : Sexp} {value : Expr} :
      Expr.Written s value →
      Written (.list range [.atom place (utf8 "print"), s]) (.print range value)

def Head.text : Head → Text
  | .define => utf8 "define"
  | .assign => utf8 "assign"
  | .print => utf8 "print"

theorem Head.eq_text_of_ofText? {t : Text} {head : Head} (h : ofText? t = some head) :
    t = head.text := by
  simp only [ofText?] at h
  iterate 3
    split at h
    · cases h
      assumption
  cases h

theorem written_of_ofSexp {s : Sexp} {stmt : Stmt} (h : ofSexp s = .ok stmt) : Written s stmt := by
  match s with
  | .atom _ _ => cases h
  | .list _ [] => cases h
  | .list _ (.list _ _ :: _) => cases h
  | .list range (.atom place text :: args) =>
      cases hhead : Head.ofText? text with
      | none =>
          simp only [ofSexp, hhead] at h
          cases h
      | some head =>
          obtain rfl := Head.eq_text_of_ofText? hhead
          simp only [ofSexp, hhead] at h
          cases head with
          | define =>
              simp only at h
              split at h
              · simp only [Except.bind_eq_ok_iff, Except.pure_eq_ok_iff] at h
                obtain ⟨value, hvalue, rfl⟩ := h
                exact .define (Expr.ofSexp_eq_ok_iff.mp hvalue)
              · cases h
              · cases h
          | assign =>
              simp only at h
              split at h
              · simp only [Except.bind_eq_ok_iff, Except.pure_eq_ok_iff] at h
                obtain ⟨target, htarget, value, hvalue, rfl⟩ := h
                exact .assign (Expr.ofSexp_eq_ok_iff.mp htarget) (Expr.ofSexp_eq_ok_iff.mp hvalue)
              · cases h
          | print =>
              simp only at h
              split at h
              · simp only [Except.bind_eq_ok_iff, Except.pure_eq_ok_iff] at h
                obtain ⟨value, hvalue, rfl⟩ := h
                exact .print (Expr.ofSexp_eq_ok_iff.mp hvalue)
              · cases h

theorem Written.ofSexp_eq {s : Sexp} {stmt : Stmt} (h : Written s stmt) : ofSexp s = .ok stmt := by
  cases h with
  | @define range place r name s value hvalue =>
      change (do return Stmt.define range name (← Expr.ofSexp s)) = _
      rw [Expr.ofSexp_eq_ok_iff.mpr hvalue]
      rfl
  | @assign range place s s' target value htarget hvalue =>
      change (do return Stmt.assign range (← Expr.ofSexp s) (← Expr.ofSexp s')) = _
      rw [Expr.ofSexp_eq_ok_iff.mpr htarget, Expr.ofSexp_eq_ok_iff.mpr hvalue]
      rfl
  | @print range place s value hvalue =>
      change (do return Stmt.print range (← Expr.ofSexp s)) = _
      rw [Expr.ofSexp_eq_ok_iff.mpr hvalue]
      rfl

end Stmt

theorem reading_takes_just_the_grammar :
    (∀ s t, Ty.ofSexp s = .ok t ↔ Ty.Written s t) ∧
      (∀ s e, Expr.ofSexp s = .ok e ↔ Expr.Written s e) ∧
      (∀ s stmt, Stmt.ofSexp s = .ok stmt ↔ Stmt.Written s stmt) ∧
      (∀ range text, (∃ e, Expr.ofSexp (.atom range text) = .ok e) ↔
        ¬(Numeral.isNumeral text = true ∧ 2 ^ 64 ≤ Numeral.value text)) ∧
      (∀ range place special args r head es,
        Expr.ofSexp (.list range (.atom place (Expr.Special.text special) :: args)) ≠
          .ok (.apply r head es)) ∧
      ∀ range place inner (entries : List Entry),
        Ty.ofSexp (.list range [.atom place (utf8 "union"), .list inner (Entry.flatAll entries)]) =
          Ty.ofSexp
            (.list range [.atom place (utf8 "union"), .list inner (entries.map Entry.paired)]) := by
  refine ⟨fun s t => Ty.ofSexp_eq_ok_iff, fun s e => Expr.ofSexp_eq_ok_iff,
    fun s stmt => ⟨Stmt.written_of_ofSexp, Stmt.Written.ofSexp_eq⟩,
    fun range text => Expr.atom_is_read_iff, ?_, ?_⟩
  · intro range place special args r head es h
    exact (Expr.ofSexp_eq_ok_iff.mp h).head_ne place special rfl
  · intro range place inner entries
    rw [Ty.ofSexp_union_flat, Ty.ofSexp_union_paired]

end TypedSexp
