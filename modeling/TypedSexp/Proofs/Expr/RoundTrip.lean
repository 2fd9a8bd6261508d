import TypedSexp.Proofs.Expr.Printing
import TypedSexp.Proofs.Legacy.Reading

namespace TypedSexp

namespace Expr

theorem toTextArgs_contentAll {args : List Expr} (h : ∀ e ∈ args, e.content.toText = e.toText) :
    toTextArgs (contentAll args) = toTextArgs args := by
  induction args with
  | nil => rfl
  | cons e rest ih =>
      obtain ⟨he, hrest⟩ := List.forall_mem_cons.mp h
      simp only [contentAll, toTextArgs, he, ih hrest]

theorem toTextFields_contentFields {fields : List (Name × Expr)}
    (h : ∀ field ∈ fields, field.2.content.toText = field.2.toText) :
    toTextFields (contentFields fields) = toTextFields fields := by
  induction fields with
  | nil => rfl
  | cons field rest ih =>
      obtain ⟨hfield, hrest⟩ := List.forall_mem_cons.mp h
      simp only [contentFields, toTextFields, hfield, ih hrest]

theorem toText_content (e : Expr) : e.content.toText = e.toText := by
  induction e using Expr.induct with
  | var => rfl
  | num => rfl
  | bool => rfl
  | lambda range param paramType body ih => simp only [content, toText, Ty.toText_canonical, ih]
  | apply range head args ihhead ihargs =>
      simp only [content, toText, ihhead, toTextArgs_contentAll ihargs]
  | cond range guard thenBranch elseBranch ihguard ihthen ihelse =>
      simp only [content, toText, ihguard, ihthen, ihelse]
  | record range fields ih => simp only [content, toText, toTextFields_contentFields ih]
  | project range target name ih => simp only [content, toText, ih]
  | inject range variant payload ih => simp only [content, toText, ih]

end Expr

namespace Stmt

def content : Stmt → Stmt
  | .define _ name value => .define Range.none name value.content
  | .assign _ target value => .assign Range.none target.content value.content
  | .print _ value => .print Range.none value.content

def toSexp : Stmt → Sexp
  | .define _ name value =>
      .list Range.none [.atom Range.none (utf8 "define"), .atom Range.none name, value.toSexp]
  | .assign _ target value =>
      .list Range.none [.atom Range.none (utf8 "assign"), target.toSexp, value.toSexp]
  | .print _ value => .list Range.none [.atom Range.none (utf8 "print"), value.toSexp]

theorem toText_content (stmt : Stmt) : stmt.content.toText = stmt.toText := by
  cases stmt <;> simp only [content, toText, Expr.toText_content]

theorem toText_toSexp (stmt : Stmt) : stmt.toText = stmt.toSexp.toText := by
  cases stmt with
  | define range name value =>
      have hhead : utf8 "(define " = Byte.openParen :: (utf8 "define" ++ [Byte.space]) := rfl
      simp [toText, toSexp, Sexp.toText, Sexp.toTextAll_cons, Expr.toText_toSexp, hhead,
        Sexp.utf8_space, Sexp.utf8_close]
  | assign range target value =>
      have hhead : utf8 "(assign " = Byte.openParen :: (utf8 "assign" ++ [Byte.space]) := rfl
      simp [toText, toSexp, Sexp.toText, Sexp.toTextAll_cons, Expr.toText_toSexp, hhead,
        Sexp.utf8_space, Sexp.utf8_close]
  | print range value =>
      have hhead : utf8 "(print " = Byte.openParen :: (utf8 "print" ++ [Byte.space]) := rfl
      simp [toText, toSexp, Sexp.toText, Sexp.toTextAll_cons, Expr.toText_toSexp, hhead,
        Sexp.utf8_close]

theorem toSexp_ofWords {stmt : Stmt} (h : stmt.WellFormed) : stmt.toSexp.OfWords := by
  cases h with
  | define hword hvalue =>
      refine .list ?_
      simp only [List.forall_mem_cons]
      exact ⟨.atom (by decide), .atom hword, Expr.toSexp_ofWords hvalue, by simp⟩
  | assign htarget hvalue =>
      refine .list ?_
      simp only [List.forall_mem_cons]
      exact ⟨.atom (by decide), Expr.toSexp_ofWords htarget, Expr.toSexp_ofWords hvalue, by simp⟩
  | print hvalue =>
      refine .list ?_
      simp only [List.forall_mem_cons]
      exact ⟨.atom (by decide), Expr.toSexp_ofWords hvalue, by simp⟩

theorem ofSexp_of_content {stmt : Stmt} (h : stmt.WellFormed) {s : Sexp}
    (hs : s.content = stmt.toSexp.content) :
    ∃ stmt', ofSexp s = .ok stmt' ∧ stmt'.content = stmt.content := by
  cases h with
  | @define range name value hword hvalue =>
      obtain ⟨r₁, r₂, args, rfl, hargs⟩ := Sexp.content_eq_form hs
      simp only [List.map_cons, List.map_nil, List.map_eq_cons_iff, List.map_eq_nil_iff] at hargs
      obtain ⟨first, _, rfl, hfirst, second, _, rfl, hsecond, rfl⟩ := hargs
      obtain ⟨r, rfl⟩ := Sexp.content_eq_atom hfirst
      obtain ⟨value', hvalue', hcontent⟩ := Expr.readsBack_of_wellFormed hvalue second hsecond
      refine ⟨.define r₁ name value', ?_, by simp only [content, hcontent]⟩
      have hhead : Head.ofText? (utf8 "define") = some .define := rfl
      simp only [ofSexp, hhead, hvalue']
      rfl
  | @assign range target value htarget hvalue =>
      obtain ⟨r₁, r₂, args, rfl, hargs⟩ := Sexp.content_eq_form hs
      simp only [List.map_cons, List.map_nil, List.map_eq_cons_iff, List.map_eq_nil_iff] at hargs
      obtain ⟨first, _, rfl, hfirst, second, _, rfl, hsecond, rfl⟩ := hargs
      obtain ⟨target', htarget', hcontent₁⟩ := Expr.readsBack_of_wellFormed htarget first hfirst
      obtain ⟨value', hvalue', hcontent₂⟩ := Expr.readsBack_of_wellFormed hvalue second hsecond
      refine ⟨.assign r₁ target' value', ?_, by simp only [content, hcontent₁, hcontent₂]⟩
      have hhead : Head.ofText? (utf8 "assign") = some .assign := rfl
      simp only [ofSexp, hhead, htarget', hvalue']
      rfl
  | @print range value hvalue =>
      obtain ⟨r₁, r₂, args, rfl, hargs⟩ := Sexp.content_eq_form hs
      simp only [List.map_cons, List.map_nil, List.map_eq_cons_iff, List.map_eq_nil_iff] at hargs
      obtain ⟨first, _, rfl, hfirst, rfl⟩ := hargs
      obtain ⟨value', hvalue', hcontent⟩ := Expr.readsBack_of_wellFormed hvalue first hfirst
      refine ⟨.print r₁ value', ?_, by simp only [content, hcontent]⟩
      have hhead : Head.ofText? (utf8 "print") = some .print := rfl
      simp only [ofSexp, hhead, hvalue']
      rfl

end Stmt

namespace Script

theorem ofSexps_of_content {script : Script} (h : ∀ stmt ∈ script, stmt.WellFormed)
    {ss : List Sexp} (hss : ss.map Sexp.content = (script.map Stmt.toSexp).map Sexp.content) :
    ∃ script' : Script, ofSexps ss = .ok script' ∧
      script'.map Stmt.content = script.map Stmt.content := by
  induction script generalizing ss with
  | nil =>
      obtain rfl : ss = [] := by simpa using hss
      exact ⟨[], rfl, rfl⟩
  | cons stmt rest ih =>
      obtain ⟨hstmt, hrest⟩ := List.forall_mem_cons.mp h
      obtain ⟨s, tail, rfl, hs, htail⟩ := List.map_eq_cons_iff.mp hss
      obtain ⟨stmt', hstmt', hcontent⟩ := Stmt.ofSexp_of_content hstmt hs
      obtain ⟨rest', hrest', hcontents⟩ := ih hrest htail
      refine ⟨stmt' :: rest', ?_, by simp only [List.map_cons, hcontent, hcontents]⟩
      rw [ofSexps, hstmt', hrest']
      rfl

theorem read_toText_of_wellFormed {script : Script} (h : ∀ stmt ∈ script, stmt.WellFormed) :
    ∃ script' : Script, read script.toText = .ok script' ∧
      script'.map Stmt.content = script.map Stmt.content := by
  have hword : ∀ s ∈ script.map Stmt.toSexp, s.OfWords := by
    intro s hs
    obtain ⟨stmt, hstmt, rfl⟩ := List.mem_map.mp hs
    exact Stmt.toSexp_ofWords (h stmt hstmt)
  obtain ⟨ss, hread, hss⟩ := Sexp.readAll_join (c := Byte.newline) rfl hword
  obtain ⟨script', hscript', hcontent⟩ := ofSexps_of_content h hss
  refine ⟨script', ?_, hcontent⟩
  have htext : Text.join [Byte.newline] ((script.map Stmt.toSexp).map Sexp.toText) =
      script.toText := by
    rw [toText, List.map_map]
    congr 1
    exact List.map_congr_left fun stmt _ => (stmt.toText_toSexp).symm
  rw [read, ← htext, hread]
  exact hscript'

theorem toText_of_content {script script' : Script}
    (hcontent : script'.map Stmt.content = script.map Stmt.content) :
    script'.toText = script.toText := by
  have htext (p : Script) : p.map Stmt.toText = (p.map Stmt.content).map Stmt.toText := by
    rw [List.map_map]
    exact List.map_congr_left fun stmt _ => stmt.toText_content.symm
  rw [toText, toText, htext script, htext script', hcontent]

/-- Whatever was read, also from the legacy grammar, is recovered from its printed form, and so is
every expression and script that keeps to what reading gives. Printing what was read once more gives
the same text. -/
theorem reading_inverts_printing :
    (∀ source e, Expr.read source = .ok e ∨ Legacy.read source = .ok e →
      ∃ e', Expr.read e.toText = .ok e' ∧ e'.content = e.content) ∧
    (∀ source script, read source = .ok script →
      (∀ stmt ∈ script, ∃ stmt', read stmt.toText = .ok [stmt'] ∧ stmt'.content = stmt.content) ∧
      ∃ script' : Script, read script.toText = .ok script' ∧
        script'.map Stmt.content = script.map Stmt.content ∧ script'.toText = script.toText) ∧
    (∀ e : Expr, e.WellFormed → ∃ e', Expr.read e.toText = .ok e' ∧ e'.content = e.content) ∧
    ∀ script : Script, (∀ stmt ∈ script, stmt.WellFormed) →
      ∃ script' : Script, read script.toText = .ok script' ∧
        script'.map Stmt.content = script.map Stmt.content := by
  refine ⟨?_, ?_, fun e he => Expr.read_toText_of_wellFormed he,
    fun script hscript => read_toText_of_wellFormed hscript⟩
  · rintro source e (hread | hread)
    · exact Expr.read_toText_of_wellFormed
        (Expr.Readable.wellFormed ((Expr.read_ensures source).of_ok hread))
    · exact Expr.read_toText_of_wellFormed
        (Expr.Readable.wellFormed ((Legacy.read_readable source).of_ok hread))
  · intro source script hread
    have hreadable := (read_ensures source).of_ok hread
    have hwellFormed : ∀ stmt ∈ script, stmt.WellFormed := fun stmt hstmt =>
      (hreadable stmt hstmt).wellFormed
    refine ⟨fun stmt hstmt => ?_, ?_⟩
    · have hsingle : ∀ other ∈ ([stmt] : Script), other.WellFormed := by
        simpa using hwellFormed stmt hstmt
      obtain ⟨script', hscript', hcontent⟩ := read_toText_of_wellFormed hsingle
      obtain ⟨stmt', _, rfl, hstmt', hnil⟩ := List.map_eq_cons_iff.mp hcontent
      obtain rfl := List.map_eq_nil_iff.mp hnil
      exact ⟨stmt', hscript', hstmt'⟩
    · obtain ⟨script', hscript', hcontent⟩ := read_toText_of_wellFormed hwellFormed
      exact ⟨script', hscript', hcontent, toText_of_content hcontent⟩

theorem reading_inverts_printing_legacy :
    ∃ e e', Legacy.read (utf8 "(if (== 1 2) then (+ 3 4) else 5)") = .ok e ∧
      Expr.read e.toText = .ok e' ∧ e'.content = e.content := by
  obtain ⟨e', hread, hcontent⟩ := reading_inverts_printing.1
    (utf8 "(if (== 1 2) then (+ 3 4) else 5)") _ (.inr rfl)
  exact ⟨_, e', rfl, hread, hcontent⟩

end Script

end TypedSexp
