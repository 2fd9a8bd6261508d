import TypedSexp.Proofs.Expr.Relocate
import TypedSexp.Proofs.Sexp.Slices

namespace TypedSexp

open Sexp (IsNode TakenFrom)

namespace Expr

def children : Expr → List Expr
  | .var .. => []
  | .num .. => []
  | .bool .. => []
  | .lambda _ _ _ body => [body]
  | .apply _ head args => head :: args
  | .cond _ guard thenBranch elseBranch => [guard, thenBranch, elseBranch]
  | .record _ fields => fields.map Prod.snd
  | .project _ target _ => [target]
  | .inject _ _ payload => [payload]

inductive PartOf (part : Expr) : Expr → Prop
  | self : PartOf part part
  | inside {e child : Expr} : child ∈ e.children → PartOf part child → PartOf part e

def HasPlace (e : Expr) (r : Range) : Prop := ∃ part, PartOf part e ∧ part.range = r

theorem hasPlace_range (e : Expr) : e.HasPlace e.range := ⟨e, .self, rfl⟩

theorem HasPlace.inside {e child : Expr} {r : Range} (hchild : child ∈ e.children)
    (h : child.HasPlace r) : e.HasPlace r := by
  obtain ⟨part, hpart, hr⟩ := h
  exact ⟨part, .inside hchild hpart, hr⟩

def Spelled (s : Sexp) (e : Expr) : Prop := ofSexp s = .ok e ∧ e.range = s.range

inductive SpelledIn : List Sexp → List Expr → Prop
  | nil : SpelledIn [] []
  | cons {s : Sexp} {e : Expr} {ss : List Sexp} {es : List Expr} :
      Spelled s e → SpelledIn ss es → SpelledIn (s :: ss) (e :: es)
  | skip {s : Sexp} {ss : List Sexp} {es : List Expr} :
      SpelledIn ss es → SpelledIn (s :: ss) es

theorem SpelledIn.ranges {ss : List Sexp} {es : List Expr} (h : SpelledIn ss es) :
    (es.map Expr.range).Sublist (ss.map Sexp.range) := by
  induction h with
  | nil => exact .slnil
  | cons hspelled _ ih =>
      rw [List.map_cons, List.map_cons, hspelled.2]
      exact ih.cons_cons _
  | skip _ ih => exact ih.cons _

theorem SpelledIn.exists_of_mem {ss : List Sexp} {es : List Expr} (h : SpelledIn ss es) {e : Expr}
    (he : e ∈ es) : ∃ s ∈ ss, Spelled s e := by
  induction h with
  | nil => cases he
  | @cons s _ _ _ hspelled _ ih =>
      rcases List.mem_cons.mp he with rfl | he
      · exact ⟨s, by simp, hspelled⟩
      · obtain ⟨s', hs', hspelled'⟩ := ih he
        exact ⟨s', List.mem_cons_of_mem _ hs', hspelled'⟩
  | skip _ ih =>
      obtain ⟨s', hs', hspelled⟩ := ih he
      exact ⟨s', List.mem_cons_of_mem _ hs', hspelled⟩

structure SpelledBy (s : Sexp) (e : Expr) : Prop where
  spelled : Spelled s e
  children : SpelledIn s.elems e.children

def Spells (s : Sexp) : Prop := ∀ e, ofSexp s = .ok e → SpelledBy s e

theorem ofSexps_spelledIn {ss : List Sexp} {es : List Expr} (h : ∀ s ∈ ss, Spells s)
    (hread : ofSexps ss = .ok es) : SpelledIn ss es := by
  induction ss generalizing es with
  | nil =>
      cases hread
      exact .nil
  | cons s rest ih =>
      obtain ⟨hs, hrest⟩ := List.forall_mem_cons.mp h
      obtain ⟨e, he, hread⟩ := Except.bind_eq_ok_iff.mp hread
      obtain ⟨es', hes, hread⟩ := Except.bind_eq_ok_iff.mp hread
      cases hread
      exact .cons (hs e he).spelled (ih hrest hes)

theorem fieldsOf_spelledIn (range : Range) (seen : List Name) (ss : List Sexp)
    {fields : List (Name × Expr)} (h : ∀ s ∈ ss, Spells s) (hlength : ss.length % 2 = 0)
    (hread : fieldsOf range seen ss = .ok fields) : SpelledIn ss (fields.map Prod.snd) := by
  match ss with
  | [] =>
      cases hread
      exact .nil
  | [_] => simp at hlength
  | name :: value :: rest =>
      obtain ⟨field, -, hread⟩ := Except.bind_eq_ok_iff.mp hread
      obtain ⟨e, he, hread⟩ := Except.bind_eq_ok_iff.mp hread
      obtain ⟨fields', hfields, hread⟩ := Except.bind_eq_ok_iff.mp hread
      cases hread
      have hvalue := h value (by simp) e he
      have hrest := fieldsOf_spelledIn range (field :: seen) rest (by grind) (by grind) hfields
      exact .skip (.cons hvalue.spelled hrest)

theorem ofAtom_range {range : Range} {text : Text} {e : Expr} (h : ofAtom range text = .ok e) :
    e.range = range ∧ e.children = [] := by
  unfold ofAtom at h
  split at h
  · cases h
    exact ⟨rfl, rfl⟩
  · split at h
    · cases h
      exact ⟨rfl, rfl⟩
    · split at h
      · split at h
        · cases h
          exact ⟨rfl, rfl⟩
        · cases h
      · cases h
        exact ⟨rfl, rfl⟩

theorem spells_special {range : Range} {head : Sexp} {args : List Sexp} {form : Special}
    (hspecial : Special.ofHead? head = some form) (h : ∀ s ∈ args, Spells s) :
    Spells (.list range (head :: args)) := by
  intro e he
  have hread := he
  rw [ofSexp.eq_def] at hread
  simp only [hspecial] at hread
  cases form with
  | lambda =>
      simp only at hread
      split at hread
      case h_1 r param ty body =>
        obtain ⟨t, -, hread⟩ := Except.bind_eq_ok_iff.mp hread
        obtain ⟨e, hbody, hread⟩ := Except.bind_eq_ok_iff.mp hread
        cases hread
        exact ⟨⟨he, rfl⟩, .skip (.skip (.skip (.cons (h body (by simp) e hbody).spelled .nil)))⟩
      · cases hread
      · cases hread
  | cond =>
      simp only at hread
      split at hread
      case h_1 guard thenBranch elseBranch =>
        obtain ⟨g, hguard, hread⟩ := Except.bind_eq_ok_iff.mp hread
        obtain ⟨t, hthen, hread⟩ := Except.bind_eq_ok_iff.mp hread
        obtain ⟨e, helse, hread⟩ := Except.bind_eq_ok_iff.mp hread
        cases hread
        refine ⟨⟨he, rfl⟩, .skip (.cons (h guard (by simp) g hguard).spelled ?_)⟩
        refine .cons (h thenBranch (by simp) t hthen).spelled ?_
        exact .cons (h elseBranch (by simp) e helse).spelled .nil
      · cases hread
  | record =>
      simp only at hread
      split at hread
      · cases hread
      case isFalse hlength =>
        obtain ⟨fields, hfields, hread⟩ := Except.bind_eq_ok_iff.mp hread
        cases hread
        exact ⟨⟨he, rfl⟩, .skip (fieldsOf_spelledIn range [] args h (by omega) hfields)⟩
  | project =>
      simp only at hread
      split at hread
      case h_1 target r name =>
        obtain ⟨e, htarget, hread⟩ := Except.bind_eq_ok_iff.mp hread
        cases hread
        exact ⟨⟨he, rfl⟩, .skip (.cons (h target (by simp) e htarget).spelled (.skip .nil))⟩
      · cases hread
      · cases hread
  | inject =>
      simp only at hread
      split at hread
      case h_1 r variant payload =>
        obtain ⟨e, hpayload, hread⟩ := Except.bind_eq_ok_iff.mp hread
        cases hread
        exact ⟨⟨he, rfl⟩, .skip (.skip (.cons (h payload (by simp) e hpayload).spelled .nil))⟩
      · cases hread
      · cases hread

theorem ofSexp_spells (s : Sexp) : Spells s := by
  induction s using Sexp.induct with
  | atom range text =>
      intro e he
      obtain ⟨hrange, hchildren⟩ := ofAtom_range he
      refine ⟨⟨he, hrange⟩, ?_⟩
      rw [hchildren]
      exact .nil
  | list range elems ih =>
      cases elems with
      | nil =>
          intro e he
          cases he
      | cons head args =>
          obtain ⟨hhead, hargs⟩ := List.forall_mem_cons.mp ih
          cases hspecial : Special.ofHead? head with
          | some form => exact spells_special hspecial hargs
          | none =>
              intro e he
              have hread := he
              rw [ofSexp.eq_def] at hread
              simp only [hspecial] at hread
              obtain ⟨first, hfirst, hread⟩ := Except.bind_eq_ok_iff.mp hread
              obtain ⟨rest, hrest, hread⟩ := Except.bind_eq_ok_iff.mp hread
              cases hread
              refine ⟨⟨he, rfl⟩, .cons (hhead first hfirst).spelled ?_⟩
              exact ofSexps_spelledIn hargs hrest

end Expr

namespace Stmt

def children : Stmt → List Expr
  | .define _ _ value => [value]
  | .assign _ target value => [target, value]
  | .print _ value => [value]

theorem ofSexp_spelledIn {s : Sexp} {stmt : Stmt} (h : ofSexp s = .ok stmt) :
    stmt.range = s.range ∧ Expr.SpelledIn s.elems stmt.children := by
  have hspelled {s : Sexp} {e : Expr} (he : Expr.ofSexp s = .ok e) : Expr.Spelled s e :=
    (Expr.ofSexp_spells s e he).spelled
  match s with
  | .atom _ _ => cases h
  | .list _ [] => cases h
  | .list _ (.list _ _ :: _) => cases h
  | .list range (.atom _ head :: args) =>
      rw [ofSexp.eq_def] at h
      simp only at h
      split at h
      · split at h
        case h_1 r name value =>
          obtain ⟨e, he, h⟩ := Except.bind_eq_ok_iff.mp h
          cases h
          exact ⟨rfl, .skip (.skip (.cons (hspelled he) .nil))⟩
        · cases h
        · cases h
      · split at h
        case h_1 target value =>
          obtain ⟨t, ht, h⟩ := Except.bind_eq_ok_iff.mp h
          obtain ⟨e, he, h⟩ := Except.bind_eq_ok_iff.mp h
          cases h
          exact ⟨rfl, .skip (.cons (hspelled ht) (.cons (hspelled he) .nil))⟩
        · cases h
      · split at h
        case h_1 value =>
          obtain ⟨e, he, h⟩ := Except.bind_eq_ok_iff.mp h
          cases h
          exact ⟨rfl, .skip (.cons (hspelled he) .nil)⟩
        · cases h
      · cases h

end Stmt

structure Spans (source : Text) (range : Range) (parts : List Expr) : Prop where
  bounds : 1 ≤ range.start ∧ range.start < range.stop ∧ range.stop ≤ source.length + 1
  inside : ∀ e ∈ parts, range.start < e.range.start ∧ e.range.stop < range.stop
  ordered : parts.Pairwise fun e e' => e.range.stop ≤ e'.range.start

structure Expr.ExactIn (source : Text) (e : Expr) : Prop where
  spans : Spans source e.range e.children
  alone : ∃ e', Expr.read (e.range.slice source) = .ok e' ∧
    e'.relabel (Range.shift (e.range.start - 1)) id = e

structure Stmt.ExactIn (source : Text) (stmt : Stmt) : Prop where
  spans : Spans source stmt.range stmt.children
  alone : ∃ stmt', Script.read (stmt.range.slice source) = .ok [stmt'] ∧
    stmt'.relabel (Range.shift (stmt.range.start - 1)) id = stmt

variable {source : Text} {s : Sexp}

theorem Sexp.TakenFrom.spans {parts : List Expr} (h : TakenFrom source s)
    (hparts : Expr.SpelledIn s.elems parts) : Spans source s.range parts := by
  refine ⟨h.bounds, fun e he => ?_, ?_⟩
  · obtain ⟨s', hs', hspelled⟩ := hparts.exists_of_mem he
    cases s with
    | atom => cases hs'
    | list range elems =>
        rw [hspelled.2]
        exact h.strictly_inside hs'
  · have helems : s.elems.Pairwise fun s s' => s.range.stop ≤ s'.range.start := by
      cases s with
      | atom => exact .nil
      | list range elems => exact h.pairwise_elems
    have hranges := (List.pairwise_map (R := fun r r' : Range => r.stop ≤ r'.start)).mpr helems
    exact List.pairwise_map.mp (hranges.sublist hparts.ranges)

theorem Expr.exactIn_of_node {e : Expr} (hnode : IsNode source s) (he : ofSexp s = .ok e) :
    e.ExactIn source := by
  have hspells := ofSexp_spells s e he
  have hrange := hspells.spelled.2
  refine ⟨hrange ▸ hnode.takenFrom.spans hspells.children, ?_⟩
  obtain ⟨s', hread, hs'⟩ := hnode.takenFrom.readAll_slice
  rw [← hs', ofSexp_relocate] at he
  obtain ⟨e', he', heq⟩ := Except.relocate_eq_ok_iff.mp he
  refine ⟨e', ?_, hrange ▸ heq⟩
  rw [hrange, read, hread]
  exact he'

theorem Stmt.exactIn_of_node {stmt : Stmt} (hnode : IsNode source s)
    (hstmt : ofSexp s = .ok stmt) : stmt.ExactIn source := by
  obtain ⟨hrange, hchildren⟩ := ofSexp_spelledIn hstmt
  refine ⟨hrange ▸ hnode.takenFrom.spans hchildren, ?_⟩
  obtain ⟨s', hread, hs'⟩ := hnode.takenFrom.readAll_slice
  rw [← hs', ofSexp_relocate] at hstmt
  obtain ⟨stmt', hstmt', heq⟩ := Except.relocate_eq_ok_iff.mp hstmt
  refine ⟨stmt', ?_, hrange ▸ heq⟩
  rw [hrange, Script.read, hread]
  change Script.ofSexps [s'] = .ok [stmt']
  rw [Script.ofSexps, hstmt']
  rfl

theorem Expr.exists_node_of_partOf {e part : Expr} (hpart : PartOf part e)
    (hnode : IsNode source s) (he : ofSexp s = .ok e) :
    ∃ s', IsNode source s' ∧ Spelled s' part := by
  induction hpart generalizing s with
  | self => exact ⟨s, hnode, (ofSexp_spells s _ he).spelled⟩
  | inside hchild _ ih =>
      obtain ⟨s', hs', hspelled⟩ := (ofSexp_spells s _ he).children.exists_of_mem hchild
      exact ih (hnode.elem hs') hspelled.1

theorem Stmt.exists_node_of_partOf {stmt : Stmt} {e part : Expr} (he : e ∈ stmt.children)
    (hpart : Expr.PartOf part e) (hnode : IsNode source s) (hstmt : ofSexp s = .ok stmt) :
    ∃ s', IsNode source s' ∧ Expr.Spelled s' part := by
  obtain ⟨s', hs', hspelled⟩ := (ofSexp_spelledIn hstmt).2.exists_of_mem he
  exact Expr.exists_node_of_partOf hpart (hnode.elem hs') hspelled.1

theorem Script.ofSexps_ok {ss : List Sexp} {script : Script} (h : ofSexps ss = .ok script) :
    script.map Stmt.range = ss.map Sexp.range ∧
      ∀ stmt ∈ script, ∃ s ∈ ss, Stmt.ofSexp s = .ok stmt := by
  induction ss generalizing script with
  | nil =>
      cases h
      simp
  | cons s rest ih =>
      obtain ⟨stmt, hstmt, h⟩ := Except.bind_eq_ok_iff.mp h
      obtain ⟨script', hscript, h⟩ := Except.bind_eq_ok_iff.mp h
      cases h
      obtain ⟨hranges, hspelled⟩ := ih hscript
      refine ⟨?_, List.forall_mem_cons.mpr ⟨⟨s, by simp, hstmt⟩, fun stmt' hmem => ?_⟩⟩
      · rw [List.map_cons, List.map_cons, hranges, (Stmt.ofSexp_spelledIn hstmt).1]
      · obtain ⟨s', hs', hstmt'⟩ := hspelled stmt' hmem
        exact ⟨s', List.mem_cons_of_mem _ hs', hstmt'⟩

theorem Script.exists_node_of_mem {script : Script} {stmt : Stmt}
    (hread : Script.read source = .ok script) (hstmt : stmt ∈ script) :
    ∃ s, IsNode source s ∧ Stmt.ofSexp s = .ok stmt := by
  obtain ⟨ss, hss, hscript⟩ := Except.bind_eq_ok_iff.mp hread
  obtain ⟨s, hs, hspelled⟩ := (ofSexps_ok hscript).2 stmt hstmt
  exact ⟨s, ⟨ss, hss, s, hs, .self⟩, hspelled⟩

theorem Script.pairwise_of_read {script : Script} (hread : Script.read source = .ok script) :
    script.Pairwise fun stmt stmt' => stmt.range.stop ≤ stmt'.range.start := by
  obtain ⟨ss, hss, hscript⟩ := Except.bind_eq_ok_iff.mp hread
  have hordered := (List.pairwise_map (R := fun r r' : Range => r.stop ≤ r'.start)).mpr
    (Sexp.readAll_pairwise hss)
  rw [← (ofSexps_ok hscript).1] at hordered
  exact List.pairwise_map.mp hordered

theorem Expr.exists_node_of_read {e : Expr} (hread : Expr.read source = .ok e) :
    ∃ s, IsNode source s ∧ ofSexp s = .ok e := by
  obtain ⟨ss, hss, hread⟩ := Except.bind_eq_ok_iff.mp hread
  rcases ss with _ | ⟨s, _ | ⟨second, rest⟩⟩
  · cases hread
  · exact ⟨s, ⟨_, hss, s, by simp, .self⟩, hread⟩
  · cases hread

/-- Every node that reading gives stands where its range says: inside the text, strictly around its
parts, before its next sibling, and on bytes that by themselves are read as that node. -/
theorem reading_places_exact (source : Text) :
    (∀ script, Script.read source = .ok script →
      (script.Pairwise fun stmt stmt' => stmt.range.stop ≤ stmt'.range.start) ∧
      ∀ stmt ∈ script, stmt.ExactIn source ∧
        ∀ e ∈ stmt.children, ∀ part, Expr.PartOf part e → part.ExactIn source) ∧
    ∀ e, Expr.read source = .ok e → ∀ part, Expr.PartOf part e → part.ExactIn source := by
  refine ⟨fun script hread => ⟨Script.pairwise_of_read hread, fun stmt hstmt => ?_⟩,
    fun e hread part hpart => ?_⟩
  · obtain ⟨s, hnode, hspelled⟩ := Script.exists_node_of_mem hread hstmt
    refine ⟨Stmt.exactIn_of_node hnode hspelled, fun e he part hpart => ?_⟩
    obtain ⟨s', hnode', hpart'⟩ := Stmt.exists_node_of_partOf he hpart hnode hspelled
    exact Expr.exactIn_of_node hnode' hpart'.1
  · obtain ⟨s, hnode, hspelled⟩ := Expr.exists_node_of_read hread
    obtain ⟨s', hnode', hpart'⟩ := Expr.exists_node_of_partOf hpart hnode hspelled
    exact Expr.exactIn_of_node hnode' hpart'.1

theorem reading_places_exact_print :
    Script.read (utf8 "; sum\n (print (+ 1;\n 2))") = .ok [.print ⟨8, 25⟩
      (.apply ⟨15, 24⟩ (.var ⟨16, 17⟩ (utf8 "+")) [.num ⟨18, 19⟩ 1, .num ⟨22, 23⟩ 2])] ∧
    (Expr.num ⟨22, 23⟩ 2).ExactIn (utf8 "; sum\n (print (+ 1;\n 2))") := by
  have hread : Script.read (utf8 "; sum\n (print (+ 1;\n 2))") = .ok [.print ⟨8, 25⟩
      (.apply ⟨15, 24⟩ (.var ⟨16, 17⟩ (utf8 "+")) [.num ⟨18, 19⟩ 1, .num ⟨22, 23⟩ 2])] := rfl
  have hexact := (((reading_places_exact _).1 _ hread).2 _ List.mem_cons_self).2
  refine ⟨hread, hexact _ List.mem_cons_self _ (.inside ?_ .self)⟩
  simp [Expr.children]

end TypedSexp
