import TypedSexp.Expr.Surface
import TypedSexp.Proofs.Sexp.Relocate
import TypedSexp.Proofs.Sexp.Words

namespace TypedSexp

open Sexp (relocateAll_eq_map toText_relocate Form.wrongCount Form.wrongPart Form.repeated)

variable (f : Range → Range)

namespace Sexp.Form

variable {α β : Type} (g : α → β) (range : Range) (form expected : Text)

theorem wrongCount_relocate {args args' : List Sexp} (h : args'.length = args.length) :
    wrongCount (f range) form expected args' =
      (wrongCount range form expected args).relocate f g := by
  simp only [wrongCount, h, Except.relocate, Diagnostic.relocate]

theorem wrongPart_relocate (part : Sexp) :
    wrongPart (f range) form expected (part.relocate f) =
      (wrongPart range form expected part).relocate f g := by
  simp only [wrongPart, toText_relocate, Except.relocate, Diagnostic.relocate]

end Sexp.Form

open Sexp.Form (wrongCount_relocate wrongPart_relocate)

namespace Ty

def Moves (s : Sexp) : Prop := ofSexp (s.relocate f) = (ofSexp s).relocate f id

variable {f}

theorem memberName_relocate (range : Range) (kind : MemberKind) (seen : List Name) (s : Sexp) :
    memberName (f range) kind seen (s.relocate f) =
      (memberName range kind seen s).relocate f id := by
  cases s with
  | atom r name =>
      simp only [Sexp.relocate, memberName]
      split <;> rfl
  | list r elems => exact wrongPart_relocate f id range _ _ (.list r elems)

theorem ofSexps_relocate {ss : List Sexp} (h : ∀ s ∈ ss, Moves f s) :
    ofSexps (ss.map (Sexp.relocate f)) = (ofSexps ss).relocate f id := by
  induction ss with
  | nil => rfl
  | cons s rest ih =>
      obtain ⟨hs, hrest⟩ := List.forall_mem_cons.mp h
      simp only [List.map_cons, ofSexps, ih hrest]
      rw [hs]
      exact Except.relocate_bind fun t => Except.relocate_bind fun types => rfl

theorem flatMembers_relocate (range : Range) (kind : MemberKind) (seen : List Name)
    (ss : List Sexp) (h : ∀ s ∈ ss, Moves f s) :
    flatMembers (f range) kind seen (ss.map (Sexp.relocate f)) =
      (flatMembers range kind seen ss).relocate f id := by
  match ss with
  | [] => rfl
  | [_] => rfl
  | name :: ty :: rest =>
      have hty : Moves f ty := h ty (by simp)
      have hrest (seen : List Name) := flatMembers_relocate range kind seen rest (by grind)
      simp only [List.map_cons, flatMembers, memberName_relocate, hrest]
      rw [hty]
      exact Except.relocate_bind fun name => Except.relocate_bind fun t =>
        Except.relocate_bind fun entries => rfl

theorem pairedMembers_relocate (range : Range) (kind : MemberKind) (seen : List Name)
    (ss : List Sexp) (h : ∀ s ∈ ss, ∀ e ∈ s.elems, Moves f e) :
    pairedMembers (f range) kind seen (ss.map (Sexp.relocate f)) =
      (pairedMembers range kind seen ss).relocate f id := by
  match ss with
  | .list r [name, ty] :: rest =>
      have hty : Moves f ty := h _ List.mem_cons_self ty (by simp [Sexp.elems])
      have hrest (seen : List Name) := pairedMembers_relocate range kind seen rest (by grind)
      simp only [List.map_cons, Sexp.relocate, Sexp.relocateAll, pairedMembers,
        memberName_relocate, hrest]
      rw [hty]
      exact Except.relocate_bind fun name => Except.relocate_bind fun t =>
        Except.relocate_bind fun entries => rfl
  | [] => rfl
  | .atom _ _ :: _ => rfl
  | .list _ [] :: _ => rfl
  | .list _ [_] :: _ => rfl
  | .list _ (_ :: _ :: _ :: _) :: _ => rfl

theorem firstUnpaired?_relocate (ss : List Sexp) :
    firstUnpaired? (ss.map (Sexp.relocate f)) = (firstUnpaired? ss).map (Sexp.relocate f) := by
  rw [firstUnpaired?, List.find?_map]
  congr 2
  funext s
  rcases s with _ | ⟨_, _ | ⟨_, _ | ⟨_, _ | _⟩⟩⟩ <;> rfl

theorem moves_union {range r : Range} {head : Text} {args : List Sexp}
    (hhead : Head.ofText? head = some .union)
    (h : ∀ s ∈ args, ∀ e ∈ s.elems, Moves f e ∧ ∀ part ∈ e.elems, Moves f part) :
    Moves f (.list range (.atom r head :: args)) := by
  rw [Moves, Sexp.relocate, relocateAll_eq_map, List.map_cons, Sexp.relocate, ofSexp.eq_def,
    ofSexp.eq_def (.list range _)]
  simp only [hhead]
  rcases args with _ | ⟨first, _ | ⟨second, rest⟩⟩
  · rfl
  · have hparts := h first List.mem_cons_self
    rcases first with ⟨r, text⟩ | ⟨r, _ | ⟨⟨r', name⟩ | ⟨r', pair⟩, variants⟩⟩
    · exact wrongPart_relocate f id range _ _ (.atom r text)
    · rfl
    · have hmembers := flatMembers_relocate range .variant [] (.atom r' name :: variants)
        fun e he => (hparts e he).1
      simp only [List.map_cons, Sexp.relocate] at hmembers
      simp only [List.map_cons, List.map_nil, Sexp.relocate, relocateAll_eq_map, List.length_map,
        hmembers]
      split
      · exact wrongCount_relocate f id range _ _ (by simp)
      · exact Except.relocate_bind fun members => rfl
    · have hfirst := firstUnpaired?_relocate (f := f) (.list r' pair :: variants)
      have hmembers := pairedMembers_relocate range .variant [] (.list r' pair :: variants)
        fun e he => (hparts e he).2
      simp only [List.map_cons, Sexp.relocate, relocateAll_eq_map] at hfirst hmembers
      simp only [List.map_cons, List.map_nil, Sexp.relocate, relocateAll_eq_map, hfirst, hmembers]
      cases firstUnpaired? (.list r' pair :: variants) with
      | none => exact Except.relocate_bind fun members => rfl
      | some part => exact wrongPart_relocate f id range _ _ part
  · rcases first with _ | ⟨_, _ | ⟨_ | _, _⟩⟩ <;>
      exact wrongCount_relocate f id range _ _ (by simp)

theorem moves_compound {range r : Range} {head : Text} {args : List Sexp}
    (h : ∀ s ∈ args, Moves f s ∧ ∀ e ∈ s.elems, Moves f e ∧ ∀ part ∈ e.elems, Moves f part) :
    Moves f (.list range (.atom r head :: args)) := by
  have hargs : ∀ s ∈ args, Moves f s := fun s hs => (h s hs).1
  cases hhead : Head.ofText? head with
  | none =>
      rw [Moves, Sexp.relocate, relocateAll_eq_map, List.map_cons, Sexp.relocate, ofSexp.eq_def,
        ofSexp.eq_def (.list range _)]
      simp only [hhead]
      rfl
  | some form =>
      cases form with
      | arrow =>
          rw [Moves, Sexp.relocate, relocateAll_eq_map, List.map_cons, Sexp.relocate,
            ofSexp.eq_def, ofSexp.eq_def (.list range _)]
          simp only [hhead, List.length_map, ofSexps_relocate hargs]
          split
          · exact wrongCount_relocate f id range _ _ (List.length_map _)
          · exact Except.relocate_bind fun types => rfl
      | record =>
          rw [Moves, Sexp.relocate, relocateAll_eq_map, List.map_cons, Sexp.relocate,
            ofSexp.eq_def, ofSexp.eq_def (.list range _)]
          simp only [hhead, List.length_map, flatMembers_relocate range .field [] args hargs]
          split
          · exact wrongCount_relocate f id range _ _ (List.length_map _)
          · exact Except.relocate_bind fun members => rfl
      | union => exact moves_union hhead fun s hs => (h s hs).2

theorem moves_parts (s : Sexp) :
    Moves f s ∧ ∀ e ∈ s.elems, Moves f e ∧ ∀ part ∈ e.elems, Moves f part := by
  induction s using Sexp.induct with
  | atom range text =>
      refine ⟨?_, by simp [Sexp.elems]⟩
      simp only [Moves, Sexp.relocate, ofSexp]
      split
      · rfl
      · split <;> rfl
  | list range elems ih =>
      refine ⟨?_, fun e he => ⟨(ih e he).1, fun part hpart => ((ih e he).2 part hpart).1⟩⟩
      rcases elems with _ | ⟨⟨r, head⟩ | ⟨r, inner⟩, args⟩
      · rfl
      · exact moves_compound fun s hs => ih s (List.mem_cons_of_mem _ hs)
      · have htext := toText_relocate f (.list range (.list r inner :: args))
        simp only [Sexp.relocate, Sexp.relocateAll] at htext
        simp only [Moves, Sexp.relocate, Sexp.relocateAll, ofSexp, htext]
        rfl

variable (f) in
theorem ofSexp_relocate (s : Sexp) : ofSexp (s.relocate f) = (ofSexp s).relocate f id :=
  (moves_parts s).1

end Ty

namespace Expr

def Moves (s : Sexp) : Prop := ofSexp (s.relocate f) = (ofSexp s).relocate f (relabel f id)

variable {f}

theorem fieldName_relocate (range : Range) (seen : List Name) (s : Sexp) :
    fieldName (f range) seen (s.relocate f) = (fieldName range seen s).relocate f id := by
  cases s with
  | atom r name =>
      simp only [Sexp.relocate, fieldName]
      split <;> rfl
  | list r elems => exact wrongPart_relocate f id range _ _ (.list r elems)

theorem ofAtom_relocate (range : Range) (text : Text) :
    ofAtom (f range) text = (ofAtom range text).relocate f (relabel f id) := by
  unfold ofAtom
  split
  · rfl
  · split
    · rfl
    · split
      · cases Numeral.read text <;> rfl
      · rfl

theorem ofSexps_relocate {ss : List Sexp} (h : ∀ s ∈ ss, Moves f s) :
    ofSexps (ss.map (Sexp.relocate f)) = (ofSexps ss).relocate f (relabelAll f id) := by
  induction ss with
  | nil => rfl
  | cons s rest ih =>
      obtain ⟨hs, hrest⟩ := List.forall_mem_cons.mp h
      simp only [List.map_cons, ofSexps, ih hrest]
      rw [hs]
      exact Except.relocate_bind fun e => Except.relocate_bind fun args => rfl

theorem fieldsOf_relocate (range : Range) (seen : List Name) (ss : List Sexp)
    (h : ∀ s ∈ ss, Moves f s) :
    fieldsOf (f range) seen (ss.map (Sexp.relocate f)) =
      (fieldsOf range seen ss).relocate f (relabelFields f id) := by
  match ss with
  | [] => rfl
  | [_] => rfl
  | name :: value :: rest =>
      have hvalue : Moves f value := h value (by simp)
      have hrest (seen : List Name) := fieldsOf_relocate range seen rest (by grind)
      simp only [List.map_cons, fieldsOf, fieldName_relocate, hrest]
      rw [hvalue]
      exact Except.relocate_bind fun name => Except.relocate_bind fun e =>
        Except.relocate_bind fun fields => rfl

theorem ofHead?_relocate (s : Sexp) : Special.ofHead? (s.relocate f) = Special.ofHead? s := by
  cases s <;> rfl

theorem moves_special {range : Range} {head : Sexp} {args : List Sexp} {form : Special}
    (hspecial : Special.ofHead? head = some form) (h : ∀ s ∈ args, Moves f s) :
    Moves f (.list range (head :: args)) := by
  rw [Moves, Sexp.relocate, relocateAll_eq_map, List.map_cons, ofSexp.eq_def,
    ofSexp.eq_def (.list range _)]
  simp only [ofHead?_relocate, hspecial]
  cases form with
  | lambda =>
      rcases args with _ | ⟨_ | _, _ | ⟨ty, _ | ⟨body, _ | ⟨fourth, rest⟩⟩⟩⟩
      case cons.atom.cons.cons.nil r name =>
        have hbody : Moves f body := h body (by simp)
        simp only [List.map_cons, List.map_nil, Sexp.relocate, Ty.ofSexp_relocate]
        rw [hbody]
        exact Except.relocate_bind fun t => Except.relocate_bind fun e => rfl
      case cons.list.cons.cons.nil r elems =>
        exact wrongPart_relocate f (relabel f id) range _ _ (.list r elems)
      all_goals exact wrongCount_relocate f (relabel f id) range _ _ (by simp)
  | cond =>
      rcases args with _ | ⟨guard, _ | ⟨thenBranch, _ | ⟨elseBranch, _ | ⟨fourth, rest⟩⟩⟩⟩
      case cons.cons.cons.nil =>
        have hguard : Moves f guard := h guard (by simp)
        have hthen : Moves f thenBranch := h thenBranch (by simp)
        have helse : Moves f elseBranch := h elseBranch (by simp)
        simp only [List.map_cons, List.map_nil]
        rw [hguard, hthen, helse]
        exact Except.relocate_bind fun e₁ => Except.relocate_bind fun e₂ =>
          Except.relocate_bind fun e₃ => rfl
      all_goals exact wrongCount_relocate f (relabel f id) range _ _ (by simp)
  | record =>
      simp only [List.length_map, fieldsOf_relocate range [] args h]
      split
      · exact wrongCount_relocate f (relabel f id) range _ _ (List.length_map _)
      · exact Except.relocate_bind fun fields => rfl
  | project =>
      rcases args with _ | ⟨target, _ | ⟨_ | _, _ | ⟨third, rest⟩⟩⟩
      case cons.cons.atom.nil r name =>
        have htarget : Moves f target := h target (by simp)
        simp only [List.map_cons, List.map_nil, Sexp.relocate]
        rw [htarget]
        exact Except.relocate_bind fun e => rfl
      case cons.cons.list.nil r elems =>
        exact wrongPart_relocate f (relabel f id) range _ _ (.list r elems)
      all_goals exact wrongCount_relocate f (relabel f id) range _ _ (by simp)
  | inject =>
      rcases args with _ | ⟨_ | _, _ | ⟨payload, _ | ⟨third, rest⟩⟩⟩
      case cons.atom.cons.nil r name =>
        have hpayload : Moves f payload := h payload (by simp)
        simp only [List.map_cons, List.map_nil, Sexp.relocate]
        rw [hpayload]
        exact Except.relocate_bind fun e => rfl
      case cons.list.cons.nil r elems =>
        exact wrongPart_relocate f (relabel f id) range _ _ (.list r elems)
      all_goals exact wrongCount_relocate f (relabel f id) range _ _ (by simp)

variable (f) in
theorem ofSexp_relocate (s : Sexp) :
    ofSexp (s.relocate f) = (ofSexp s).relocate f (relabel f id) := by
  change Moves f s
  induction s using Sexp.induct with
  | atom range text =>
      simp only [Moves, Sexp.relocate, ofSexp]
      exact ofAtom_relocate range text
  | list range elems ih =>
      cases elems with
      | nil => rfl
      | cons head args =>
          obtain ⟨hhead, hargs⟩ := List.forall_mem_cons.mp ih
          cases hspecial : Special.ofHead? head with
          | some form => exact moves_special hspecial hargs
          | none =>
              rw [Moves, Sexp.relocate, relocateAll_eq_map, List.map_cons, ofSexp.eq_def,
                ofSexp.eq_def (.list range _)]
              simp only [ofHead?_relocate, hspecial, ofSexps_relocate hargs]
              rw [hhead]
              exact Except.relocate_bind fun e => Except.relocate_bind fun args => rfl

end Expr

namespace Stmt

theorem ofSexp_relocate (s : Sexp) :
    ofSexp (s.relocate f) = (ofSexp s).relocate f (relabel f id) := by
  match s with
  | .atom _ _ => rfl
  | .list range [] => rfl
  | .list range (.list r inner :: args) =>
      have htext := toText_relocate f (.list range (.list r inner :: args))
      simp only [Sexp.relocate, Sexp.relocateAll] at htext
      simp only [Sexp.relocate, Sexp.relocateAll, ofSexp, Sexp.range, htext]
      rfl
  | .list range (.atom r head :: args) =>
      rw [Sexp.relocate, relocateAll_eq_map, List.map_cons, Sexp.relocate, ofSexp.eq_def,
        ofSexp.eq_def (.list range _)]
      simp only
      cases Head.ofText? head with
      | none => rfl
      | some form =>
          cases form with
          | define =>
              rcases args with _ | ⟨_ | _, _ | ⟨value, _ | ⟨third, rest⟩⟩⟩
              case cons.atom.cons.nil r name =>
                simp only [List.map_cons, List.map_nil, Sexp.relocate, Expr.ofSexp_relocate]
                exact Except.relocate_bind fun e => rfl
              case cons.list.cons.nil r elems =>
                exact wrongPart_relocate f (relabel f id) range _ _ (.list r elems)
              all_goals exact wrongCount_relocate f (relabel f id) range _ _ (by simp)
          | assign =>
              rcases args with _ | ⟨target, _ | ⟨value, _ | ⟨third, rest⟩⟩⟩
              case cons.cons.nil =>
                simp only [List.map_cons, List.map_nil, Expr.ofSexp_relocate]
                exact Except.relocate_bind fun e₁ => Except.relocate_bind fun e₂ => rfl
              all_goals exact wrongCount_relocate f (relabel f id) range _ _ (by simp)
          | print =>
              rcases args with _ | ⟨value, _ | ⟨second, rest⟩⟩
              case cons.nil =>
                simp only [List.map_cons, List.map_nil, Expr.ofSexp_relocate]
                exact Except.relocate_bind fun e => rfl
              all_goals exact wrongCount_relocate f (relabel f id) range _ _ (by simp)

end Stmt

namespace Script

theorem ofSexps_relocate (ss : List Sexp) :
    ofSexps (ss.map (Sexp.relocate f)) =
      (ofSexps ss).relocate f (List.map (Stmt.relabel f id)) := by
  induction ss with
  | nil => rfl
  | cons s rest ih =>
      simp only [List.map_cons, ofSexps, Stmt.ofSexp_relocate, ih]
      exact Except.relocate_bind fun stmt => Except.relocate_bind fun script => rfl

end Script

end TypedSexp
