import TypedSexp.Proofs.Expr.WellFormed
import TypedSexp.Proofs.Sexp.Balance

namespace Except

variable {ε α β : Type} {E F : ε → Prop}

def FailsWith (x : Except ε α) (E : ε → Prop) : Prop := x.Ensures (fun _ => True) E

theorem FailsWith.ok (a : α) : (Except.ok a : Except ε α).FailsWith E := trivial

theorem FailsWith.error {e : ε} (he : E e) : (Except.error e : Except ε α).FailsWith E := he

theorem FailsWith.bind {x : Except ε α} {f : α → Except ε β} (hx : x.FailsWith E)
    (hf : ∀ a, (f a).FailsWith E) : (x >>= f).FailsWith E := by
  rw [FailsWith, ensures_bind]
  exact hx.imp fun a _ => hf a

theorem FailsWith.mono {x : Except ε α} (hx : x.FailsWith E) (h : ∀ e, E e → F e) :
    x.FailsWith F :=
  Ensures.mono hx (fun _ ha => ha) h

end Except

namespace TypedSexp

structure Diagnostic.Reports (stage : Stage) (d : Diagnostic) : Prop where
  stage_eq : d.stage = stage
  message : stage.toText ++ utf8 " error: " <+: d.message

inductive Cause.IsOfForm : Cause → Prop
  | malformed {form expected got : Text} : IsOfForm (.malformedForm form expected got)
  | unknown {what form : Text} : IsOfForm (.unknownForm what form)
  | literal {text reason : Text} : IsOfForm (.badLiteral text reason)

theorem Cause.IsOfForm.reports {d : Diagnostic} (h : d.cause.IsOfForm) : d.Reports .parse := by
  obtain ⟨range, cause⟩ := d
  cases h <;> exact ⟨rfl, _, rfl⟩

namespace Ty

theorem memberName_failsWith (range : Range) (kind : MemberKind) (seen : List Name) (s : Sexp) :
    (memberName range kind seen s).FailsWith fun d => d.cause.IsOfForm := by
  cases s with
  | atom r name =>
      simp only [memberName]
      split
      · exact .error .malformed
      · exact .ok _
  | list r elems => exact .error .malformed

mutual

theorem ofSexp_failsWith (s : Sexp) : (ofSexp s).FailsWith fun d => d.cause.IsOfForm := by
  match s with
  | .atom range text =>
      simp only [ofSexp]
      split
      · exact .ok _
      · split
        · exact .ok _
        · exact .error .unknown
  | .list range [] => exact .error .unknown
  | .list range (.list r elems :: args) => exact .error .unknown
  | .list range (.atom r head :: args) =>
      rw [ofSexp.eq_def]
      simp only
      split
      · split
        · exact .error .malformed
        · exact (ofSexps_failsWith args).bind fun types => .ok _
      · split
        · exact .error .malformed
        · exact (flatMembers_failsWith range .field [] args).bind fun members => .ok _
      · match args with
        | [] => exact .error .malformed
        | [.atom _ _] => exact .error .malformed
        | [.list _ []] => exact .ok _
        | [.list _ (.list r pair :: variants)] =>
            simp only
            split
            · exact .error .malformed
            · exact (pairedMembers_failsWith range .variant [] (.list r pair :: variants)).bind
                fun members => .ok _
        | [.list _ (.atom r name :: variants)] =>
            simp only
            split
            · exact .error .malformed
            · exact (flatMembers_failsWith range .variant [] (.atom r name :: variants)).bind
                fun members => .ok _
        | first :: second :: rest =>
            rcases first with _ | ⟨_, _ | ⟨_ | _, _⟩⟩ <;> exact .error .malformed
      · exact .error .unknown

theorem ofSexps_failsWith (ss : List Sexp) :
    (ofSexps ss).FailsWith fun d => d.cause.IsOfForm := by
  match ss with
  | [] => exact .ok _
  | s :: rest =>
      exact (ofSexp_failsWith s).bind fun t => (ofSexps_failsWith rest).bind fun types => .ok _

theorem flatMembers_failsWith (range : Range) (kind : MemberKind) (seen : List Name)
    (ss : List Sexp) : (flatMembers range kind seen ss).FailsWith fun d => d.cause.IsOfForm := by
  match ss with
  | [] => exact .ok _
  | [_] => exact .ok _
  | name :: ty :: rest =>
      refine (memberName_failsWith range kind seen name).bind fun name => ?_
      refine (ofSexp_failsWith ty).bind fun t => ?_
      exact (flatMembers_failsWith range kind (name :: seen) rest).bind fun members => .ok _

theorem pairedMembers_failsWith (range : Range) (kind : MemberKind) (seen : List Name)
    (ss : List Sexp) : (pairedMembers range kind seen ss).FailsWith fun d => d.cause.IsOfForm := by
  match ss with
  | .list _ [name, ty] :: rest =>
      refine (memberName_failsWith range kind seen name).bind fun name => ?_
      refine (ofSexp_failsWith ty).bind fun t => ?_
      exact (pairedMembers_failsWith range kind (name :: seen) rest).bind fun members => .ok _
  | [] => exact .ok _
  | .atom _ _ :: _ => exact .ok _
  | .list _ [] :: _ => exact .ok _
  | .list _ [_] :: _ => exact .ok _
  | .list _ (_ :: _ :: _ :: _) :: _ => exact .ok _

end

end Ty

namespace Expr

theorem ofAtom_failsWith (range : Range) (text : Text) :
    (ofAtom range text).FailsWith fun d => d.cause.IsOfForm := by
  unfold ofAtom
  split
  · exact .ok _
  · split
    · exact .ok _
    · split
      · split
        · exact .ok _
        · exact .error .literal
      · exact .ok _

theorem fieldName_failsWith (range : Range) (seen : List Name) (s : Sexp) :
    (fieldName range seen s).FailsWith fun d => d.cause.IsOfForm := by
  cases s with
  | atom r name =>
      simp only [fieldName]
      split
      · exact .error .malformed
      · exact .ok _
  | list r elems => exact .error .malformed

theorem ofSexps_failsWith {ss : List Sexp}
    (h : ∀ s ∈ ss, (ofSexp s).FailsWith fun d => d.cause.IsOfForm) :
    (ofSexps ss).FailsWith fun d => d.cause.IsOfForm := by
  induction ss with
  | nil => exact .ok _
  | cons s rest ih =>
      obtain ⟨hs, hrest⟩ := List.forall_mem_cons.mp h
      exact hs.bind fun e => (ih hrest).bind fun es => .ok _

theorem fieldsOf_failsWith (range : Range) (seen : List Name) (ss : List Sexp)
    (h : ∀ s ∈ ss, (ofSexp s).FailsWith fun d => d.cause.IsOfForm) :
    (fieldsOf range seen ss).FailsWith fun d => d.cause.IsOfForm := by
  match ss with
  | [] => exact .ok _
  | [_] => exact .ok _
  | name :: value :: rest =>
      have hrest : ∀ s ∈ rest, (ofSexp s).FailsWith fun d => d.cause.IsOfForm :=
        fun s hs => h s (by simp [hs])
      refine (fieldName_failsWith range seen name).bind fun name => ?_
      refine (h value (by simp)).bind fun value => ?_
      exact (fieldsOf_failsWith range (name :: seen) rest hrest).bind fun fields => .ok _

theorem ofSexp_failsWith (s : Sexp) : (ofSexp s).FailsWith fun d => d.cause.IsOfForm := by
  induction s using Sexp.induct with
  | atom range text =>
      rw [ofSexp]
      exact ofAtom_failsWith range text
  | list range elems ih =>
      cases elems with
      | nil => exact .error .malformed
      | cons head args =>
          obtain ⟨hhead, hargs⟩ := List.forall_mem_cons.mp ih
          rw [ofSexp.eq_def]
          simp only
          split
          · split
            case h_1 param ty body =>
              refine (Ty.ofSexp_failsWith ty).bind fun ty => ?_
              exact (hargs body (by simp)).bind fun body => .ok _
            · exact .error .malformed
            · exact .error .malformed
          · split
            case h_1 guard thenBranch elseBranch =>
              refine (hargs guard (by simp)).bind fun guard => ?_
              refine (hargs thenBranch (by simp)).bind fun thenBranch => ?_
              exact (hargs elseBranch (by simp)).bind fun elseBranch => .ok _
            · exact .error .malformed
          · split
            · exact .error .malformed
            · exact (fieldsOf_failsWith range [] args hargs).bind fun fields => .ok _
          · split
            case h_1 target _ name => exact (hargs target (by simp)).bind fun target => .ok _
            · exact .error .malformed
            · exact .error .malformed
          · split
            case h_1 _ variant payload => exact (hargs payload (by simp)).bind fun payload => .ok _
            · exact .error .malformed
            · exact .error .malformed
          · exact hhead.bind fun head => (ofSexps_failsWith hargs).bind fun args => .ok _

end Expr

theorem Stmt.ofSexp_failsWith (s : Sexp) :
    (Stmt.ofSexp s).FailsWith fun d => d.cause.IsOfForm := by
  unfold ofSexp
  split
  · split
    · split
      case h_1 value => exact (Expr.ofSexp_failsWith value).bind fun value => .ok _
      · exact .error .malformed
      · exact .error .malformed
    · split
      case h_1 target value =>
        refine (Expr.ofSexp_failsWith target).bind fun target => ?_
        exact (Expr.ofSexp_failsWith value).bind fun value => .ok _
      · exact .error .malformed
    · split
      case h_1 value => exact (Expr.ofSexp_failsWith value).bind fun value => .ok _
      · exact .error .malformed
    · exact .error .unknown
  · exact .error .unknown

theorem Script.ofSexps_failsWith (ss : List Sexp) :
    (Script.ofSexps ss).FailsWith fun d => d.cause.IsOfForm := by
  induction ss with
  | nil => exact .ok _
  | cons s rest ih => exact (Stmt.ofSexp_failsWith s).bind fun stmt => ih.bind fun script => .ok _

open Diagnostic (Reports)

theorem Sexp.readAll_failsWith (source : Text) :
    (Sexp.readAll source).FailsWith fun d => ∃ fault, d.cause = .unreadable fault := by
  cases h : Sexp.readAll source with
  | ok ss => exact .ok _
  | error d =>
      cases readAll_flaw h with
      | unmatched => exact .error ⟨_, rfl⟩
      | unclosed => exact .error ⟨_, rfl⟩

theorem Sexp.readAll_reports (source : Text) :
    (Sexp.readAll source).FailsWith (Reports .parse) := by
  refine (readAll_failsWith source).mono ?_
  rintro ⟨range, cause⟩ ⟨fault, rfl⟩
  exact ⟨rfl, _, rfl⟩

theorem Expr.read_reports (source : Text) : (Expr.read source).FailsWith (Reports .parse) := by
  refine (Sexp.readAll_reports source).bind fun ss => ?_
  split
  · exact (ofSexp_failsWith _).mono fun d hd => hd.reports
  · exact .error ⟨rfl, _, rfl⟩

theorem Script.readAll_of_unreadable {source : Text} {d : Diagnostic} {fault : ReadFault}
    (h : Script.read source = .error d) (hcause : d.cause = .unreadable fault) :
    Sexp.readAll source = .error d := by
  rw [Script.read] at h
  cases hread : Sexp.readAll source with
  | error d' =>
      rw [hread] at h
      cases h
      rfl
  | ok ss =>
      rw [hread] at h
      have hform : d.cause.IsOfForm := (ofSexps_failsWith ss).of_error h
      rw [hcause] at hform
      cases hform

theorem Script.read_reports (source : Text) : (Script.read source).FailsWith (Reports .parse) := by
  refine (Sexp.readAll_reports source).bind fun ss => ?_
  exact (ofSexps_failsWith ss).mono fun d hd => hd.reports

end TypedSexp
