import TypedSexp.Legacy.Parser
import TypedSexp.Proofs.Expr.WellFormed

namespace TypedSexp.Legacy

def IsOperator (name : Name) : Prop := ∃ kind : Kind, kind.operator? = some name

theorem readable_operation {operator : Name} (h : IsOperator operator) {left right : Expr}
    (hleft : left.Readable) (hright : right.Readable) :
    (Expr.apply Range.none (.var Range.none operator) [left, right]).Readable := by
  have hargs : ∀ e ∈ [left, right], e.Readable := by simp [hleft, hright]
  have hname : operator = utf8 "+" ∨ operator = utf8 "||" ∨ operator = utf8 "==" ∨
      operator = utf8 "&&" := by
    obtain ⟨kind, hkind⟩ := h
    cases kind <;> simp_all [Kind.operator?]
  rcases hname with rfl | rfl | rfl | rfl
  all_goals
    refine .apply ?_ (.var (by decide) (by decide) (by decide) rfl) hargs
    rintro r name ⟨⟩
    rfl

namespace Parser

def Slot.Readable : Slot → Prop
  | .left operator => IsOperator operator
  | .right operator first => IsOperator operator ∧ first.Readable
  | .guard => True
  | .thenBranch first => first.Readable
  | .elseBranch first second => first.Readable ∧ second.Readable

def State.Readable : State → Prop
  | .expression slots => ∀ slot ∈ slots, slot.Readable
  | .operator slots => ∀ slot ∈ slots, slot.Readable
  | .close result slots => result.Readable ∧ ∀ slot ∈ slots, slot.Readable
  | .thenWord guard slots => guard.Readable ∧ ∀ slot ∈ slots, slot.Readable
  | .elseWord guard thenBranch slots =>
      guard.Readable ∧ thenBranch.Readable ∧ ∀ slot ∈ slots, slot.Readable
  | .done result => result.Readable

theorem deliver_readable {e : Expr} (he : e.Readable) {slots : List Slot}
    (h : ∀ slot ∈ slots, slot.Readable) : (deliver e slots).Readable := by
  cases slots with
  | nil => exact he
  | cons slot slots =>
      obtain ⟨hslot, hslots⟩ := List.forall_mem_cons.mp h
      cases slot with
      | left operator => exact List.forall_mem_cons.mpr ⟨⟨hslot, he⟩, hslots⟩
      | right operator left => exact ⟨readable_operation hslot.1 hslot.2 he, hslots⟩
      | guard => exact ⟨he, hslots⟩
      | thenBranch guard => exact ⟨hslot, he, hslots⟩
      | elseBranch guard thenBranch => exact ⟨.cond hslot.1 hslot.2 he, hslots⟩

theorem step_readable (index : Nat) {state : State} (token : Token) (h : state.Readable) :
    (step index state token).Ensures State.Readable fun _ => True := by
  cases state with
  | expression slots =>
      simp only [step]
      split
      · split
        · exact deliver_readable .num h
        · trivial
      · exact deliver_readable .bool h
      · exact deliver_readable .bool h
      · exact h
      · trivial
  | operator slots =>
      simp only [step]
      split
      case h_1 operator hoperator => exact List.forall_mem_cons.mpr ⟨⟨_, hoperator⟩, h⟩
      · split
        · exact List.forall_mem_cons.mpr ⟨trivial, h⟩
        · trivial
  | close result slots =>
      simp only [step]
      split
      · exact deliver_readable h.1 h.2
      · trivial
  | thenWord guard slots =>
      simp only [step]
      split
      · exact List.forall_mem_cons.mpr h
      · trivial
  | elseWord guard thenBranch slots =>
      simp only [step]
      split
      · exact List.forall_mem_cons.mpr ⟨⟨h.1, h.2.1⟩, h.2.2⟩
      · trivial
  | done result => trivial

theorem parseFrom_readable {tokens : List Token} (index : Nat) {state : State}
    (h : state.Readable) :
    (parseFrom index state tokens).Ensures Expr.Readable fun _ => True := by
  induction tokens generalizing index state with
  | nil =>
      cases state with
      | done e => exact h
      | _ => trivial
  | cons token rest ih =>
      have hstep := (step_readable index token h).imp fun _ hnext => ih (index + 1) hnext
      cases state with
      | done e => trivial
      | _ =>
          simp only [parseFrom, Except.ensures_bind]
          exact hstep

end Parser

theorem read_readable (source : Text) : (read source).Ensures Expr.Readable fun _ => True := by
  simp only [read, ofTokens, Except.ensures_bind]
  have hstart : (Parser.State.expression []).Readable := by simp [Parser.State.Readable]
  cases lex source with
  | error d => trivial
  | ok tokens => exact Parser.parseFrom_readable 0 hstart

end TypedSexp.Legacy
