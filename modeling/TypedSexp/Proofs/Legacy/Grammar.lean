import TypedSexp.Legacy.Parser
import TypedSexp.Proofs.Ensures

namespace TypedSexp.Legacy

inductive Spells : Kind → Name → Prop
  | plus : Spells .plus (utf8 "+")
  | or : Spells .or (utf8 "||")
  | equal : Spells .equal (utf8 "==")
  | and : Spells .and (utf8 "&&")

/-- The tokens derive the expression. Of a token only its kind counts, and of a number its text. -/
inductive Derives : List Token → Expr → Prop
  | number {t : Token} {value : UInt64} :
      t.kind = .number → Numeral.read t.text = .ok value → Derives [t] (.num Range.none value)
  | trueWord {t : Token} : t.kind = .trueWord → Derives [t] (.bool Range.none true)
  | falseWord {t : Token} : t.kind = .falseWord → Derives [t] (.bool Range.none false)
  | operation {opening operator closing : Token} {name : Name} {ls rs : List Token}
      {left right : Expr} :
      opening.kind = .openParen → Spells operator.kind name → Derives ls left → Derives rs right →
      closing.kind = .closeParen →
      Derives ([opening, operator] ++ ls ++ rs ++ [closing])
        (.apply Range.none (.var Range.none name) [left, right])
  | cond {opening ifWord thenWord elseWord closing : Token} {gs ts es : List Token}
      {guard thenBranch elseBranch : Expr} :
      opening.kind = .openParen → ifWord.kind = .ifWord → Derives gs guard →
      thenWord.kind = .thenWord → Derives ts thenBranch → elseWord.kind = .elseWord →
      Derives es elseBranch → closing.kind = .closeParen →
      Derives ([opening, ifWord] ++ gs ++ [thenWord] ++ ts ++ [elseWord] ++ es ++ [closing])
        (.cond Range.none guard thenBranch elseBranch)

def Viable (tokens : List Token) : Prop := ∃ rest e, Derives (tokens ++ rest) e

def IsUnfinished (tokens : List Token) : Prop := ∃ rest e, rest ≠ [] ∧ Derives (tokens ++ rest) e

def GoesOn (tokens after : List Token) : Prop :=
  after ≠ [] ∧ ∃ before e, tokens = before ++ after ∧ Derives before e

def AwaitsExpression (tokens : List Token) : Prop := ∀ ts e, Derives ts e → Viable (tokens ++ ts)

structure IsLongestViable (before tokens : List Token) : Prop where
  isPrefix : before <+: tokens
  viable : Viable before
  longest : ∀ other, other <+: tokens → Viable other → other.length ≤ before.length

theorem operator?_eq_some_iff {kind : Kind} {name : Name} :
    kind.operator? = some name ↔ Spells kind name := by
  constructor
  · intro h
    cases kind with
    | plus =>
        cases h
        exact .plus
    | or =>
        cases h
        exact .or
    | equal =>
        cases h
        exact .equal
    | and =>
        cases h
        exact .and
    | _ => cases h
  · intro h
    cases h <;> rfl

namespace Parser

variable {index : Nat} {state next : State} {token : Token} {tokens rest : List Token}
  {slots : List Slot} {d : Diagnostic} {e result : Expr}

theorem parseFrom_cons (hstate : ∀ e, state ≠ .done e) (token : Token) (rest : List Token) :
    parseFrom index state (token :: rest) =
      (step index state token >>= fun next => parseFrom (index + 1) next rest) := by
  cases state with
  | done e => exact absurd rfl (hstate e)
  | _ => rfl

theorem parseFrom_step (h : step index state token = .ok next) (rest : List Token) :
    parseFrom index state (token :: rest) = parseFrom (index + 1) next rest := by
  have hstate : ∀ e, state ≠ .done e := by
    rintro e rfl
    cases h
  rw [parseFrom_cons hstate, h]
  rfl

theorem parseFrom_stuck (hstate : ∀ e, state ≠ .done e) (h : step index state token = .error d)
    (rest : List Token) : parseFrom index state (token :: rest) = .error d := by
  rw [parseFrom_cons hstate, h]
  rfl

theorem parseFrom_end (hstate : ∀ e, state ≠ .done e) :
    parseFrom index state [] = .error ⟨Range.none, .unexpectedEnd state.expected⟩ := by
  cases state with
  | done e => exact absurd rfl (hstate e)
  | _ => rfl

theorem step_number {value : UInt64} (hkind : token.kind = .number)
    (hread : Numeral.read token.text = .ok value) :
    step index (.expression slots) token = .ok (deliver (.num Range.none value) slots) := by
  simp only [step, hkind, hread]

theorem step_opening (h : token.kind = .openParen) :
    step index (.expression slots) token = .ok (.operator slots) := by
  simp only [step, h]

theorem step_operator {name : Name} (h : Spells token.kind name) :
    step index (.operator slots) token = .ok (.expression (.left name :: slots)) := by
  simp only [step, operator?_eq_some_iff.mpr h]

theorem step_if (h : token.kind = .ifWord) :
    step index (.operator slots) token = .ok (.expression (.guard :: slots)) := by
  simp only [step, h, Kind.operator?, if_true]

theorem step_then {guard : Expr} (h : token.kind = .thenWord) :
    step index (.thenWord guard slots) token = .ok (.expression (.thenBranch guard :: slots)) := by
  simp only [step, h, if_true]

theorem step_else {guard thenBranch : Expr} (h : token.kind = .elseWord) :
    step index (.elseWord guard thenBranch slots) token =
      .ok (.expression (.elseBranch guard thenBranch :: slots)) := by
  simp only [step, h, if_true]

theorem step_closing (h : token.kind = .closeParen) :
    step index (.close result slots) token = .ok (deliver result slots) := by
  simp only [step, h, if_true]

theorem parseFrom_of_derives {ts : List Token} (h : Derives ts e) (index : Nat)
    (slots : List Slot) (rest : List Token) :
    parseFrom index (.expression slots) (ts ++ rest) =
      parseFrom (index + ts.length) (deliver e slots) rest := by
  induction h generalizing index slots rest with
  | number hkind hread => exact parseFrom_step (step_number hkind hread) rest
  | trueWord hkind => exact parseFrom_step (by simp only [step, hkind]) rest
  | falseWord hkind => exact parseFrom_step (by simp only [step, hkind]) rest
  | operation hopen hoperator _ _ hclose ihleft ihright =>
      simp only [List.append_assoc, List.cons_append, List.nil_append]
      rw [parseFrom_step (step_opening hopen), parseFrom_step (step_operator hoperator), ihleft]
      simp only [deliver]
      rw [ihright]
      simp only [deliver]
      rw [parseFrom_step (step_closing hclose)]
      congr 1
      simp only [List.length_cons, List.length_append, List.length_nil]
      omega
  | cond hopen hif _ hthen _ helse _ hclose ihguard ihthen ihelse =>
      simp only [List.append_assoc, List.cons_append, List.nil_append]
      rw [parseFrom_step (step_opening hopen), parseFrom_step (step_if hif), ihguard]
      simp only [deliver]
      rw [parseFrom_step (step_then hthen), ihthen]
      simp only [deliver]
      rw [parseFrom_step (step_else helse), ihelse]
      simp only [deliver]
      rw [parseFrom_step (step_closing hclose)]
      congr 1
      simp only [List.length_cons, List.length_append, List.length_nil]
      omega

theorem parseFrom_ok (hstate : ∀ e, state ≠ .done e) (h : parseFrom index state tokens = .ok result) :
    ∃ token rest next, tokens = token :: rest ∧ step index state token = .ok next ∧
      parseFrom (index + 1) next rest = .ok result := by
  cases tokens with
  | nil => simp [parseFrom_end hstate] at h
  | cons token rest =>
      rw [parseFrom_cons hstate] at h
      obtain ⟨next, hstep, hrest⟩ := Except.bind_eq_ok_iff.mp h
      exact ⟨token, rest, next, rfl, hstep, hrest⟩

theorem step_expression_ok (h : step index (.expression slots) token = .ok next) :
    (∃ e, Derives [token] e ∧ next = deliver e slots) ∨
      (token.kind = .openParen ∧ next = .operator slots) := by
  simp only [step] at h
  split at h
  case h_1 hkind =>
    split at h
    case h_1 value hread =>
      cases h
      exact .inl ⟨_, .number hkind hread, rfl⟩
    case h_2 => cases h
  case h_2 hkind =>
    cases h
    exact .inl ⟨_, .trueWord hkind, rfl⟩
  case h_3 hkind =>
    cases h
    exact .inl ⟨_, .falseWord hkind, rfl⟩
  case h_4 hkind =>
    cases h
    exact .inr ⟨hkind, rfl⟩
  case h_5 => cases h

theorem step_operator_ok (h : step index (.operator slots) token = .ok next) :
    (∃ name, Spells token.kind name ∧ next = .expression (.left name :: slots)) ∨
      (token.kind = .ifWord ∧ next = .expression (.guard :: slots)) := by
  simp only [step] at h
  split at h
  case h_1 name hname =>
    cases h
    exact .inl ⟨name, operator?_eq_some_iff.mp hname, rfl⟩
  case h_2 =>
    split at h
    case isTrue hif =>
      cases h
      exact .inr ⟨hif, rfl⟩
    case isFalse => cases h

theorem step_close_ok (h : step index (.close result slots) token = .ok next) :
    token.kind = .closeParen ∧ next = deliver result slots := by
  simp only [step] at h
  split at h
  case isTrue hclose =>
    cases h
    exact ⟨hclose, rfl⟩
  case isFalse => cases h

theorem step_then_ok {guard : Expr} (h : step index (.thenWord guard slots) token = .ok next) :
    token.kind = .thenWord ∧ next = .expression (.thenBranch guard :: slots) := by
  simp only [step] at h
  split at h
  case isTrue hthen =>
    cases h
    exact ⟨hthen, rfl⟩
  case isFalse => cases h

theorem step_else_ok {guard thenBranch : Expr}
    (h : step index (.elseWord guard thenBranch slots) token = .ok next) :
    token.kind = .elseWord ∧ next = .expression (.elseBranch guard thenBranch :: slots) := by
  simp only [step] at h
  split at h
  case isTrue helse =>
    cases h
    exact ⟨helse, rfl⟩
  case isFalse => cases h

theorem derives_of_parseFrom {n : Nat} (hn : tokens.length ≤ n)
    (h : parseFrom index (.expression slots) tokens = .ok result) :
    ∃ ts e rest, tokens = ts ++ rest ∧ Derives ts e ∧
      ∃ index', parseFrom index' (deliver e slots) rest = .ok result := by
  -- on a bound of the length, since the parts of a form are not its tail
  induction n generalizing index slots tokens with
  | zero =>
      obtain rfl := List.length_eq_zero_iff.mp (Nat.le_zero.mp hn)
      cases h
  | succ n ih =>
      obtain ⟨first, rest, next, rfl, hfirst, h⟩ := parseFrom_ok (by simp) h
      rcases step_expression_ok hfirst with ⟨e, he, rfl⟩ | ⟨hopen, rfl⟩
      · exact ⟨[first], e, rest, rfl, he, _, h⟩
      obtain ⟨head, rest, next, rfl, hhead, h⟩ := parseFrom_ok (by simp) h
      simp only [List.length_cons] at hn
      rcases step_operator_ok hhead with ⟨name, hname, rfl⟩ | ⟨hif, rfl⟩
      · obtain ⟨ls, left, rest, rfl, hleft, _, h⟩ := ih (by omega) h
        rw [List.length_append] at hn
        obtain ⟨rs, right, rest, rfl, hright, _, h⟩ := ih (by omega) h
        obtain ⟨last, rest, next, rfl, hlast, h⟩ := parseFrom_ok (by simp [deliver]) h
        obtain ⟨hclose, rfl⟩ := step_close_ok hlast
        exact ⟨_, _, rest, by simp, .operation hopen hname hleft hright hclose, _, h⟩
      · obtain ⟨gs, guard, rest, rfl, hguard, _, h⟩ := ih (by omega) h
        obtain ⟨second, rest, next, rfl, hsecond, h⟩ := parseFrom_ok (by simp [deliver]) h
        obtain ⟨hthen, rfl⟩ := step_then_ok hsecond
        rw [List.length_append, List.length_cons] at hn
        obtain ⟨ts, thenBranch, rest, rfl, hthenBranch, _, h⟩ := ih (by omega) h
        obtain ⟨third, rest, next, rfl, hthird, h⟩ := parseFrom_ok (by simp [deliver]) h
        obtain ⟨helse, rfl⟩ := step_else_ok hthird
        rw [List.length_append, List.length_cons] at hn
        obtain ⟨es, elseBranch, rest, rfl, helseBranch, _, h⟩ := ih (by omega) h
        obtain ⟨last, rest, next, rfl, hlast, h⟩ := parseFrom_ok (by simp [deliver]) h
        obtain ⟨hclose, rfl⟩ := step_close_ok hlast
        exact ⟨_, _, rest, by simp,
          .cond hopen hif hguard hthen hthenBranch helse helseBranch hclose, _, h⟩

theorem exists_completion_of_deliver (slots : List Slot) (e : Expr) (index : Nat) :
    ∃ rest result, parseFrom index (deliver e slots) rest = .ok result := by
  induction slots generalizing e index with
  | nil => exact ⟨[], e, rfl⟩
  | cons slot slots ih =>
      have hright (name : Name) (left e : Expr) (index : Nat) :
          ∃ rest result,
            parseFrom index (deliver e (.right name left :: slots)) rest = .ok result := by
        obtain ⟨rest, result, h⟩ := ih (.apply Range.none (.var Range.none name) [left, e])
          (index + 1)
        exact ⟨⟨.closeParen, []⟩ :: rest, result, h⟩
      have helse (guard thenBranch e : Expr) (index : Nat) :
          ∃ rest result,
            parseFrom index (deliver e (.elseBranch guard thenBranch :: slots)) rest =
              .ok result := by
        obtain ⟨rest, result, h⟩ := ih (.cond Range.none guard thenBranch e) (index + 1)
        exact ⟨⟨.closeParen, []⟩ :: rest, result, h⟩
      have hthen (guard e : Expr) (index : Nat) :
          ∃ rest result,
            parseFrom index (deliver e (.thenBranch guard :: slots)) rest = .ok result := by
        obtain ⟨rest, result, h⟩ := helse guard e (.bool Range.none true) (index + 2)
        exact ⟨⟨.elseWord, []⟩ :: ⟨.trueWord, []⟩ :: rest, result, h⟩
      cases slot with
      | left name =>
          obtain ⟨rest, result, h⟩ := hright name e (.bool Range.none true) (index + 1)
          exact ⟨⟨.trueWord, []⟩ :: rest, result, h⟩
      | right name left => exact hright name left e index
      | guard =>
          obtain ⟨rest, result, h⟩ := hthen e (.bool Range.none true) (index + 2)
          exact ⟨⟨.thenWord, []⟩ :: ⟨.trueWord, []⟩ :: rest, result, h⟩
      | thenBranch guard => exact hthen guard e index
      | elseBranch guard thenBranch => exact helse guard thenBranch e index

theorem exists_completion (state : State) (index : Nat) :
    ∃ rest result, parseFrom index state rest = .ok result := by
  have hexpression (slots : List Slot) (index : Nat) :
      ∃ rest result, parseFrom index (.expression slots) rest = .ok result := by
    obtain ⟨rest, result, h⟩ := exists_completion_of_deliver slots (.bool Range.none true)
      (index + 1)
    exact ⟨⟨.trueWord, []⟩ :: rest, result, h⟩
  cases state with
  | expression slots => exact hexpression slots index
  | operator slots =>
      obtain ⟨rest, result, h⟩ := hexpression (.guard :: slots) (index + 1)
      exact ⟨⟨.ifWord, []⟩ :: rest, result, h⟩
  | close e slots =>
      obtain ⟨rest, result, h⟩ := exists_completion_of_deliver slots e (index + 1)
      exact ⟨⟨.closeParen, []⟩ :: rest, result, h⟩
  | thenWord guard slots =>
      obtain ⟨rest, result, h⟩ := hexpression (.thenBranch guard :: slots) (index + 1)
      exact ⟨⟨.thenWord, []⟩ :: rest, result, h⟩
  | elseWord guard thenBranch slots =>
      obtain ⟨rest, result, h⟩ := hexpression (.elseBranch guard thenBranch :: slots) (index + 1)
      exact ⟨⟨.elseWord, []⟩ :: rest, result, h⟩
  | done e => exact ⟨[], e, rfl⟩

inductive Reaches : List Token → State → Prop
  | start : Reaches [] (.expression [])
  | next {before : List Token} {state state' : State} {token : Token} : Reaches before state →
      step before.length state token = .ok state' → Reaches (before ++ [token]) state'

theorem Reaches.ofTokens_append {before : List Token} (h : Reaches before state)
    (rest : List Token) : ofTokens (before ++ rest) = parseFrom before.length state rest := by
  induction h generalizing rest with
  | start => rfl
  | @next before state state' token _ hstep ih =>
      rw [List.append_assoc, List.singleton_append, ih, parseFrom_step hstep, List.length_append]
      rfl

inductive Outcome (tokens : List Token) : Except Diagnostic Expr → Prop
  | complete {e : Expr} : Reaches tokens (.done e) → Outcome tokens (.ok e)
  | short {state : State} : Reaches tokens state → (∀ e, state ≠ .done e) →
      Outcome tokens (.error ⟨Range.none, .unexpectedEnd state.expected⟩)
  | long {before after : List Token} {e : Expr} : Reaches before (.done e) → after ≠ [] →
      tokens = before ++ after →
      Outcome tokens (.error ⟨Range.none, .trailingTokens (after.map Token.text)⟩)
  | stuck {before after : List Token} {state : State} {token : Token} {d : Diagnostic} :
      Reaches before state → (∀ e, state ≠ .done e) → step before.length state token = .error d →
      tokens = before ++ token :: after → Outcome tokens (.error d)

theorem Reaches.outcome {before : List Token} (h : Reaches before state) (rest : List Token) :
    Outcome (before ++ rest) (parseFrom before.length state rest) := by
  induction rest generalizing before state with
  | nil =>
      rw [List.append_nil]
      by_cases hdone : ∃ e, state = .done e
      · obtain ⟨e, rfl⟩ := hdone
        exact .complete h
      · rw [parseFrom_end fun e he => hdone ⟨e, he⟩]
        exact .short h fun e he => hdone ⟨e, he⟩
  | cons token rest ih =>
      by_cases hdone : ∃ e, state = .done e
      · obtain ⟨e, rfl⟩ := hdone
        exact .long h (by simp) rfl
      · have hstate : ∀ e, state ≠ .done e := fun e he => hdone ⟨e, he⟩
        cases hstep : step before.length state token with
        | error d =>
            rw [parseFrom_stuck hstate hstep]
            exact .stuck h hstate hstep rfl
        | ok next =>
            have hnext := ih (h.next hstep)
            rw [List.append_assoc, List.singleton_append, List.length_append] at hnext
            rw [parseFrom_step hstep]
            exact hnext

theorem ofTokens_outcome (tokens : List Token) : Outcome tokens (ofTokens tokens) :=
  Reaches.start.outcome tokens

theorem step_error (hstate : ∀ e, state ≠ .done e) (h : step index state token = .error d) :
    ((∃ slots, state = .expression slots) ∧ token.kind = .number ∧
      ∃ fault, Numeral.read token.text = .error fault ∧
        d = ⟨Range.none, .badLiteral token.text fault.message⟩) ∨
    (¬((∃ slots, state = .expression slots) ∧ token.kind = .number) ∧
      d = ⟨Range.none, .unexpectedToken state.expected token.text index⟩) := by
  cases state with
  | expression slots =>
      simp only [step] at h
      split at h
      case h_1 hkind =>
        split at h
        case h_1 => cases h
        case h_2 fault hread =>
          cases h
          exact .inl ⟨⟨slots, rfl⟩, hkind, fault, hread, rfl⟩
      case h_5 hnumber _ _ _ =>
        cases h
        exact .inr ⟨fun hboth => hnumber hboth.2, rfl⟩
      all_goals cases h
  | operator slots =>
      simp only [step] at h
      split at h
      · cases h
      · split at h
        · cases h
        · cases h
          exact .inr ⟨by simp, rfl⟩
  | done e => exact absurd rfl (hstate e)
  | _ =>
      simp only [step] at h
      split at h
      · cases h
      · cases h
        exact .inr ⟨by simp, rfl⟩

end Parser

open TypedSexp.Legacy.Parser

variable {before tokens : List Token} {state : State} {e : Expr}

theorem ofTokens_append_of_derives (h : Derives before e) (rest : List Token) :
    ofTokens (before ++ rest) = parseFrom before.length (.done e) rest := by
  rw [ofTokens, parseFrom_of_derives h, Nat.zero_add]
  rfl

theorem ofTokens_eq_ok_iff : ofTokens tokens = .ok e ↔ Derives tokens e := by
  constructor
  · intro h
    obtain ⟨ts, e', rest, rfl, hderives, _, hrest⟩ := derives_of_parseFrom (Nat.le_refl _) h
    cases rest with
    | nil =>
        cases hrest
        rwa [List.append_nil]
    | cons token rest => cases hrest
  · intro h
    have hparse := ofTokens_append_of_derives h []
    rwa [List.append_nil] at hparse

theorem Derives.eq_nil_of_append {rest : List Token} {e' : Expr} (h : Derives before e)
    (h' : Derives (before ++ rest) e') : rest = [] := by
  have hparse := ofTokens_append_of_derives h rest
  rw [ofTokens_eq_ok_iff.mpr h'] at hparse
  cases rest with
  | nil => rfl
  | cons token rest => cases hparse

theorem Parser.Reaches.derives (h : Reaches before (.done e)) : Derives before e := by
  have hparse := h.ofTokens_append []
  rw [List.append_nil] at hparse
  exact ofTokens_eq_ok_iff.mp hparse

theorem Parser.Reaches.viable (h : Reaches before state) : Viable before := by
  obtain ⟨rest, result, hrest⟩ := exists_completion state before.length
  rw [← h.ofTokens_append] at hrest
  exact ⟨rest, result, ofTokens_eq_ok_iff.mp hrest⟩

theorem Parser.Reaches.not_viable_of_stuck {token : Token} {d : Diagnostic}
    (h : Reaches before state) (hstate : ∀ e, state ≠ .done e)
    (hstep : step before.length state token = .error d) : ¬Viable (before ++ [token]) := by
  rintro ⟨rest, e, hderives⟩
  rw [List.append_assoc] at hderives
  have hparse := h.ofTokens_append ([token] ++ rest)
  rw [ofTokens_eq_ok_iff.mpr hderives] at hparse
  cases hparse.trans (parseFrom_stuck hstate hstep rest)

theorem Parser.Reaches.awaitsExpression_iff (h : Reaches before state) :
    AwaitsExpression before ↔ ∃ slots, state = .expression slots := by
  constructor
  · intro hawaits
    -- no other state takes a truth value
    obtain ⟨rest, e, hderives⟩ := hawaits [⟨.trueWord, []⟩] _ (.trueWord rfl)
    rw [List.append_assoc] at hderives
    have hparse := (h.ofTokens_append _).symm.trans (ofTokens_eq_ok_iff.mpr hderives)
    cases state with
    | expression slots => exact ⟨slots, rfl⟩
    | _ => cases hparse
  · rintro ⟨slots, rfl⟩ ts e hderives
    obtain ⟨rest, result, hrest⟩ := exists_completion_of_deliver slots e
      (before.length + ts.length)
    rw [← parseFrom_of_derives hderives, ← h.ofTokens_append, ← List.append_assoc] at hrest
    exact ⟨rest, result, ofTokens_eq_ok_iff.mp hrest⟩

theorem isLongestViable_of_split {token : Token} {after : List Token} (hviable : Viable before)
    (hnot : ¬Viable (before ++ [token])) : IsLongestViable before (before ++ token :: after) where
  isPrefix := List.prefix_append _ _
  viable := hviable
  longest := by
    intro other hother hviable'
    refine Nat.le_of_not_lt fun hlonger => ?_
    have hlength : (before ++ [token]).length ≤ other.length := by
      rw [List.length_append, List.length_singleton]
      omega
    have hle : before ++ [token] <+: other := by
      refine List.prefix_of_prefix_length_le ?_ hother hlength
      exact ⟨after, by simp⟩
    obtain ⟨rest, rfl⟩ := hle
    obtain ⟨more, e, hderives⟩ := hviable'
    exact hnot ⟨rest ++ more, e, by rwa [List.append_assoc] at hderives⟩

theorem Parser.Reaches.isUnfinished (h : Reaches before state) (hstate : ∀ e, state ≠ .done e) :
    IsUnfinished before := by
  obtain ⟨rest, e, hderives⟩ := h.viable
  refine ⟨rest, e, ?_, hderives⟩
  rintro rfl
  have hparse := (h.ofTokens_append []).symm.trans (ofTokens_eq_ok_iff.mpr hderives)
  rw [parseFrom_end hstate] at hparse
  cases hparse

theorem IsUnfinished.reaches (h : IsUnfinished tokens) :
    ∃ state, Reaches tokens state ∧ ∀ e, state ≠ .done e := by
  obtain ⟨rest, e, hrest, hderives⟩ := h
  have houtcome := ofTokens_outcome tokens
  generalize ofTokens tokens = result at houtcome
  cases houtcome with
  | complete hreaches => exact absurd (hreaches.derives.eq_nil_of_append hderives) hrest
  | short hreaches hstate => exact ⟨_, hreaches, hstate⟩
  | long hreaches hafter htokens =>
      rw [htokens, List.append_assoc] at hderives
      have hnil := hreaches.derives.eq_nil_of_append hderives
      exact absurd (List.append_eq_nil_iff.mp hnil).1 hafter
  | @stuck before after state token d hreaches hstate hstep htokens =>
      have hsplit : tokens ++ rest = before ++ [token] ++ (after ++ rest) := by simp [htokens]
      rw [hsplit] at hderives
      exact absurd ⟨_, e, hderives⟩ (hreaches.not_viable_of_stuck hstate hstep)

theorem GoesOn.ofTokens_eq {after : List Token} (h : GoesOn tokens after) :
    ofTokens tokens = .error ⟨Range.none, .trailingTokens (after.map Token.text)⟩ := by
  obtain ⟨hafter, before, e, rfl, hderives⟩ := h
  rw [ofTokens_append_of_derives hderives]
  cases after with
  | nil => exact absurd rfl hafter
  | cons token after => rfl

/-- Parsing accepts exactly the derivable sequences. It runs out of tokens exactly where more of
them could complete the sequence, and leaves tokens over exactly after a derivable sequence. In all
other cases it fails at the token after the longest beginning that could still be completed: at a
number as a literal, if an expression is due there and the number cannot be read, and otherwise at
the token as such. -/
theorem ofTokens_recognises_grammar (tokens : List Token) :
    (∀ e, ofTokens tokens = .ok e ↔ Derives tokens e) ∧
    ((∃ expected, ofTokens tokens = .error ⟨Range.none, .unexpectedEnd expected⟩) ↔
      IsUnfinished tokens) ∧
    (∀ remaining, ofTokens tokens = .error ⟨Range.none, .trailingTokens remaining⟩ ↔
      ∃ after, GoesOn tokens after ∧ remaining = after.map Token.text) ∧
    ((∀ e, ¬Derives tokens e) → ¬IsUnfinished tokens → (∀ after, ¬GoesOn tokens after) →
      ∃ before token after, tokens = before ++ token :: after ∧ IsLongestViable before tokens ∧
        ((AwaitsExpression before ∧ token.kind = .number ∧
            ∃ fault, Numeral.read token.text = .error fault ∧
              ofTokens tokens = .error ⟨Range.none, .badLiteral token.text fault.message⟩) ∨
          (¬(AwaitsExpression before ∧ token.kind = .number) ∧
            ∃ expected, ofTokens tokens =
              .error ⟨Range.none, .unexpectedToken expected token.text before.length⟩))) := by
  refine ⟨fun e => ofTokens_eq_ok_iff, ⟨?_, ?_⟩, fun remaining => ⟨?_, ?_⟩, ?_⟩
  · rintro ⟨expected, h⟩
    have houtcome := ofTokens_outcome tokens
    rw [h] at houtcome
    cases houtcome with
    | short hreaches hstate => exact hreaches.isUnfinished hstate
    | stuck _ hstate hstep =>
        rcases step_error hstate hstep with ⟨-, -, fault, -, hd⟩ | ⟨-, hd⟩
        · cases hd
        · cases hd
  · intro h
    obtain ⟨state, hreaches, hstate⟩ := h.reaches
    have hparse := hreaches.ofTokens_append []
    rw [List.append_nil, parseFrom_end hstate] at hparse
    exact ⟨_, hparse⟩
  · intro h
    have houtcome := ofTokens_outcome tokens
    rw [h] at houtcome
    cases houtcome with
    | long hreaches hafter htokens => exact ⟨_, ⟨hafter, _, _, htokens, hreaches.derives⟩, rfl⟩
    | stuck _ hstate hstep =>
        rcases step_error hstate hstep with ⟨-, -, fault, -, hd⟩ | ⟨-, hd⟩
        · cases hd
        · cases hd
  · rintro ⟨after, h, rfl⟩
    exact h.ofTokens_eq
  · intro hderives hunfinished hgoesOn
    have houtcome := ofTokens_outcome tokens
    generalize hresult : ofTokens tokens = result at houtcome ⊢
    cases houtcome with
    | complete hreaches => exact absurd hreaches.derives (hderives _)
    | short hreaches hstate => exact absurd (hreaches.isUnfinished hstate) hunfinished
    | long hreaches hafter htokens =>
        exact absurd ⟨hafter, _, _, htokens, hreaches.derives⟩ (hgoesOn _)
    | @stuck before after state token d hreaches hstate hstep htokens =>
        have hlongest : IsLongestViable before (before ++ token :: after) :=
          isLongestViable_of_split hreaches.viable (hreaches.not_viable_of_stuck hstate hstep)
        refine ⟨before, token, after, htokens, htokens ▸ hlongest, ?_⟩
        rw [hreaches.awaitsExpression_iff]
        rcases step_error hstate hstep with ⟨hexpression, hnumber, fault, hfault, rfl⟩ | ⟨hnot, rfl⟩
        · exact .inl ⟨hexpression, hnumber, fault, hfault, rfl⟩
        · exact .inr ⟨hnot, _, rfl⟩

end TypedSexp.Legacy
