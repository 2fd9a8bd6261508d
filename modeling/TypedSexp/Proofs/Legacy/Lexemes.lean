import TypedSexp.Legacy.Lexer

namespace TypedSexp.Legacy

def vocabulary : List (Kind × Text) :=
  [(.ifWord, utf8 "if"), (.thenWord, utf8 "then"), (.elseWord, utf8 "else"),
    (.trueWord, utf8 "true"), (.falseWord, utf8 "false"), (.and, utf8 "&&"), (.or, utf8 "||"),
    (.equal, utf8 "==")]

def marks : List (Kind × Text) :=
  [(.plus, utf8 "+"), (.not, utf8 "!"), (.openParen, utf8 "("), (.closeParen, utf8 ")")]

inductive IsLexeme : Token → Prop
  | number {digits : Text} :
      digits ≠ [] → (∀ c ∈ digits, Byte.isDigit c = true) → IsLexeme ⟨.number, digits⟩
  | word {kind : Kind} {text : Text} : (kind, text) ∈ vocabulary → IsLexeme ⟨kind, text⟩
  | mark {kind : Kind} {text : Text} : (kind, text) ∈ marks → IsLexeme ⟨kind, text⟩

def Skipped (c : UInt8) : Prop := ∀ t, IsLexeme t → t.text.head? ≠ some c

def EndsNumber (rest : Text) : Prop := ∀ c, rest.head? = some c → Byte.isDigit c = false

theorem ne_number_of_mem : ∀ entry ∈ vocabulary ++ marks, entry.1 ≠ .number := by decide

namespace IsLexeme

variable {t : Token} (h : IsLexeme t)

include h

theorem number_or_mem :
    (t.text ≠ [] ∧ t.kind = .number ∧ ∀ c ∈ t.text, Byte.isDigit c = true) ∨
      (t.kind, t.text) ∈ vocabulary ++ marks := by
  cases h with
  | number hne hdigits => exact .inl ⟨hne, rfl, hdigits⟩
  | word hmem => exact .inr (List.mem_append_left _ hmem)
  | mark hmem => exact .inr (List.mem_append_right _ hmem)

theorem ne_nil : t.text ≠ [] := by
  have hall : ∀ entry ∈ vocabulary ++ marks, entry.2 ≠ [] := by decide
  rcases h.number_or_mem with ⟨hne, -⟩ | hmem
  · exact hne
  · exact hall _ hmem

theorem digits (hkind : t.kind = .number) : ∀ c ∈ t.text, Byte.isDigit c = true := by
  rcases h.number_or_mem with ⟨-, -, hdigits⟩ | hmem
  · exact hdigits
  · exact absurd hkind (ne_number_of_mem _ hmem)

theorem last (hkind : t.kind ≠ .number) {c : UInt8} (hc : t.text.getLast? = some c) :
    Byte.isDigit c = false := by
  have hall : ∀ entry ∈ vocabulary ++ marks, entry.2.getLast?.any Byte.isDigit = false := by
    decide
  rcases h.number_or_mem with ⟨-, hnumber, -⟩ | hmem
  · exact absurd hnumber hkind
  · simpa [hc] using hall _ hmem

end IsLexeme

structure Broken (stuck : Text) (length : Nat) : Prop where
  starts : ∃ entry ∈ vocabulary, ∃ c, entry.2.head? = some c ∧ stuck.head? = some c
  absent : ∀ entry ∈ vocabulary, ¬entry.2 <+: stuck
  length_le : length ≤ stuck.length
  viable : ∃ entry ∈ vocabulary, stuck.take length <+: entry.2
  longest : length < stuck.length → ∀ entry ∈ vocabulary, ¬stuck.take (length + 1) <+: entry.2

theorem Broken.unique {stuck : Text} {n m : Nat} (hn : Broken stuck n) (hm : Broken stuck m) :
    n = m := by
  have hle {n m : Nat} (hn : Broken stuck n) (hm : Broken stuck m) : m ≤ n := by
    refine Nat.le_of_not_lt fun hlt => ?_
    obtain ⟨entry, hentry, hviable⟩ := hm.viable
    have hpre : stuck.take (n + 1) <+: stuck.take m := List.take_prefix_take_left hlt
    exact hn.longest (Nat.lt_of_lt_of_le hlt hm.length_le) entry hentry (hpre.trans hviable)
  exact Nat.le_antisymm (hle hm hn) (hle hn hm)

namespace Lexer

variable {offset : Nat} {mode next : Mode} {c : UInt8} {rest text expect : Text} {kind : Kind}
  {tokens : List Token}

theorem lexFrom_cons (h : step offset c mode = .ok (tokens, next)) (rest : Text) :
    lexFrom mode offset (c :: rest) = (tokens ++ ·) <$> lexFrom next (offset + 1) rest := by
  rw [lexFrom, h]
  rfl

theorem lexFrom_between (offset : Nat) (c : UInt8) (rest : Text) :
    lexFrom .between offset (c :: rest) =
      ((start c).1 ++ ·) <$> lexFrom (start c).2 (offset + 1) rest :=
  lexFrom_cons rfl rest

theorem lexFrom_error {d : Diagnostic} (h : step offset c mode = .error d) (rest : Text) :
    lexFrom mode offset (c :: rest) = .error d := by
  rw [lexFrom, h]
  rfl

theorem lexFrom_number {run : Text} (hrun : ∀ c ∈ run, Byte.isDigit c = true)
    (hrest : EndsNumber rest) (digits : Text) (offset : Nat) :
    lexFrom (.number digits) offset (run ++ rest) =
      (⟨.number, digits.reverse ++ run⟩ :: ·) <$> lexFrom .between (offset + run.length) rest := by
  induction run generalizing digits offset with
  | nil =>
      cases rest with
      | nil =>
          rw [List.append_nil, List.append_nil]
          rfl
      | cons c rest =>
          have hc : Byte.isDigit c = false := hrest c rfl
          have hstep : step offset c (.number digits) =
              .ok (⟨.number, digits.reverse⟩ :: (start c).1, (start c).2) := by simp [step, hc]
          rw [List.nil_append, lexFrom_cons hstep, List.length_nil, Nat.add_zero, lexFrom_between]
          simp
  | cons c run ih =>
      obtain ⟨hc, hrun⟩ := List.forall_mem_cons.mp hrun
      have hstep : step offset c (.number digits) = .ok ([], .number (c :: digits)) := by
        simp [step, hc]
      rw [List.cons_append, lexFrom_cons hstep, ih hrun]
      simp [Nat.add_assoc, Nat.add_comm 1]

theorem lexFrom_word (kind : Kind) (text : Text) (hexpect : expect ≠ []) (offset : Nat)
    (rest : Text) :
    lexFrom (.word kind text expect) offset (expect ++ rest) =
      (⟨kind, text⟩ :: ·) <$> lexFrom .between (offset + expect.length) rest := by
  induction expect generalizing offset with
  | nil => exact absurd rfl hexpect
  | cons c expect ih =>
      cases expect with
      | nil =>
          have hstep : step offset c (.word kind text [c]) = .ok ([⟨kind, text⟩], .between) := by
            simp [step, wordStep]
          rw [List.cons_append, lexFrom_cons hstep]
          rfl
      | cons second expect =>
          have hstep : step offset c (.word kind text (c :: second :: expect)) =
              .ok ([], .word kind text (second :: expect)) := by simp [step, wordStep]
          rw [List.cons_append, lexFrom_cons hstep, ih (by simp)]
          simp [Nat.add_assoc, Nat.add_comm 1]

structure StopsAfter (expect source : Text) (length : Nat) : Prop where
  length_le : length ≤ source.length
  viable : source.take length <+: expect
  longest : length < source.length → ¬source.take (length + 1) <+: expect

def FailsAfter (mode : Mode) (source : Text) (length : Nat) : Prop :=
  ∃ expected, ∀ offset, lexFrom mode offset source =
    unexpected (offset + length) expected ((source.drop length).take 1)

theorem FailsAfter.cons {length : Nat}
    (hstep : ∀ offset, step offset c mode = .ok ([], next)) (h : FailsAfter next rest length) :
    FailsAfter mode (c :: rest) (length + 1) := by
  obtain ⟨expected, hfails⟩ := h
  refine ⟨expected, fun offset => ?_⟩
  have hoffset : offset + 1 + length = offset + (length + 1) := by omega
  rw [lexFrom_cons (hstep offset), hfails, hoffset]
  rfl

def Reaches (mode : Mode) (before : Text) (next : Mode) : Prop :=
  ∀ offset rest, lexFrom mode offset (before ++ rest) = lexFrom next (offset + before.length) rest

theorem Reaches.cons {before : Text} {last : Mode}
    (hstep : ∀ offset, step offset c mode = .ok ([], next)) (h : Reaches next before last) :
    Reaches mode (c :: before) last := by
  intro offset rest
  have hoffset : offset + 1 + before.length = offset + (before.length + 1) := by omega
  rw [List.cons_append, lexFrom_cons (hstep offset), h, hoffset]
  exact id_map _

theorem Reaches.fails {before source : Text} {length : Nat} (h : Reaches mode before next)
    (hfails : FailsAfter next source length) :
    FailsAfter mode (before ++ source) (before.length + length) := by
  obtain ⟨expected, hfails⟩ := hfails
  refine ⟨expected, fun offset => ?_⟩
  rw [h, hfails, Nat.add_assoc, List.drop_length_add_append]

theorem word_fails (kind : Kind) (text : Text) {source : Text} (h : ¬expect <+: source) :
    ∃ length, StopsAfter expect source length ∧
      FailsAfter (.word kind text expect) source length := by
  induction expect generalizing source with
  | nil => exact absurd (List.nil_prefix) h
  | cons e expect ih =>
      cases source with
      | nil =>
          refine ⟨0, ⟨Nat.le_refl _, List.nil_prefix, fun hlt => absurd hlt (by simp)⟩, ?_⟩
          exact ⟨Text.inQuotes [e], fun offset => rfl⟩
      | cons c rest =>
          by_cases hc : c = e
          · subst hc
            have hrest : ¬expect <+: rest := by simpa using h
            obtain ⟨length, hstops, hfails⟩ := ih hrest
            refine ⟨length + 1, ⟨?_, ?_, ?_⟩, hfails.cons fun offset => ?_⟩
            · simpa using hstops.length_le
            · simpa using hstops.viable
            · simpa using hstops.longest
            · cases expect with
              | nil => exact absurd List.nil_prefix hrest
              | cons second expect => simp [step, wordStep]
          · refine ⟨0, ⟨Nat.zero_le _, List.nil_prefix, fun _ => by simpa using hc⟩, ?_⟩
            refine ⟨Text.inQuotes [e], fun offset => lexFrom_error ?_ rest⟩
            cases expect with
            | nil => simp [step, wordStep, hc, unexpected]
            | cons second expect => simp [step, wordStep, hc, unexpected]

structure Head (kind : Kind) (before expect : Text) : Prop where
  mem : (kind, before ++ expect) ∈ vocabulary
  before_ne_nil : before ≠ []
  expect_ne_nil : expect ≠ []
  only : ∀ entry ∈ vocabulary, before <+: entry.2 ∨ entry.2 <+: before →
    entry.2 = before ++ expect
  reaches : Reaches .between before (.word kind (before ++ expect) expect)

theorem Head.broken {before source : Text} {length : Nat} (h : Head kind before expect)
    (habsent : ¬expect <+: source) (hstops : StopsAfter expect source length) :
    Broken (before ++ source) (before.length + length) where
  starts := by
    obtain ⟨c, rest, rfl⟩ := List.exists_cons_of_ne_nil h.before_ne_nil
    exact ⟨_, h.mem, c, rfl, rfl⟩
  absent := by
    intro entry hmem hpre
    have hcomparable := List.prefix_or_prefix_of_prefix (List.prefix_append before source) hpre
    rw [h.only entry hmem hcomparable, List.prefix_append_right_inj] at hpre
    exact habsent hpre
  length_le := by
    have hle := hstops.length_le
    rw [List.length_append]
    omega
  viable := by
    refine ⟨_, h.mem, ?_⟩
    rw [List.take_length_add_append, List.prefix_append_right_inj]
    exact hstops.viable
  longest := by
    intro hlt entry hmem hpre
    rw [Nat.add_assoc, List.take_length_add_append] at hpre
    have hstarts : before <+: entry.2 := (List.prefix_append _ _).trans hpre
    rw [h.only entry hmem (.inl hstarts), List.prefix_append_right_inj] at hpre
    rw [List.length_append] at hlt
    exact hstops.longest (by omega) hpre

theorem mem_vocabulary_of_mem_words : ∀ entry ∈ words, entry ∈ vocabulary := by decide

theorem mem_words_of_mem_vocabulary :
    ∀ entry ∈ vocabulary, entry ∈ words ∨ entry = (.thenWord, utf8 "then") ∨
      entry = (.trueWord, utf8 "true") := by decide

theorem single?_of_mem_marks : ∀ entry ∈ marks, entry.2.head?.bind single? = some entry.1 := by
  decide

theorem start_mark :
    ∀ entry ∈ marks, entry.2.head?.map start = some ([⟨entry.1, entry.2⟩], .between) := by decide

theorem start_word :
    ∀ entry ∈ words, entry.2.tail ≠ [] ∧
      entry.2.head?.map start = some ([], .word entry.1 entry.2 entry.2.tail) := by decide

theorem eq_of_mem_words :
    ∀ entry ∈ words, ∀ other ∈ vocabulary,
      entry.2.take 1 <+: other.2 ∨ other.2 <+: entry.2.take 1 → other.2 = entry.2 := by decide

theorem single?_eq_some (h : single? c = some kind) : (kind, [c]) ∈ marks := by
  have hcases : kind = .plus ∧ c = Byte.plus ∨ kind = .not ∧ c = Byte.bang ∨
      kind = .openParen ∧ c = Byte.openParen ∨ kind = .closeParen ∧ c = Byte.closeParen := by
    grind [single?]
  rcases hcases with ⟨rfl, rfl⟩ | ⟨rfl, rfl⟩ | ⟨rfl, rfl⟩ | ⟨rfl, rfl⟩ <;> decide

theorem isDigit_of_skipped (h : Skipped c) : Byte.isDigit c = false := by
  rw [Bool.eq_false_iff]
  intro hdigit
  have hlexeme : IsLexeme ⟨.number, [c]⟩ := .number (by simp) (by simpa using hdigit)
  exact h _ hlexeme rfl

theorem start_skipped (h : Skipped c) : start c = ([], .between) := by
  have htee : c ≠ 116 := by
    rintro rfl
    exact h ⟨.thenWord, utf8 "then"⟩ (.word (by decide)) rfl
  have hsingle : single? c = none := by
    cases hkind : single? c with
    | none => rfl
    | some kind => exact absurd rfl (h ⟨kind, [c]⟩ (.mark (single?_eq_some hkind)))
  have hword : (words.find? fun entry => entry.2.head? = some c) = none := by
    rw [List.find?_eq_none]
    intro entry hmem
    simpa using h ⟨entry.1, entry.2⟩ (.word (mem_vocabulary_of_mem_words entry hmem))
  simp [start, isDigit_of_skipped h, htee, hsingle, hword]

theorem first_cases (c : UInt8) :
    Byte.isDigit c = true ∨ c = 116 ∨ (∃ kind, (kind, [c]) ∈ marks) ∨
      (∃ entry ∈ words, entry.2.head? = some c) ∨ Skipped c := by
  by_cases hdigit : Byte.isDigit c = true
  · exact .inl hdigit
  by_cases htee : c = 116
  · exact .inr (.inl htee)
  cases hsingle : single? c with
  | some kind => exact .inr (.inr (.inl ⟨kind, single?_eq_some hsingle⟩))
  | none =>
      by_cases hword : ∃ entry ∈ words, entry.2.head? = some c
      · exact .inr (.inr (.inr (.inl hword)))
      · refine .inr (.inr (.inr (.inr fun t ht hhead => ?_)))
        cases ht with
        | number hdigits hall =>
            obtain ⟨digits, rfl⟩ := List.head?_eq_some_iff.mp hhead
            exact hdigit (hall c List.mem_cons_self)
        | word hmem =>
            rcases mem_words_of_mem_vocabulary _ hmem with hmem | hentry | hentry
            · exact hword ⟨_, hmem, hhead⟩
            all_goals
              obtain ⟨rfl, rfl⟩ := Prod.mk.inj hentry
              exact htee (Option.some.inj hhead).symm
        | mark hmem =>
            have hkind := single?_of_mem_marks _ hmem
            rw [hhead, Option.bind_some, hsingle] at hkind
            cases hkind

theorem tee_continues :
    ∀ entry ∈ vocabulary, [116] <+: entry.2 ∨ entry.2 <+: [116] →
      [116, 104] <+: entry.2 ∨ [116, 114] <+: entry.2 := by decide

theorem broken_tee (hh : ¬[104] <+: rest) (hr : ¬[114] <+: rest) : Broken (116 :: rest) 1 where
  starts := ⟨(.thenWord, utf8 "then"), by decide, 116, rfl, rfl⟩
  absent := by
    intro entry hmem hpre
    have hcomparable : [116] <+: entry.2 ∨ entry.2 <+: [116] :=
      List.prefix_or_prefix_of_prefix (List.prefix_append [116] rest) hpre
    rcases tee_continues entry hmem hcomparable with hnext | hnext
    · exact hh (by simpa using hnext.trans hpre)
    · exact hr (by simpa using hnext.trans hpre)
  length_le := by simp
  viable := by
    refine ⟨(.thenWord, utf8 "then"), by decide, ?_⟩
    change [116] <+: utf8 "then"
    decide
  longest := by
    intro hlt entry hmem hpre
    cases rest with
    | nil => simp at hlt
    | cons d rest =>
        have hstarts : [116] <+: entry.2 := (List.prefix_append [116] [d]).trans hpre
        have heq {e : UInt8} (hnext : [116, e] <+: entry.2) : [e] <+: d :: rest := by
          have hsame := List.prefix_of_prefix_length_le hpre hnext (by simp)
          obtain rfl : d = e := by simpa using hsame
          exact List.prefix_append [d] rest
        rcases tee_continues entry hmem (.inl hstarts) with hnext | hnext
        · exact hh (heq hnext)
        · exact hr (heq hnext)

theorem tee_fails (hh : ¬[104] <+: rest) (hr : ¬[114] <+: rest) : FailsAfter .tee rest 0 := by
  refine ⟨utf8 "'r' or 'h'", fun offset => ?_⟩
  cases rest with
  | nil => rfl
  | cons d rest =>
      have hdh : d ≠ 104 := by simpa [eq_comm] using hh
      have hdr : d ≠ 114 := by simpa [eq_comm] using hr
      exact lexFrom_error (by simp [step, hdh, hdr, unexpected]) rest

def Begins (source : Text) : Prop :=
  (∃ t after, IsLexeme t ∧ source = t.text ++ after ∧ (t.kind = .number → EndsNumber after)) ∨
    ∃ length, Broken source length ∧ FailsAfter .between source length

theorem Head.ne_number {before : Text} (h : Head kind before expect) : kind ≠ .number :=
  ne_number_of_mem _ (List.mem_append_left _ h.mem)

theorem head_of_mem_words (hmem : (kind, c :: rest) ∈ words) : Head kind [c] rest where
  mem := mem_vocabulary_of_mem_words _ hmem
  before_ne_nil := List.cons_ne_nil c []
  expect_ne_nil := (start_word _ hmem).1
  only := eq_of_mem_words _ hmem
  reaches := by
    have hstart : start c = ([], .word kind (c :: rest) rest) :=
      Option.some.inj (start_word _ hmem).2
    exact Reaches.cons (fun _ => congrArg Except.ok hstart) fun _ _ => rfl

theorem head_then : Head .thenWord (utf8 "th") (utf8 "en") where
  mem := by decide
  before_ne_nil := by decide
  expect_ne_nil := by decide
  only := by decide
  reaches := Reaches.cons (fun _ => rfl) (Reaches.cons (fun _ => rfl) fun _ _ => rfl)

theorem head_true : Head .trueWord (utf8 "tr") (utf8 "ue") where
  mem := by decide
  before_ne_nil := by decide
  expect_ne_nil := by decide
  only := by decide
  reaches := Reaches.cons (fun _ => rfl) (Reaches.cons (fun _ => rfl) fun _ _ => rfl)

theorem exists_head (hmem : (kind, text) ∈ vocabulary) :
    ∃ before expect, text = before ++ expect ∧ Head kind before expect := by
  rcases mem_words_of_mem_vocabulary _ hmem with hword | hentry | hentry
  · cases text with
    | nil => cases (start_word _ hword).2
    | cons c rest => exact ⟨[c], rest, rfl, head_of_mem_words hword⟩
  · obtain ⟨rfl, rfl⟩ := Prod.mk.inj hentry
    exact ⟨utf8 "th", utf8 "en", rfl, head_then⟩
  · obtain ⟨rfl, rfl⟩ := Prod.mk.inj hentry
    exact ⟨utf8 "tr", utf8 "ue", rfl, head_true⟩

theorem Head.begins {before : Text} (h : Head kind before expect) (source : Text) :
    Begins (before ++ source) := by
  by_cases hexpect : expect <+: source
  · obtain ⟨after, rfl⟩ := hexpect
    exact .inl ⟨_, after, .word h.mem, by simp, fun hkind => absurd hkind h.ne_number⟩
  · obtain ⟨length, hstops, hfails⟩ := word_fails kind (before ++ expect) hexpect
    exact .inr ⟨_, h.broken hexpect hstops, h.reaches.fails hfails⟩

theorem tee_begins (rest : Text) : Begins (116 :: rest) := by
  by_cases hh : [104] <+: rest
  · obtain ⟨after, rfl⟩ := hh
    exact head_then.begins after
  by_cases hr : [114] <+: rest
  · obtain ⟨after, rfl⟩ := hr
    exact head_true.begins after
  exact .inr ⟨1, broken_tee hh hr, (tee_fails hh hr).cons fun _ => rfl⟩

theorem number_begins (hdigit : Byte.isDigit c = true) (rest : Text) : Begins (c :: rest) := by
  refine .inl ⟨⟨.number, (c :: rest).takeWhile Byte.isDigit⟩,
    (c :: rest).dropWhile Byte.isDigit, .number ?_ ?_, ?_, fun _ d hd => ?_⟩
  · simp [hdigit]
  · exact List.all_eq_true.mp List.all_takeWhile
  · exact List.takeWhile_append_dropWhile.symm
  · have hnot := List.head?_dropWhile_not Byte.isDigit (c :: rest)
    simpa [hd] using hnot

theorem begins (c : UInt8) (rest : Text) : Skipped c ∨ Begins (c :: rest) := by
  rcases first_cases c with hdigit | rfl | ⟨kind, hmark⟩ | ⟨⟨kind, text⟩, hword, hhead⟩ | hskipped
  · exact .inr (number_begins hdigit rest)
  · exact .inr (tee_begins rest)
  · have hkind := ne_number_of_mem _ (List.mem_append_right _ hmark)
    exact .inr (.inl ⟨⟨kind, [c]⟩, rest, .mark hmark, rfl, fun h => absurd h hkind⟩)
  · obtain ⟨tail, rfl⟩ := List.head?_eq_some_iff.mp hhead
    exact .inr ((head_of_mem_words hword).begins rest)
  · exact .inl hskipped

end Lexer

end TypedSexp.Legacy
