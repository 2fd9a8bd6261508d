import TypedSexp.Proofs.Legacy.Lexemes
import TypedSexp.Proofs.Sexp.Relocate

namespace TypedSexp.Legacy

abbrev Piece := Token ⊕ UInt8

namespace Piece

def spelling (pieces : List Piece) : Text := pieces.flatMap (Sum.elim Token.text fun c => [c])

def tokens (pieces : List Piece) : List Token := pieces.filterMap Sum.getLeft?

end Piece

open Piece (spelling)

structure IsMaximalRun (before run after : Text) : Prop where
  ne_nil : run ≠ []
  digits : ∀ c ∈ run, Byte.isDigit c = true
  left : ∀ c, before.getLast? = some c → Byte.isDigit c = false
  right : ∀ c, after.head? = some c → Byte.isDigit c = false

structure Decomposes (source : Text) (pieces : List Piece) : Prop where
  spelling_eq : spelling pieces = source
  lexeme : ∀ t, .inl t ∈ pieces → IsLexeme t
  skipped : ∀ c, .inr c ∈ pieces → Skipped c
  maximal : ∀ before t after, pieces = before ++ .inl t :: after → t.kind = .number →
    IsMaximalRun (spelling before) t.text (spelling after)

def BreaksOff (source : Text) (offset : Nat) : Prop :=
  ∃ before pieces stuck length, source = before ++ stuck ∧ Decomposes before pieces ∧
    Broken stuck length ∧ offset = before.length + length

inductive Tiles (rest : Text) : List Piece → Prop
  | nil : Tiles rest []
  | skip {c : UInt8} {pieces : List Piece} :
      Skipped c → Tiles rest pieces → Tiles rest (.inr c :: pieces)
  | token {t : Token} {pieces : List Piece} :
      IsLexeme t → (t.kind = .number → EndsNumber (spelling pieces ++ rest)) →
      Tiles rest pieces → Tiles rest (.inl t :: pieces)

variable {rest source : Text} {pieces before after : List Piece} {t : Token}

namespace Piece

@[simp]
theorem spelling_token (t : Token) (pieces : List Piece) :
    spelling (.inl t :: pieces) = t.text ++ spelling pieces := List.flatMap_cons

@[simp]
theorem spelling_skip (c : UInt8) (pieces : List Piece) :
    spelling (.inr c :: pieces) = c :: spelling pieces := List.flatMap_cons

@[simp]
theorem tokens_token (t : Token) (pieces : List Piece) :
    tokens (.inl t :: pieces) = t :: tokens pieces := rfl

@[simp]
theorem tokens_skip (c : UInt8) (pieces : List Piece) :
    tokens (.inr c :: pieces) = tokens pieces := rfl

end Piece

theorem EndsNumber.append {text : Text} (h : EndsNumber text) (hrest : EndsNumber rest) :
    EndsNumber (text ++ rest) := by
  cases text with
  | nil => exact hrest
  | cons c text => exact h

theorem EndsNumber.left {text : Text} (h : EndsNumber (text ++ rest)) : EndsNumber text := by
  cases text with
  | nil => exact fun c hc => nomatch hc
  | cons c text => exact h

theorem Tiles.of_append (h : Tiles rest (before ++ pieces)) : Tiles rest pieces := by
  induction before with
  | nil => exact h
  | cons piece before ih =>
      cases h with
      | skip _ h => exact ih h
      | token _ _ h => exact ih h

theorem Tiles.mono (h : Tiles [] pieces) (hrest : EndsNumber rest) : Tiles rest pieces := by
  induction h with
  | nil => exact .nil
  | skip hskipped _ ih => exact .skip hskipped ih
  | token hlexeme hends _ ih =>
      refine .token hlexeme (fun hkind => ?_) ih
      have hends := hends hkind
      rw [List.append_nil] at hends
      exact hends.append hrest

theorem Tiles.last (h : Tiles rest (before ++ pieces)) {d : UInt8}
    (hd : (spelling pieces ++ rest).head? = some d) (hdigit : Byte.isDigit d = true) (c : UInt8)
    (hc : (spelling before).getLast? = some c) : Byte.isDigit c = false := by
  -- the piece before the digit is no number, and no other piece ends in a digit
  rcases List.eq_nil_or_concat before with rfl | ⟨init, piece, rfl⟩
  · cases hc
  rw [List.concat_eq_append, List.append_assoc] at h
  rw [List.concat_eq_append, Piece.spelling, List.flatMap_append] at hc
  cases h.of_append with
  | skip hskipped h =>
      obtain rfl : _ = c := by simpa using hc
      exact Lexer.isDigit_of_skipped hskipped
  | @token t _ hlexeme hends h =>
      have hkind : t.kind ≠ .number := by
        intro hkind
        rw [hends hkind d hd] at hdigit
        cases hdigit
      refine hlexeme.last hkind ?_
      have hne := hlexeme.ne_nil
      simpa [List.getLast?_append, hne] using hc

theorem Tiles.decomposes (h : Tiles [] pieces) : Decomposes (spelling pieces) pieces where
  spelling_eq := rfl
  lexeme := by
    intro t ht
    induction h with
    | nil => cases ht
    | skip _ _ ih => exact ih (by simpa using ht)
    | token hlexeme _ _ ih =>
        rcases List.mem_cons.mp ht with heq | ht
        · cases heq
          exact hlexeme
        · exact ih ht
  skipped := by
    intro c hc
    induction h with
    | nil => cases hc
    | skip hskipped _ ih =>
        rcases List.mem_cons.mp hc with heq | hc
        · cases heq
          exact hskipped
        · exact ih hc
    | token _ _ _ ih => exact ih (by simpa using hc)
  maximal := by
    intro before t after heq hkind
    subst heq
    cases h.of_append with
    | token hlexeme hends hafter =>
        obtain ⟨d, run, hrun⟩ := List.exists_cons_of_ne_nil hlexeme.ne_nil
        have hdigits := hlexeme.digits hkind
        refine ⟨hlexeme.ne_nil, hdigits, ?_, ?_⟩
        · refine h.last ?_ (hdigits d (hrun ▸ List.mem_cons_self))
          rw [Piece.spelling_token, hrun]
          rfl
        · have hends := hends hkind
          rwa [List.append_nil] at hends

theorem Decomposes.tiles (h : Decomposes source pieces) : Tiles [] pieces := by
  have hends : ∀ before t after, pieces = before ++ .inl t :: after → t.kind = .number →
      EndsNumber (spelling after) :=
    fun before t after heq hkind => (h.maximal before t after heq hkind).right
  have hlexeme := h.lexeme
  have hskipped := h.skipped
  clear h
  induction pieces with
  | nil => exact .nil
  | cons piece pieces ih =>
      have hpieces : Tiles [] pieces := by
        refine ih ?_ ?_ ?_
        · intro before t after heq
          exact hends (piece :: before) t after (by rw [heq, List.cons_append])
        · exact fun t ht => hlexeme t (List.mem_cons_of_mem _ ht)
        · exact fun c hc => hskipped c (List.mem_cons_of_mem _ hc)
      cases piece with
      | inr c => exact .skip (hskipped c List.mem_cons_self) hpieces
      | inl t =>
          refine .token (hlexeme t List.mem_cons_self) (fun hkind => ?_) hpieces
          rw [List.append_nil]
          exact hends [] t pieces rfl hkind

namespace Lexer

theorem lexFrom_lexeme (h : IsLexeme t) (hends : t.kind = .number → EndsNumber rest)
    (offset : Nat) :
    lexFrom .between offset (t.text ++ rest) =
      (t :: ·) <$> lexFrom .between (offset + t.text.length) rest := by
  cases h with
  | @number digits hne hdigits =>
      obtain ⟨c, run, rfl⟩ := List.exists_cons_of_ne_nil hne
      obtain ⟨hc, hrun⟩ := List.forall_mem_cons.mp hdigits
      have hstart : step offset c .between = .ok ([], .number [c]) := by simp [step, start, hc]
      rw [List.cons_append, lexFrom_cons hstart, lexFrom_number hrun (hends rfl)]
      simp [Nat.add_assoc, Nat.add_comm 1]
  | @word kind text hmem =>
      obtain ⟨before, expect, rfl, hhead⟩ := exists_head hmem
      rw [List.append_assoc, hhead.reaches, lexFrom_word _ _ hhead.expect_ne_nil,
        List.length_append, Nat.add_assoc]
  | @mark kind text hmem =>
      have hstart := start_mark _ hmem
      cases text with
      | nil => cases hstart
      | cons c text =>
          have hone : text = [] := by
            have hall : ∀ entry ∈ marks, entry.2.tail = [] := by decide
            exact hall _ hmem
          subst hone
          have hstep : step offset c .between = .ok ([⟨kind, [c]⟩], .between) :=
            congrArg Except.ok (Option.some.inj hstart)
          exact lexFrom_cons hstep rest

theorem lexFrom_tiles (h : Tiles rest pieces) (offset : Nat) :
    lexFrom .between offset (spelling pieces ++ rest) =
      (Piece.tokens pieces ++ ·) <$> lexFrom .between (offset + (spelling pieces).length) rest := by
  induction h generalizing offset with
  | nil => exact (id_map _).symm
  | @skip c pieces hskipped _ ih =>
      have hstep : step offset c .between = .ok ([], .between) :=
        congrArg Except.ok (start_skipped hskipped)
      rw [Piece.spelling_skip, List.cons_append, lexFrom_cons hstep, ih]
      simp [Nat.add_assoc, Nat.add_comm 1]
  | @token t pieces hlexeme hends _ ih =>
      rw [Piece.spelling_token, List.append_assoc, lexFrom_lexeme hlexeme hends, ih]
      simp [Nat.add_assoc]

end Lexer

theorem Broken.endsNumber {stuck : Text} {length : Nat} (h : Broken stuck length) :
    EndsNumber stuck := by
  have hall : ∀ entry ∈ vocabulary, entry.2.head?.any Byte.isDigit = false := by decide
  obtain ⟨entry, hmem, c, hentry, hstuck⟩ := h.starts
  intro d hd
  obtain rfl : c = d := Option.some.inj (hstuck.symm.trans hd)
  simpa [hentry] using hall entry hmem

theorem Broken.not_lexeme {stuck : Text} {length : Nat} (h : Broken stuck length)
    (ht : IsLexeme t) : ¬t.text <+: stuck := by
  rintro ⟨after, heq⟩
  have hall : ∀ entry ∈ vocabulary, ∀ mark ∈ marks, entry.2.head? ≠ mark.2.head? := by decide
  obtain ⟨entry, hmem, c, hentry, hstuck⟩ := h.starts
  have hhead : t.text.head? = some c := by
    obtain ⟨d, run, hrun⟩ := List.exists_cons_of_ne_nil ht.ne_nil
    rw [← heq, hrun] at hstuck
    rw [hrun]
    exact hstuck
  cases ht with
  | number hne hdigits =>
      have hdigit : Byte.isDigit c = false := h.endsNumber c hstuck
      rw [hdigits c (List.mem_of_mem_head? hhead)] at hdigit
      cases hdigit
  | word hword => exact h.absent _ hword ⟨after, heq⟩
  | mark hmark => exact hall entry hmem _ hmark (hentry.trans hhead.symm)

theorem Broken.fails {stuck : Text} {length : Nat} (h : Broken stuck length) :
    Lexer.FailsAfter .between stuck length := by
  obtain ⟨entry, hmem, c, hentry, hstuck⟩ := h.starts
  obtain ⟨after, rfl⟩ := List.head?_eq_some_iff.mp hstuck
  rcases Lexer.begins c after with hskipped | ⟨t, last, ht, heq, _⟩ | ⟨m, hbroken, hfails⟩
  · exact absurd hentry (hskipped ⟨entry.1, entry.2⟩ (.word hmem))
  · exact absurd ⟨last, heq.symm⟩ (h.not_lexeme ht)
  · rw [h.unique hbroken]
    exact hfails

theorem BreaksOff.lex_eq {offset : Nat} (h : BreaksOff source offset) :
    offset ≤ source.length ∧ ∃ expected, lex source =
      Lexer.unexpected offset expected ((source.drop offset).take 1) := by
  obtain ⟨before, pieces, stuck, length, rfl, hpieces, hbroken, rfl⟩ := h
  obtain ⟨expected, hfails⟩ := hbroken.fails
  refine ⟨by simpa using hbroken.length_le, expected, ?_⟩
  have hlex := Lexer.lexFrom_tiles (hpieces.tiles.mono hbroken.endsNumber) 0
  rw [hfails, hpieces.spelling_eq, Nat.zero_add] at hlex
  rw [lex, hlex, List.drop_length_add_append]
  rfl

theorem tiles_or_broken (source : Text) :
    (∃ pieces, Tiles [] pieces ∧ spelling pieces = source) ∨
      ∃ pieces stuck length, Tiles [] pieces ∧ spelling pieces ++ stuck = source ∧
        Broken stuck length := by
  -- what follows a piece is shorter
  induction hn : source.length using Nat.strongRecOn generalizing source with
  | ind n ih =>
      subst hn
      cases source with
      | nil => exact .inl ⟨[], .nil, rfl⟩
      | cons c rest =>
          rcases Lexer.begins c rest with hskipped | ⟨t, after, ht, heq, hends⟩ | ⟨length, h, _⟩
          · rcases ih rest.length (by simp) rest rfl with
              ⟨pieces, htiles, rfl⟩ | ⟨pieces, stuck, length, htiles, rfl, hbroken⟩
            · exact .inl ⟨.inr c :: pieces, .skip hskipped htiles, by simp⟩
            · exact .inr ⟨.inr c :: pieces, stuck, length, .skip hskipped htiles, by simp, hbroken⟩
          · have hshorter : after.length < (c :: rest).length := by
              have hpos := List.length_pos_iff.mpr ht.ne_nil
              rw [heq, List.length_append]
              omega
            rcases ih after.length hshorter after rfl with
              ⟨pieces, htiles, rfl⟩ | ⟨pieces, stuck, length, htiles, rfl, hbroken⟩
            · refine .inl ⟨.inl t :: pieces, .token ht ?_ htiles, by simp [heq]⟩
              rwa [List.append_nil]
            · refine .inr ⟨.inl t :: pieces, stuck, length, .token ht ?_ htiles, by simp [heq],
                hbroken⟩
              rw [List.append_nil]
              exact fun hkind => (hends hkind).left
          · exact .inr ⟨[], c :: rest, length, .nil, rfl, h⟩

theorem decomposes_or_breaksOff (source : Text) :
    (∃ pieces, Decomposes source pieces) ∨ ∃ offset, BreaksOff source offset := by
  rcases tiles_or_broken source with
    ⟨pieces, htiles, rfl⟩ | ⟨pieces, stuck, length, htiles, rfl, hbroken⟩
  · exact .inl ⟨pieces, htiles.decomposes⟩
  · exact .inr ⟨_, spelling pieces, pieces, stuck, length, rfl, htiles.decomposes, hbroken, rfl⟩

theorem Decomposes.lex_eq (h : Decomposes source pieces) :
    lex source = .ok (Piece.tokens pieces) := by
  have hlex := Lexer.lexFrom_tiles h.tiles 0
  rw [h.spelling_eq, List.append_nil] at hlex
  rw [lex, hlex]
  exact congrArg Except.ok (List.append_nil _)

theorem lex_eq_ok_iff {tokens : List Token} :
    lex source = .ok tokens ↔
      ∃ pieces, Decomposes source pieces ∧ Piece.tokens pieces = tokens := by
  constructor
  · intro h
    rcases decomposes_or_breaksOff source with ⟨pieces, hpieces⟩ | ⟨offset, hbreaks⟩
    · exact ⟨pieces, hpieces, Except.ok.inj (hpieces.lex_eq.symm.trans h)⟩
    · obtain ⟨-, expected, herror⟩ := hbreaks.lex_eq
      cases herror.symm.trans h
  · rintro ⟨pieces, hpieces, rfl⟩
    exact hpieces.lex_eq

theorem lex_fails_iff : (∃ d, lex source = .error d) ↔ ∃ offset, BreaksOff source offset := by
  constructor
  · rintro ⟨d, h⟩
    rcases decomposes_or_breaksOff source with ⟨pieces, hpieces⟩ | hbreaks
    · cases hpieces.lex_eq.symm.trans h
    · exact hbreaks
  · rintro ⟨offset, h⟩
    obtain ⟨-, expected, herror⟩ := h.lex_eq
    exact ⟨_, herror⟩

theorem skipped_space : Skipped Byte.space := by
  have hall : ∀ entry ∈ vocabulary ++ marks, entry.2.head? ≠ some Byte.space := by decide
  intro t ht hhead
  rcases ht.number_or_mem with ⟨-, -, hdigits⟩ | hmem
  · exact absurd (hdigits _ (List.mem_of_mem_head? hhead)) (by decide)
  · exact hall _ hmem hhead

theorem endsNumber_space (rest : Text) : EndsNumber (Byte.space :: rest) := by
  rintro c ⟨⟩
  rfl

theorem exists_spaced (tokens : List Token) (h : ∀ t ∈ tokens, IsLexeme t) :
    ∃ pieces, Tiles [] pieces ∧ Piece.tokens pieces = tokens ∧
      spelling pieces = Text.join [Byte.space] (tokens.map Token.text) := by
  induction tokens with
  | nil => exact ⟨[], .nil, rfl, rfl⟩
  | cons t tokens ih =>
      obtain ⟨ht, htokens⟩ := List.forall_mem_cons.mp h
      cases tokens with
      | nil =>
          refine ⟨[.inl t], .token ht (fun _ c hc => nomatch hc) .nil, rfl, ?_⟩
          simp [spelling, Text.join]
      | cons second tokens =>
          obtain ⟨pieces, htiles, hpieces, hspelling⟩ := ih htokens
          refine ⟨.inl t :: .inr Byte.space :: pieces,
            .token ht (fun _ => ?_) (.skip skipped_space htiles), ?_, ?_⟩
          · rw [Piece.spelling_skip]
            exact endsNumber_space _
          · rw [Piece.tokens_token, Piece.tokens_skip, hpieces]
          · simp [hspelling, Text.join]

theorem Decomposes.lexeme_of_mem (h : Decomposes source pieces) (ht : t ∈ Piece.tokens pieces) :
    IsLexeme t := by
  obtain ⟨piece, hmem, hleft⟩ := List.mem_filterMap.mp ht
  rw [Sum.getLeft?_eq_some_iff] at hleft
  exact h.lexeme t (hleft ▸ hmem)

namespace Lexer

variable (k offset : Nat)

theorem unexpected_shift {α β : Type} (expected found : Text) (g : α → β) :
    unexpected (offset + k) expected found =
      (unexpected offset expected found).relocate (Range.shift k) g := by
  have hrange := Range.ofOffsets_shift k offset offset 1
  simp only [unexpected, Except.relocate, Diagnostic.relocate, ← hrange]

theorem step_shift (c : UInt8) (mode : Mode) :
    step (offset + k) c mode = (step offset c mode).relocate (Range.shift k) id := by
  cases mode with
  | between => rfl
  | number digits =>
      simp only [step]
      split <;> rfl
  | tee =>
      simp only [step, unexpected_shift k offset _ _ id]
      split
      · rfl
      · split <;> rfl
  | word kind text expect =>
      simp only [step]
      unfold wordStep
      simp only [unexpected_shift k offset _ _ id]
      split
      · rfl
      · split <;> rfl
      · split <;> rfl

theorem finish_shift (mode : Mode) :
    finish (offset + k) mode = (finish offset mode).relocate (Range.shift k) id := by
  cases mode with
  | between => rfl
  | number digits => rfl
  | tee => exact unexpected_shift k offset _ _ id
  | word kind text expect => exact unexpected_shift k offset _ _ id

theorem lexFrom_shift (mode : Mode) (source : Text) :
    lexFrom mode (offset + k) source =
      (lexFrom mode offset source).relocate (Range.shift k) id := by
  induction source generalizing mode offset with
  | nil => exact finish_shift k offset mode
  | cons c rest ih =>
      have hoffset : offset + k + 1 = offset + 1 + k := by omega
      have hstep := step_shift k offset c mode
      cases h : step offset c mode with
      | error d =>
          rw [h] at hstep
          rw [lexFrom_error hstep, lexFrom_error h]
          rfl
      | ok result =>
          obtain ⟨tokens, next⟩ := result
          rw [h] at hstep
          rw [lexFrom_cons hstep, lexFrom_cons h, hoffset, ih]
          cases lexFrom next (offset + 1) rest with
          | ok more => rfl
          | error d => rfl

end Lexer

theorem Decomposes.lex_append (h : Decomposes source pieces) (more : Text) :
    lex (source ++ Byte.space :: more) =
      (lex more).relocate (Range.shift (source.length + 1)) (Piece.tokens pieces ++ ·) := by
  have hlex := Lexer.lexFrom_tiles (h.tiles.mono (endsNumber_space more)) 0
  have hspace (offset : Nat) :
      Lexer.step offset Byte.space .between = .ok ([], .between) := rfl
  have hshift := Lexer.lexFrom_shift (source.length + 1) 0 .between more
  rw [h.spelling_eq, Lexer.lexFrom_cons (hspace _), Nat.add_assoc, hshift] at hlex
  rw [lex, hlex, lex]
  cases Lexer.lexFrom .between 0 more with
  | ok tokens => rfl
  | error d => rfl

theorem lexing_is_faithful (source : Text) :
    (∀ tokens, lex source = .ok tokens →
      (∃ pieces, Decomposes source pieces ∧ Piece.tokens pieces = tokens) ∧
        lex (Text.join [Byte.space] (tokens.map Token.text)) = .ok tokens ∧
        ∀ more, lex (source ++ Byte.space :: more) =
          (lex more).relocate (Range.shift (source.length + 1)) (tokens ++ ·)) ∧
      ((∃ d, lex source = .error d) ↔ ∃ offset, BreaksOff source offset) ∧
      ∀ offset, BreaksOff source offset → offset ≤ source.length ∧ ∃ expected,
        lex source = .error ⟨Range.ofOffsets offset (offset + 1),
          .unexpectedByte expected ((source.drop offset).take 1)⟩ := by
  refine ⟨fun tokens htokens => ?_, lex_fails_iff, fun offset h => h.lex_eq⟩
  obtain ⟨pieces, hpieces, rfl⟩ := lex_eq_ok_iff.mp htokens
  obtain ⟨spaced, hspaced, htokens, hjoin⟩ :=
    exists_spaced (Piece.tokens pieces) fun t => hpieces.lexeme_of_mem
  refine ⟨⟨pieces, hpieces, rfl⟩, ?_, hpieces.lex_append⟩
  rw [← hjoin, hspaced.decomposes.lex_eq, htokens]

theorem lexing_is_faithful_thin :
    (∃ pieces, Decomposes (utf8 "12?if") pieces ∧
      Piece.tokens pieces = [⟨.number, utf8 "12"⟩, ⟨.ifWord, utf8 "if"⟩]) ∧
      BreaksOff (utf8 "12 thin") 5 ∧ ∃ expected, lex (utf8 "12 thin") =
        .error ⟨Range.ofOffsets 5 6, .unexpectedByte expected (utf8 "i")⟩ := by
  have hpieces : Tiles [] [.inl ⟨.number, utf8 "12"⟩, .inr Byte.space] :=
    .token (.number (by decide) (List.all_eq_true.mp rfl)) (fun _ => endsNumber_space _)
      (.skip skipped_space .nil)
  have hbroken : Broken (utf8 "thin") 2 :=
    ⟨⟨(.thenWord, utf8 "then"), by decide, 116, rfl, rfl⟩, by decide, by decide, by decide,
      by decide⟩
  have hbreaks : BreaksOff (utf8 "12 thin") 5 :=
    ⟨_, _, _, _, rfl, hpieces.decomposes, hbroken, rfl⟩
  refine ⟨((lexing_is_faithful (utf8 "12?if")).1 _ rfl).1, hbreaks, ?_⟩
  exact ((lexing_is_faithful (utf8 "12 thin")).2.2 5 hbreaks).2

end TypedSexp.Legacy
