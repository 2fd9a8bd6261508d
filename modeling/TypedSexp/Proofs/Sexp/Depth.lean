import TypedSexp.Proofs.Sexp.Balance
import TypedSexp.Sexp.Depth

/-!
Counting parentheses and reading them agree. The count goes over symbols and reading goes over
bytes, but every byte that means something to either is a symbol of its own, whatever malformed
sequences stand around it.
-/

namespace TypedSexp

namespace Text

variable {a b c d : UInt8} {code : Nat}

theorem le_of_continuation? {payload : Nat} (h : continuation? b = some payload) : 0x80 ≤ b := by
  unfold continuation? at h
  split at h
  case isTrue hb => simp_all
  case isFalse => cases h

theorem le_of_pair? (h : pair? a b = some code) : 0x80 ≤ code ∧ 0x80 ≤ b := by
  unfold pair? at h
  split at h
  case isTrue ha =>
    obtain ⟨y, hy, hcode⟩ := Option.bind_eq_some_iff.mp h
    cases hcode
    simp only [Bool.and_eq_true, decide_eq_true_eq, UInt8.le_iff_toNat_le] at ha
    have hlow : 0xC2 ≤ a.toNat := ha.1
    exact ⟨by omega, le_of_continuation? hy⟩
  case isFalse => cases h

theorem le_of_triple? (h : triple? a b c = some code) : 0x80 ≤ code ∧ 0x80 ≤ b ∧ 0x80 ≤ c := by
  unfold triple? at h
  split at h
  case isTrue =>
    obtain ⟨y, hy, h⟩ := Option.bind_eq_some_iff.mp h
    obtain ⟨z, hz, h⟩ := Option.bind_eq_some_iff.mp h
    dsimp only at h
    split at h
    case isTrue => cases h
    case isFalse hrange =>
      cases h
      simp only [Bool.or_eq_true, decide_eq_true_eq, not_or] at hrange
      exact ⟨by omega, le_of_continuation? hy, le_of_continuation? hz⟩
  case isFalse => cases h

theorem le_of_quadruple? (h : quadruple? a b c d = some code) :
    0x80 ≤ code ∧ 0x80 ≤ b ∧ 0x80 ≤ c ∧ 0x80 ≤ d := by
  unfold quadruple? at h
  split at h
  case isTrue =>
    obtain ⟨x, hx, h⟩ := Option.bind_eq_some_iff.mp h
    obtain ⟨y, hy, h⟩ := Option.bind_eq_some_iff.mp h
    obtain ⟨z, hz, h⟩ := Option.bind_eq_some_iff.mp h
    dsimp only at h
    split at h
    case isTrue => cases h
    case isFalse hrange =>
      cases h
      simp only [Bool.or_eq_true, decide_eq_true_eq, not_or] at hrange
      exact ⟨by omega, le_of_continuation? hx, le_of_continuation? hy, le_of_continuation? hz⟩
  case isFalse => cases h

theorem leading_of_lt (h : a < 0x80) (rest : Text) : leading a rest = (.scalar a.toNat, 0) :=
  if_pos h

theorem leading_of_not_lt (h : ¬a < 0x80) (rest : Text) :
    0x80 ≤ (leading a rest).1.code ∧
      ∀ k < (leading a rest).2, ∀ b ∈ rest[k]?, 0x80 ≤ b := by
  rw [leading, if_neg h]
  dsimp only
  split
  case h_1 code htwo =>
    obtain ⟨b, hb, hpair⟩ := Option.bind_eq_some_iff.mp htwo
    have hle := le_of_pair? hpair
    refine ⟨hle.1, fun k hk => ?_⟩
    obtain rfl : k = 0 := by omega
    simpa [hb] using hle.2
  case h_2 code hthree _ =>
    obtain ⟨b, hb, h⟩ := Option.bind_eq_some_iff.mp hthree
    obtain ⟨c, hc, htriple⟩ := Option.bind_eq_some_iff.mp h
    have hle := le_of_triple? htriple
    refine ⟨hle.1, fun k hk => ?_⟩
    obtain rfl | rfl : k = 0 ∨ k = 1 := by omega
    · simpa [hb] using hle.2.1
    · simpa [hc] using hle.2.2
  case h_3 code hfour _ _ =>
    obtain ⟨b, hb, h⟩ := Option.bind_eq_some_iff.mp hfour
    obtain ⟨c, hc, h⟩ := Option.bind_eq_some_iff.mp h
    obtain ⟨d, hd, hquadruple⟩ := Option.bind_eq_some_iff.mp h
    have hle := le_of_quadruple? hquadruple
    refine ⟨hle.1, fun k hk => ?_⟩
    obtain rfl | rfl | rfl : k = 0 ∨ k = 1 ∨ k = 2 := by omega
    · simpa [hb] using hle.2.1
    · simpa [hc] using hle.2.2.1
    · simpa [hd] using hle.2.2.2
  case h_4 =>
    refine ⟨?_, by simp⟩
    change 0x80 ≤ Symbol.replacement
    decide

end Text

namespace Sexp

open Token (IsSequence Ordered level level_append scanFrom upTo upTo_append upTo_of_le upTo_of_lt)

def commentAfter (inComment : Bool) (a : UInt8) : Bool :=
  if inComment then a != Byte.newline else a == Byte.semicolon

def riseAt (inComment : Bool) (a : UInt8) : Int :=
  if inComment then 0 else if a = Byte.openParen then 1 else if a = Byte.closeParen then -1 else 0

variable {a : UInt8} {inComment : Bool}

theorem level_flush (mode : Token.Mode) : level mode.flush = 0 := by
  cases mode <;> rfl

theorem level_ofDelimiter (offset : Nat) (a : UInt8) :
    level (Token.ofDelimiter offset a) = riseAt false a := by
  unfold Token.ofDelimiter riseAt
  grind [Token.level_cons, Token.level_nil, Token.rise]

theorem level_scanFrom_cons (mode : Token.Mode) (offset : Nat) (a : UInt8) (rest : Text) :
    ∃ mode', decide (mode' = .comment) = commentAfter (mode = .comment) a ∧
      level (scanFrom mode offset (a :: rest)) =
        riseAt (mode = .comment) a + level (scanFrom mode' (offset + 1) rest) := by
  by_cases hmode : mode = .comment
  · refine ⟨if a = Byte.newline then .between else .comment, ?_, ?_⟩
    · by_cases hline : a = Byte.newline <;> simp [commentAfter, hmode, hline]
    · simp [scanFrom, riseAt, hmode]
  · rw [scanFrom, if_neg hmode, decide_eq_false hmode]
    by_cases hdelimiter : isDelimiter a = true
    · refine ⟨Token.Mode.afterDelimiter a, ?_, ?_⟩
      · by_cases hsemicolon : a = Byte.semicolon <;>
          simp [commentAfter, Token.Mode.afterDelimiter, hsemicolon]
      · rw [if_pos hdelimiter, Token.level_append, Token.level_append, level_flush,
          level_ofDelimiter, Int.zero_add]
    · have hnot := not_isDelimiter_iff.mp (Bool.eq_false_of_not_eq_true hdelimiter)
      refine ⟨mode.extend offset a, ?_, ?_⟩
      · cases mode <;> simp_all [commentAfter, Token.Mode.extend]
      · simp [riseAt, hdelimiter, hnot]

theorem depthFrom_scalar (a : UInt8) (inComment : Bool) (depth : Int) (rest : List Symbol) :
    depthFrom inComment depth (.scalar a.toNat :: rest) =
      depthFrom (commentAfter inComment a) (depth + riseAt inComment a) rest := by
  cases inComment with
  | true =>
      have hline : (a.toNat != Byte.newline.toNat) = (a != Byte.newline) := by
        simp only [bne, beq_eq_decide, UInt8.toNat_inj]
      simp only [depthFrom, commentAfter, riseAt, if_true, Symbol.code, hline, Int.add_zero]
  | false =>
      simp only [depthFrom, commentAfter, riseAt, Symbol.code, UInt8.toNat_inj]
      grind

theorem depthFrom_cons_of_le {s : Symbol} (h : 0x80 ≤ s.code) (inComment : Bool) (depth : Int)
    (rest : List Symbol) :
    depthFrom inComment depth (s :: rest) = depthFrom inComment depth rest := by
  have hne {c : UInt8} (hc : c.toNat < 0x80) : s.code ≠ c.toNat := by omega
  have hline : s.code ≠ Byte.newline.toNat := hne (by decide)
  have hsemicolon : s.code ≠ Byte.semicolon.toNat := hne (by decide)
  have hopen : s.code ≠ Byte.openParen.toNat := hne (by decide)
  have hclose : s.code ≠ Byte.closeParen.toNat := hne (by decide)
  cases inComment with
  | true => simp only [depthFrom, if_true, bne_iff_ne.mpr hline]
  | false =>
      rw [depthFrom, if_neg (by simp), if_neg hsemicolon, if_neg hopen, if_neg hclose]

theorem ne_of_le {c : UInt8} (h : 0x80 ≤ a) (hc : c < 0x80) : a ≠ c := by
  rintro rfl
  exact absurd h (UInt8.not_le.mpr hc)

theorem commentAfter_of_le (h : 0x80 ≤ a) : commentAfter inComment a = inComment := by
  have hline : a ≠ Byte.newline := ne_of_le h (by decide)
  have hsemicolon : a ≠ Byte.semicolon := ne_of_le h (by decide)
  cases inComment with
  | true => exact bne_iff_ne.mpr hline
  | false => exact beq_false_of_ne hsemicolon

theorem riseAt_of_le (h : 0x80 ≤ a) : riseAt inComment a = 0 := by
  have hopen : a ≠ Byte.openParen := ne_of_le h (by decide)
  have hclose : a ≠ Byte.closeParen := ne_of_le h (by decide)
  simp only [riseAt, if_neg hopen, if_neg hclose, ite_self]

/-- The two go side by side, byte by byte. The first `skip` bytes are what is left of a symbol that
has been counted. -/
theorem depthFrom_symbolsAfter (mode : Token.Mode) (offset skip : Nat) (rest : Text) (depth : Int)
    (hskip : ∀ k < skip, ∀ b ∈ rest[k]?, 0x80 ≤ b) :
    depthFrom (mode = .comment) depth (rest.symbolsAfter skip) =
      depth + level (scanFrom mode offset rest) := by
  induction rest generalizing mode offset skip depth with
  | nil => simp [Text.symbolsAfter, depthFrom, scanFrom, level_flush]
  | cons a rest ih =>
      obtain ⟨mode', hmode', hlevel⟩ := level_scanFrom_cons mode offset a rest
      rw [hlevel, ← Int.add_assoc]
      cases skip with
      | succ skip =>
          have ha : 0x80 ≤ a := hskip 0 (by omega) a (by simp)
          have hrest : ∀ k < skip, ∀ b ∈ rest[k]?, 0x80 ≤ b := fun k hk b hb =>
            hskip (k + 1) (by omega) b (by simpa using hb)
          rw [riseAt_of_le ha, Int.add_zero, ← ih mode' (offset + 1) skip depth hrest, hmode',
            commentAfter_of_le ha, Text.symbolsAfter]
      | zero =>
          rw [Text.symbolsAfter]
          by_cases ha : a < 0x80
          · rw [Text.leading_of_lt ha, depthFrom_scalar, ← ih mode' (offset + 1) 0 _ (by simp),
              hmode']
          · obtain ⟨hcode, hbytes⟩ := Text.leading_of_not_lt ha rest
            have ha := UInt8.not_lt.mp ha
            rw [depthFrom_cons_of_le hcode, riseAt_of_le ha, Int.add_zero,
              ← ih mode' (offset + 1) _ depth hbytes, hmode', commentAfter_of_le ha]

theorem depth_eq_level (source : Text) : depth source = level (Token.scan source) := by
  have h := depthFrom_symbolsAfter .between 0 0 source 0 (by simp)
  rw [Int.zero_add] at h
  exact h

/-- The first byte announces a sequence of three that the parenthesis after it breaks off. -/
example : depth [0xE2, Byte.openParen, 0x98, Byte.closeParen, Byte.openParen] = 1 := by decide

variable {source : Text} {reading : Reading} {i : Nat}

theorem depth_of_readAll {ss : List Sexp} (h : readAll source = .ok ss) : depth source = 0 := by
  rw [depth_eq_level, ← readAll_tokens h]
  exact level_flatMap ss

theorem depth_eq_size (h : (Token.scan source).foldlM Reading.step {} = .ok reading) :
    depth source = reading.pending.size := by
  have htokens : reading.tokens = Token.scan source := Reading.tokens_foldlM h
  rw [depth_eq_level, ← htokens]
  exact reading.level_tokens

theorem taken_of_unclosed {range : Range}
    (h : readAll source = .error ⟨range, .unreadable .unclosed⟩) :
    ∃ reading, (Token.scan source).foldlM Reading.step {} = .ok reading ∧
      0 < reading.pending.size := by
  cases hreading : (Token.scan source).foldlM Reading.step {} with
  | error d =>
      -- a token that cannot be taken is a closing parenthesis, and reported as such
      obtain ⟨_, j, _, _, _, _, _, rfl⟩ := Reading.foldlM_error hreading
      rw [readAll, ofTokens, hreading] at h
      cases h
  | ok reading =>
      rw [readAll, ofTokens, hreading] at h
      rcases reading with ⟨complete, ⟨_ | ⟨inner, outer⟩⟩⟩
      · cases h
      · exact ⟨_, rfl, Nat.succ_pos _⟩

theorem unclosed_of_nonneg {earlier later : List Token}
    (h : IsSequence source (earlier ++ ([.opening i] ++ later)))
    (hlater : ∀ n, 0 ≤ level (upTo n later)) : Unclosed source i := by
  have hopen : StandsAt source Byte.openParen i := (h.mem_iff (.opening i)).mp (by simp)
  obtain ⟨-, hrest, hbefore⟩ := List.pairwise_append.mp h.ordered
  have hinside : ∀ t ∈ later, i + 1 ≤ t.start := (List.pairwise_cons.mp hrest).1
  have hstart : ∀ t ∈ earlier, t.start < i := fun t ht =>
    start_lt_of_stop_le h (List.mem_append_left _ ht) (hbefore t ht (.opening i) (by simp))
  have hat : nesting source i = level earlier := by
    have hnone : upTo i ([.opening i] ++ later) = [] := by
      refine upTo_of_le fun t ht => ?_
      rcases List.mem_cons.mp ht with rfl | ht
      · exact Nat.le_refl _
      · exact Nat.le_of_succ_le (hinside t ht)
    rw [h.nesting_eq, upTo_append, upTo_of_lt hstart, hnone, List.append_nil]
  -- past its own level the count never comes back to where the parenthesis opened
  refine ⟨hopen, fun j hmatches => ?_⟩
  have hij : i < j + 1 := Nat.lt_succ_of_lt hmatches.lt
  have hfirst : upTo (j + 1) [.opening i] = [.opening i] :=
    upTo_of_lt (by simpa [Token.start] using hij)
  have hearlier := upTo_of_lt fun t ht => Nat.lt_trans (hstart t ht) hij
  have hlevel := hlater (j + 1)
  have heq := hmatches.nesting_eq
  rw [hat, h.nesting_eq, upTo_append, upTo_append, hearlier, hfirst] at heq
  simp only [level_append, Token.level_cons, Token.level_nil, Token.rise] at heq
  omega

theorem level_upTo_openLists_nonneg (n : Nat) {os : List OpenList}
    (h : Ordered (os.flatMap OpenList.tokens)) :
    0 ≤ level (upTo n (os.flatMap OpenList.tokens)) := by
  induction os with
  | nil => exact Int.le_refl 0
  | cons o rest ih =>
      rw [List.flatMap_cons] at h ⊢
      obtain ⟨ho, hrest, -⟩ := List.pairwise_append.mp h
      have helems := level_upTo_flatMap_nonneg n (List.pairwise_cons.mp ho).2
      have hopening : 0 ≤ level (upTo n [.opening o.offset]) := by
        simp only [upTo, List.filter_cons]
        split <;> simp [Token.rise]
      have := ih hrest
      rw [OpenList.tokens, ← List.singleton_append, upTo_append, upTo_append, level_append,
        level_append]
      omega

theorem unclosed_of_mem_pending (h : IsSequence source reading.tokens) {o : OpenList}
    (ho : o ∈ reading.pending.items) : Unclosed source o.offset := by
  obtain ⟨inner, outer, hsplit⟩ := List.append_of_mem ho
  have htokens : reading.tokens =
      (reading.complete.reverse.flatMap tokens ++ outer.reverse.flatMap OpenList.tokens) ++
        ([.opening o.offset] ++
          (o.elems.reverse.flatMap tokens ++ inner.reverse.flatMap OpenList.tokens)) := by
    simp [Reading.tokens, hsplit, OpenList.tokens]
  rw [htokens] at h
  refine unclosed_of_nonneg h fun n => ?_
  obtain ⟨-, hrest, -⟩ := List.pairwise_append.mp h.ordered
  obtain ⟨-, hlater, -⟩ := List.pairwise_append.mp hrest
  obtain ⟨helems, hinner, -⟩ := List.pairwise_append.mp hlater
  have := level_upTo_flatMap_nonneg n helems
  have := level_upTo_openLists_nonneg n hinner
  rw [upTo_append, level_append]
  omega

theorem opening_mem_tokens (h : .opening i ∈ reading.tokens) :
    (∃ s ∈ reading.parts, .opening i ∈ s.tokens) ∨
      i ∈ reading.pending.items.map OpenList.offset := by
  simp only [Reading.tokens, OpenList.tokens, List.mem_append, List.mem_flatMap, List.mem_reverse,
    List.mem_cons, Token.opening.injEq] at h
  rcases h with ⟨s, hs, hi⟩ | ⟨o, ho, rfl | ⟨s, hs, hi⟩⟩
  · exact .inl ⟨s, List.mem_append_left _ hs, hi⟩
  · exact .inr (List.mem_map_of_mem ho)
  · exact .inl ⟨s, List.mem_append_right _ (List.mem_flatMap.mpr ⟨o, ho, hs⟩), hi⟩

structure LeavesOpen (source : Text) (reading : Reading) : Prop where
  taken : (Token.scan source).foldlM Reading.step {} = .ok reading
  distinct : (reading.pending.items.map OpenList.offset).Nodup
  unclosed_iff : ∀ i, Unclosed source i ↔ i ∈ reading.pending.items.map OpenList.offset

theorem openings_sublist (os : List OpenList) :
    (os.map fun o => Token.opening o.offset).Sublist (os.flatMap OpenList.tokens) := by
  induction os with
  | nil => exact List.Sublist.refl _
  | cons o rest ih =>
      rw [List.map_cons, List.flatMap_cons, OpenList.tokens, List.cons_append]
      exact (ih.trans (List.sublist_append_right _ _)).cons_cons _

theorem leavesOpen_of_taken (h : (Token.scan source).foldlM Reading.step {} = .ok reading) :
    LeavesOpen source reading := by
  have htokens : reading.tokens = Token.scan source := Reading.tokens_foldlM h
  have hsequence := Token.scan_isSequence source
  rw [← htokens] at hsequence
  refine ⟨h, ?_, fun i => ⟨fun hi => ?_, fun hi => ?_⟩⟩
  · have hnodup := hsequence.ordered.nodup fun t ht => ((hsequence.mem_iff t).mp ht).start_lt_stop
    have hopenings := (openings_sublist reading.pending.items.reverse).trans
      (List.sublist_append_right (reading.complete.reverse.flatMap tokens) _)
    have hdistinct : ((reading.pending.items.map OpenList.offset).reverse.map
        Token.opening).Nodup := by
      rw [← List.map_reverse, List.map_map]
      exact hopenings.nodup hnodup
    exact List.nodup_reverse.mp (List.Nodup.of_map _ hdistinct)
  · rcases opening_mem_tokens ((hsequence.mem_iff (.opening i)).mpr hi.1) with ⟨s, hs, hmem⟩ | hmem
    · have hmatched := infix_matched hsequence (Reading.tokens_infix_of_mem_parts hs)
      obtain ⟨j, hj⟩ := hmatched.1 i hmem
      exact absurd hj (hi.2 j)
    · exact hmem
  · obtain ⟨o, ho, rfl⟩ := List.mem_map.mp hi
    exact unclosed_of_mem_pending hsequence ho

end Sexp

end TypedSexp
