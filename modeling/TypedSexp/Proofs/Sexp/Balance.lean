import Mathlib.Data.Nat.Count
import TypedSexp.Proofs.Sexp.Lexemes
import TypedSexp.Proofs.Sexp.Relocate

namespace TypedSexp.Sexp

def openings (source : Text) (n : Nat) : Nat := Nat.count (StandsAt source Byte.openParen) n

def closings (source : Text) (n : Nat) : Nat := Nat.count (StandsAt source Byte.closeParen) n

def nesting (source : Text) (n : Nat) : Int := openings source n - closings source n

structure Matches (source : Text) (i j : Nat) : Prop where
  opening : StandsAt source Byte.openParen i
  closing : StandsAt source Byte.closeParen j
  lt : i < j
  inside : ∀ n, i < n → n ≤ j → nesting source (i + 1) ≤ nesting source n
  level : nesting source j = nesting source (i + 1)

def Unmatched (source : Text) (j : Nat) : Prop :=
  StandsAt source Byte.closeParen j ∧ ∀ i, ¬Matches source i j

def Unclosed (source : Text) (i : Nat) : Prop :=
  StandsAt source Byte.openParen i ∧ ∀ j, ¬Matches source i j

theorem nesting_opening {source : Text} {i : Nat} (h : StandsAt source Byte.openParen i) :
    nesting source (i + 1) = nesting source i + 1 := by
  have hne : ¬StandsAt source Byte.closeParen i := fun hclose =>
    absurd (h.1.symm.trans hclose.1) (by decide)
  simp only [nesting, openings, closings, Nat.count_succ, if_pos h, if_neg hne]
  omega

theorem nesting_closing {source : Text} {j : Nat} (h : StandsAt source Byte.closeParen j) :
    nesting source (j + 1) = nesting source j - 1 := by
  have hne : ¬StandsAt source Byte.openParen j := fun hopen =>
    absurd (h.1.symm.trans hopen.1) (by decide)
  simp only [nesting, openings, closings, Nat.count_succ, if_pos h, if_neg hne]
  omega

theorem Matches.nesting_eq {source : Text} {i j : Nat} (h : Matches source i j) :
    nesting source (j + 1) = nesting source i := by
  have hopen := nesting_opening h.opening
  have hclose := nesting_closing h.closing
  have hlevel := h.level
  omega

mutual

def tokens : Sexp → List Token
  | .atom range text => [.atom (range.start - 1).toNat text]
  | .list range elems =>
      [.opening (range.start - 1).toNat] ++ tokensAll elems ++ [.closing (range.stop - 2).toNat]

def tokensAll : List Sexp → List Token
  | [] => []
  | s :: rest => tokens s ++ tokensAll rest

end

theorem tokensAll_eq_flatMap (ss : List Sexp) : tokensAll ss = ss.flatMap tokens := by
  induction ss with
  | nil => rfl
  | cons s rest ih => simp [tokensAll, ih]

theorem tokens_list (i j : Nat) (elems : List Sexp) :
    tokens (.list (Range.ofOffsets i (j + 1)) elems) =
      [.opening i] ++ elems.flatMap tokens ++ [.closing j] := by
  have hstart : ((i : Int) + 1 - 1).toNat = i := by omega
  have hstop : ((j : Int) + 1 + 1 - 2).toNat = j := by omega
  simp only [tokens, tokensAll_eq_flatMap, Range.ofOffsets, hstart, hstop]

theorem tokens_atom (i : Nat) (stop : Int) (text : Text) :
    tokens (.atom (Range.ofOffsets i stop) text) = [.atom i text] := by
  have hstart : ((i : Int) + 1 - 1).toNat = i := by omega
  simp only [tokens, Range.ofOffsets, hstart]

theorem tokens_infix_flatMap {s : Sexp} {ss : List Sexp} (h : s ∈ ss) :
    s.tokens <:+: ss.flatMap tokens :=
  List.infix_of_mem_flatten (List.mem_map_of_mem h)

theorem tokens_infix_list {s : Sexp} {range : Range} {elems : List Sexp} (h : s ∈ elems) :
    s.tokens <:+: tokens (.list range elems) := by
  rw [tokens, tokensAll_eq_flatMap]
  exact (tokens_infix_flatMap h).trans (List.infix_append _ _ _)

namespace Token

def rise : Token → Int
  | .opening _ => 1
  | .closing _ => -1
  | .atom .. => 0

def level : List Token → Int
  | [] => 0
  | t :: ts => t.rise + level ts

def upTo (n : Nat) (tokens : List Token) : List Token := tokens.filter (·.start < n)

@[simp]
theorem level_nil : level [] = 0 := rfl

@[simp]
theorem level_cons (t : Token) (ts : List Token) : level (t :: ts) = t.rise + level ts := rfl

@[simp]
theorem level_append (ts us : List Token) : level (ts ++ us) = level ts + level us := by
  induction ts with
  | nil => simp
  | cons t ts ih =>
      rw [List.cons_append, level_cons, level_cons, ih]
      omega

@[simp]
theorem upTo_append (n : Nat) (ts us : List Token) : upTo n (ts ++ us) = upTo n ts ++ upTo n us :=
  List.filter_append ts us

theorem upTo_of_lt {n : Nat} {ts : List Token} (h : ∀ t ∈ ts, t.start < n) : upTo n ts = ts :=
  List.filter_eq_self.mpr fun t ht => by simpa using h t ht

theorem upTo_of_le {n : Nat} {ts : List Token} (h : ∀ t ∈ ts, n ≤ t.start) : upTo n ts = [] :=
  List.filter_eq_nil_iff.mpr fun t ht => by simpa using h t ht

theorem level_upTo_succ (n : Nat) (ts : List Token) :
    level (upTo (n + 1) ts) =
      level (upTo n ts) + ts.count (.opening n) - ts.count (.closing n) := by
  induction ts with
  | nil => rfl
  | cons t ts ih =>
      have hupTo (m : Nat) : level (upTo m (t :: ts)) =
          (if t.start < m then t.rise else 0) + level (upTo m ts) := by
        simp only [upTo, List.filter_cons, decide_eq_true_eq]
        split <;> simp
      rw [hupTo, hupTo, ih]
      cases t with
      | opening i => grind [start, rise]
      | closing i => grind [start, rise]
      | atom i text => grind [start, rise]

theorem IsSequence.nesting_eq {source : Text} {ts : List Token} (h : IsSequence source ts)
    (n : Nat) : nesting source n = level (upTo n ts) := by
  have hnodup : ts.Nodup :=
    h.ordered.nodup fun t ht => ((h.mem_iff t).mp ht).start_lt_stop
  induction n with
  | zero => simp [nesting, openings, closings, upTo_of_le]
  | succ n ih =>
      have hopen : ts.count (.opening n) =
          if StandsAt source Byte.openParen n then 1 else 0 := by
        rw [hnodup.count]
        exact if_congr (h.mem_iff (.opening n)) rfl rfl
      have hclose : ts.count (.closing n) =
          if StandsAt source Byte.closeParen n then 1 else 0 := by
        rw [hnodup.count]
        exact if_congr (h.mem_iff (.closing n)) rfl rfl
      rw [level_upTo_succ, ← ih, hopen, hclose]
      simp only [nesting, openings, closings, Nat.count_succ]
      push_cast
      omega

theorem level_flatMap_eq_zero {ss : List Sexp} (h : ∀ s ∈ ss, level s.tokens = 0) :
    level (ss.flatMap tokens) = 0 := by
  induction ss with
  | nil => rfl
  | cons s rest ih =>
      obtain ⟨hs, hrest⟩ := List.forall_mem_cons.mp h
      simp [hs, ih hrest]

theorem level_upTo_nonneg_of_forall {n : Nat} {ss : List Sexp}
    (h : ∀ s ∈ ss, 0 ≤ level (upTo n s.tokens)) : 0 ≤ level (upTo n (ss.flatMap tokens)) := by
  induction ss with
  | nil => exact Int.le_refl 0
  | cons s rest ih =>
      obtain ⟨hs, hrest⟩ := List.forall_mem_cons.mp h
      have := ih hrest
      simp only [List.flatMap_cons, upTo_append, level_append]
      omega

end Token

open Token (IsSequence Ordered level upTo upTo_of_lt upTo_of_le upTo_append level_append)

theorem level_tokens (s : Sexp) : level s.tokens = 0 := by
  induction s using Sexp.induct with
  | atom range text => rfl
  | list range elems ih =>
      have helems := Token.level_flatMap_eq_zero ih
      simp [tokens, tokensAll_eq_flatMap, helems, Token.rise]

theorem level_upTo_tokens_nonneg (n : Nat) {s : Sexp} (h : Ordered s.tokens) :
    0 ≤ level (upTo n s.tokens) := by
  induction s using Sexp.induct with
  | atom range text =>
      simp only [tokens, upTo, List.filter_cons]
      split <;> simp [Token.rise]
  | list range elems ih =>
      have helems := Token.level_upTo_nonneg_of_forall fun s hs =>
        ih s hs (List.Pairwise.sublist (tokens_infix_list hs).sublist h)
      simp only [tokens, tokensAll_eq_flatMap] at h ⊢
      have hle : (range.start - 1).toNat + 1 ≤ (range.stop - 2).toNat :=
        (List.pairwise_append.mp h).2.2 (.opening (range.start - 1).toNat) (by simp)
          (.closing (range.stop - 2).toNat) (by simp)
      simp only [upTo_append, level_append]
      rcases Nat.lt_or_ge (range.start - 1).toNat n with hopen | hopen
      · have hfirst : upTo n [.opening (range.start - 1).toNat] = [.opening _] :=
          upTo_of_lt (by simpa [Token.start] using hopen)
        have hlast : -1 ≤ level (upTo n [.closing (range.stop - 2).toNat]) := by
          simp only [upTo, List.filter_cons]
          split <;> simp [Token.rise]
        simp only [hfirst, Token.level_cons, Token.rise, Token.level_nil]
        omega
      · have hfirst : upTo n [.opening (range.start - 1).toNat] = [] :=
          upTo_of_le (by simpa [Token.start] using hopen)
        have hlast : upTo n [.closing (range.stop - 2).toNat] = [] :=
          upTo_of_le (by simp only [List.mem_singleton, forall_eq, Token.start]; omega)
        simp only [hfirst, hlast, Token.level_nil]
        omega

theorem level_flatMap (ss : List Sexp) : level (ss.flatMap tokens) = 0 :=
  Token.level_flatMap_eq_zero fun s _ => s.level_tokens

theorem level_upTo_flatMap_nonneg (n : Nat) {ss : List Sexp} (h : Ordered (ss.flatMap tokens)) :
    0 ≤ level (upTo n (ss.flatMap tokens)) := by
  refine Token.level_upTo_nonneg_of_forall fun s hs => level_upTo_tokens_nonneg n ?_
  exact List.Pairwise.sublist (tokens_infix_flatMap hs).sublist h

variable {source : Text} {ts before middle after : List Token} {i j n : Nat}

theorem start_lt_of_stop_le {t : Token} (h : IsSequence source ts) (ht : t ∈ ts)
    (hle : t.stop ≤ n) : t.start < n :=
  Nat.lt_of_lt_of_le ((h.mem_iff t).mp ht).start_lt_stop hle

theorem nesting_split (h : IsSequence source (before ++ middle ++ after))
    (hbefore : ∀ t ∈ before, t.start < n) (hafter : ∀ t ∈ after, n ≤ t.start) :
    nesting source n = level before + level (upTo n middle) := by
  rw [h.nesting_eq, upTo_append, upTo_append, upTo_of_lt hbefore, upTo_of_le hafter]
  simp

theorem matches_of_balanced
    (h : IsSequence source (before ++ ([.opening i] ++ middle ++ [.closing j]) ++ after))
    (hlevel : level middle = 0) (hnonneg : ∀ n, 0 ≤ level (upTo n middle)) :
    Matches source i j := by
  have hopen := (h.mem_iff (.opening i)).mp (by simp)
  have hclose := (h.mem_iff (.closing j)).mp (by simp)
  have hordered := h.ordered
  simp only [Ordered, List.pairwise_append] at hordered
  obtain ⟨⟨-, ⟨⟨-, -, hfirst⟩, -, hlast⟩, hbefore⟩, -, hafter⟩ := hordered
  have hij : i + 1 ≤ j := hlast (.opening i) (by simp) (.closing j) (by simp)
  have hstart : ∀ t ∈ middle, i + 1 ≤ t.start := hfirst (.opening i) (by simp)
  have hstop : ∀ t ∈ middle, t.stop ≤ j := fun t ht => hlast t (by simp [ht]) (.closing j) (by simp)
  have hlt : ∀ t ∈ before, t.start < i := fun t ht =>
    start_lt_of_stop_le h (by simp [ht]) (hbefore t ht (.opening i) (by simp))
  have hge : ∀ t ∈ after, j ≤ t.start := by
    intro t ht
    have hle : j + 1 ≤ t.start := hafter (.closing j) (by simp) t ht
    omega
  have hnesting (n : Nat) (hin : i < n) (hnj : n ≤ j) :
      nesting source n = level before + 1 + level (upTo n middle) := by
    have hopening : upTo n [.opening i] = [.opening i] :=
      upTo_of_lt (by simpa [Token.start] using hin)
    have hclosing : upTo n [.closing j] = [] := upTo_of_le (by simpa [Token.start] using hnj)
    have hbelow : ∀ t ∈ before, t.start < n := fun t ht => Nat.lt_trans (hlt t ht) hin
    rw [nesting_split h hbelow fun t ht => Nat.le_trans hnj (hge t ht)]
    simp only [upTo_append, hopening, hclosing, level_append, Token.level_cons, Token.rise,
      Token.level_nil]
    omega
  have hinner : nesting source (i + 1) = level before + 1 := by
    rw [hnesting (i + 1) (by omega) hij, upTo_of_le hstart]
    simp
  refine ⟨hopen, hclose, hij, fun n hin hnj => ?_, ?_⟩
  · have := hnonneg n
    rw [hinner, hnesting n hin hnj]
    omega
  · have hall : upTo j middle = middle :=
      upTo_of_lt fun t ht => start_lt_of_stop_le h (by simp [ht]) (hstop t ht)
    rw [hinner, hnesting j hij (Nat.le_refl j), hall, hlevel]
    omega

theorem infix_matched {s : Sexp} (h : IsSequence source ts) (hs : s.tokens <:+: ts) :
    (∀ i, .opening i ∈ s.tokens → ∃ j, Matches source i j) ∧
      ∀ j, .closing j ∈ s.tokens → ∃ i, Matches source i j := by
  induction s using Sexp.induct with
  | atom range text => simp [tokens]
  | list range elems ih =>
      have hordered : Ordered (elems.flatMap tokens) := by
        refine List.Pairwise.sublist (List.Sublist.trans ?_ hs.sublist) h.ordered
        rw [tokens, tokensAll_eq_flatMap]
        exact (List.infix_append _ _ _).sublist
      have hmatches : Matches source (range.start - 1).toNat (range.stop - 2).toNat := by
        obtain ⟨before, after, rfl⟩ := hs
        rw [tokens, tokensAll_eq_flatMap] at h
        exact matches_of_balanced h (level_flatMap elems) fun n =>
          level_upTo_flatMap_nonneg n hordered
      have hinner (s : Sexp) (hmem : s ∈ elems) := ih s hmem ((tokens_infix_list hmem).trans hs)
      simp only [tokens, tokensAll_eq_flatMap, List.mem_append, List.mem_singleton,
        List.mem_flatMap, reduceCtorEq, or_false, false_or]
      refine ⟨?_, ?_⟩
      · rintro i (hi | ⟨s, hmem, hi⟩)
        · cases hi
          exact ⟨_, hmatches⟩
        · exact (hinner s hmem).1 i hi
      · rintro j (⟨s, hmem, hj⟩ | hj)
        · exact (hinner s hmem).2 j hj
        · cases hj
          exact ⟨_, hmatches⟩

def OpenList.tokens (inner : OpenList) : List Token :=
  .opening inner.offset :: inner.elems.reverse.flatMap Sexp.tokens

namespace Reading

variable {reading reading' : Reading} {d : Diagnostic}

def tokens (reading : Reading) : List Token :=
  reading.complete.reverse.flatMap Sexp.tokens ++
    reading.pending.items.reverse.flatMap OpenList.tokens

theorem tokens_add (reading : Reading) (s : Sexp) :
    (reading.add s).tokens = reading.tokens ++ s.tokens := by
  rcases reading with ⟨complete, ⟨_ | ⟨inner, outer⟩⟩⟩
  · simp [add, tokens, Stack.pop?]
  · simp [add, tokens, Stack.pop?, Stack.push, OpenList.tokens]

theorem tokens_step {t : Token} (h : reading.step t = .ok reading') :
    reading'.tokens = reading.tokens ++ [t] := by
  cases t with
  | atom offset text =>
      cases h
      rw [tokens_add, tokens_atom]
  | opening offset =>
      cases h
      simp [tokens, Stack.push, OpenList.tokens]
  | closing offset =>
      rcases reading with ⟨complete, ⟨_ | ⟨inner, outer⟩⟩⟩
      · simp [step, Stack.pop?] at h
      · simp only [step, Stack.pop?, Except.ok.injEq] at h
        rw [← h, tokens_add, tokens_list]
        simp [tokens, OpenList.tokens]

theorem tokens_foldlM {ts : List Token} (h : ts.foldlM step reading = .ok reading') :
    reading'.tokens = reading.tokens ++ ts := by
  induction ts generalizing reading with
  | nil =>
      cases h
      simp
  | cons t ts ih =>
      rw [List.foldlM_cons] at h
      obtain ⟨next, hnext, hrest⟩ := Except.bind_eq_ok_iff.mp h
      rw [ih hrest, tokens_step hnext]
      simp

theorem foldlM_error {ts : List Token} (h : ts.foldlM step reading = .error d) :
    ∃ before, ∃ j : Nat, ∃ after last, ts = before ++ [.closing j] ++ after ∧
      before.foldlM step reading = .ok last ∧ last.pending.items = [] ∧
      d = ⟨Range.ofOffsets j (j + 1), .unreadable .unmatched⟩ := by
  induction ts generalizing reading with
  | nil => cases h
  | cons t ts ih =>
      rw [List.foldlM_cons] at h
      cases hstep : reading.step t with
      | error d' =>
          obtain rfl : d' = d := by
            rw [hstep] at h
            cases h
            rfl
          cases t with
          | atom offset text => cases hstep
          | opening offset => cases hstep
          | closing offset =>
              rcases reading with ⟨complete, ⟨_ | ⟨inner, outer⟩⟩⟩
              · cases hstep
                exact ⟨[], offset, ts, _, rfl, rfl, rfl, rfl⟩
              · cases hstep
      | ok next =>
          rw [hstep] at h
          obtain ⟨before, j, after, last, rfl, hlast, hpending, hd⟩ := ih h
          refine ⟨t :: before, j, after, last, rfl, ?_, hpending, hd⟩
          rw [List.foldlM_cons, hstep]
          exact hlast

def parts (reading : Reading) : List Sexp :=
  reading.complete ++ reading.pending.items.flatMap OpenList.elems

theorem tokens_infix_of_mem_parts {s : Sexp} (h : s ∈ reading.parts) :
    s.tokens <:+: reading.tokens := by
  rcases List.mem_append.mp h with h | h
  · exact (tokens_infix_flatMap (List.mem_reverse.mpr h)).trans (List.infix_append [] _ _)
  · obtain ⟨inner, hinner, hs⟩ := List.mem_flatMap.mp h
    have hopen : s.tokens <:+: inner.tokens :=
      (tokens_infix_flatMap (List.mem_reverse.mpr hs)).trans (List.suffix_cons _ _).isInfix
    have hpending : inner.tokens <:+: reading.pending.items.reverse.flatMap OpenList.tokens :=
      List.infix_of_mem_flatten (List.mem_map_of_mem (List.mem_reverse.mpr hinner))
    exact (hopen.trans hpending).trans (List.suffix_append _ _).isInfix

theorem closing_mem_parts {j : Nat} (h : .closing j ∈ reading.tokens) :
    ∃ s ∈ reading.parts, .closing j ∈ s.tokens := by
  simp only [tokens, OpenList.tokens, List.mem_append, List.mem_flatMap, List.mem_reverse,
    List.mem_cons, reduceCtorEq, false_or] at h
  rcases h with ⟨s, hs, hj⟩ | ⟨inner, hinner, s, hs, hj⟩
  · exact ⟨s, List.mem_append_left _ hs, hj⟩
  · exact ⟨s, List.mem_append_right _ (List.mem_flatMap.mpr ⟨inner, hinner, hs⟩), hj⟩

theorem level_tokens (reading : Reading) : level reading.tokens = reading.pending.items.length := by
  obtain ⟨complete, ⟨pending⟩⟩ := reading
  have hpending : level (pending.reverse.flatMap OpenList.tokens) = pending.length := by
    induction pending with
    | nil => rfl
    | cons inner outer ih =>
        simp [OpenList.tokens, Token.rise, level_flatMap, ih]
  simp [tokens, level_flatMap, hpending]

end Reading

theorem readAll_tokens {ss : List Sexp} (h : readAll source = .ok ss) :
    ss.flatMap tokens = Token.scan source := by
  obtain ⟨reading, hreading, hfinish⟩ := Except.bind_eq_ok_iff.mp h
  have htokens := Reading.tokens_foldlM hreading
  rcases reading with ⟨complete, ⟨_ | ⟨inner, outer⟩⟩⟩
  · obtain rfl : complete.reverse = ss := by simpa [Reading.finish, Stack.top?] using hfinish
    simpa [Reading.tokens] using htokens
  · simp [Reading.finish, Stack.top?] at hfinish

theorem balanced_of_readAll {ss : List Sexp} (h : readAll source = .ok ss) :
    (∀ n, 0 ≤ nesting source n) ∧ nesting source source.length = 0 := by
  have hsequence := Token.scan_isSequence source
  rw [← readAll_tokens h] at hsequence
  refine ⟨fun n => ?_, ?_⟩
  · rw [hsequence.nesting_eq]
    exact level_upTo_flatMap_nonneg n hsequence.ordered
  · rw [hsequence.nesting_eq, upTo_of_lt fun t ht => ((hsequence.mem_iff t).mp ht).start_lt_length]
    exact level_flatMap ss

inductive Flaw (source : Text) : Diagnostic → Prop
  | unmatched {j : Nat} : Unmatched source j → (∀ j', j' < j → ¬Unmatched source j') →
      nesting source (j + 1) < 0 →
      Flaw source ⟨Range.ofOffsets j (j + 1), .unreadable .unmatched⟩
  | unclosed {i : Nat} : (∀ j, ¬Unmatched source j) → Unclosed source i →
      (∀ i', i < i' → ¬Unclosed source i') → 0 < nesting source source.length →
      Flaw source ⟨Range.ofOffsets i (i + 1), .unreadable .unclosed⟩

theorem flaw_unmatched {ss : List Sexp}
    (h : IsSequence source (ss.flatMap tokens ++ ([.closing j] ++ after))) :
    Flaw source ⟨Range.ofOffsets j (j + 1), .unreadable .unmatched⟩ := by
  have hclose : StandsAt source Byte.closeParen j := (h.mem_iff (.closing j)).mp (by simp)
  obtain ⟨hss, hrest, hbefore⟩ := List.pairwise_append.mp h.ordered
  have hafter : ∀ t ∈ after, j + 1 ≤ t.start := (List.pairwise_cons.mp hrest).1
  have hlater : ∀ t ∈ [.closing j] ++ after, j ≤ t.start := by
    intro t ht
    rcases List.mem_cons.mp ht with rfl | ht
    · exact Nat.le_refl j
    · have := hafter t ht
      omega
  have hnesting (n : Nat) (hn : n ≤ j) : nesting source n = level (upTo n (ss.flatMap tokens)) := by
    have hnone := upTo_of_le fun t ht => Nat.le_trans hn (hlater t ht)
    rw [h.nesting_eq, upTo_append, hnone, List.append_nil]
  have hnonneg (n : Nat) (hn : n ≤ j) : 0 ≤ nesting source n := by
    rw [hnesting n hn]
    exact level_upTo_flatMap_nonneg n hss
  -- all that was opened before `j` is closed there again
  have hat : nesting source j = 0 := by
    have hall : upTo j (ss.flatMap tokens) = ss.flatMap tokens := upTo_of_lt fun t ht =>
      start_lt_of_stop_le h (List.mem_append_left _ ht) (hbefore t ht (.closing j) (by simp))
    rw [hnesting j (Nat.le_refl j), hall, level_flatMap]
  have hpast := nesting_closing hclose
  refine .unmatched ⟨hclose, fun i hmatches => ?_⟩ (fun j' hj' hunmatched => ?_) (by omega)
  · have heq := hmatches.nesting_eq
    have := hnonneg i (Nat.le_of_lt hmatches.lt)
    omega
  · rcases List.mem_append.mp ((h.mem_iff (.closing j')).mpr hunmatched.1) with hmem | hmem
    · obtain ⟨s, hs, hj⟩ := List.mem_flatMap.mp hmem
      have hinfix := (tokens_infix_flatMap hs).trans
        (List.prefix_append _ ([.closing j] ++ after)).isInfix
      obtain ⟨i, hi⟩ := (infix_matched h hinfix).2 j' hj
      exact hunmatched.2 i hi
    · have hle : j ≤ j' := hlater _ hmem
      omega

theorem flaw_unclosed {reading : Reading} {inner : OpenList} {outer : List OpenList}
    (hpending : reading.pending.items = inner :: outer) (h : IsSequence source reading.tokens) :
    Flaw source ⟨Range.ofOffsets inner.offset (inner.offset + 1), .unreadable .unclosed⟩ := by
  have hmatched {s : Sexp} (hs : s ∈ reading.parts) :=
    infix_matched h (Reading.tokens_infix_of_mem_parts hs)
  have hunmatched : ∀ j, ¬Unmatched source j := by
    intro j hj
    obtain ⟨s, hs, hmem⟩ := Reading.closing_mem_parts ((h.mem_iff (.closing j)).mpr hj.1)
    obtain ⟨i, hi⟩ := (hmatched hs).2 j hmem
    exact hj.2 i hi
  have htotal : nesting source source.length = outer.length + 1 := by
    have hall := upTo_of_lt fun t ht => ((h.mem_iff t).mp ht).start_lt_length
    rw [h.nesting_eq, hall, Reading.level_tokens, hpending]
    simp
  -- what was taken in before the innermost list opened, and what it holds
  have htokens : reading.tokens =
      (reading.complete.reverse.flatMap tokens ++ outer.reverse.flatMap OpenList.tokens) ++
        ([.opening inner.offset] ++ inner.elems.reverse.flatMap tokens) := by
    simp [Reading.tokens, hpending, OpenList.tokens]
  rw [htokens] at h
  generalize hearlier : reading.complete.reverse.flatMap tokens ++
    outer.reverse.flatMap OpenList.tokens = earlier at h
  have hopen : StandsAt source Byte.openParen inner.offset :=
    (h.mem_iff (.opening inner.offset)).mp (by simp)
  obtain ⟨-, hrest, hbefore⟩ := List.pairwise_append.mp h.ordered
  obtain ⟨hinside, hordered⟩ := List.pairwise_cons.mp hrest
  have hstart : ∀ t ∈ earlier, t.start < inner.offset := fun t ht =>
    start_lt_of_stop_le h (List.mem_append_left _ ht)
      (hbefore t ht (.opening inner.offset) (by simp))
  have hat : nesting source inner.offset = level earlier := by
    have hlater : upTo inner.offset ([.opening inner.offset] ++
        inner.elems.reverse.flatMap tokens) = [] := by
      refine upTo_of_le fun t ht => ?_
      rcases List.mem_cons.mp ht with rfl | ht
      · exact Nat.le_refl _
      · exact Nat.le_of_succ_le (hinside t ht)
    rw [h.nesting_eq, upTo_append, upTo_of_lt hstart, hlater, List.append_nil]
  have hpast (n : Nat) (hn : inner.offset < n) :
      nesting source inner.offset < nesting source n := by
    have hfirst : upTo n [.opening inner.offset] = [.opening inner.offset] :=
      upTo_of_lt (by simpa [Token.start] using hn)
    have helems := level_upTo_flatMap_nonneg n hordered
    have hall := upTo_of_lt fun t ht => Nat.lt_trans (hstart t ht) hn
    rw [hat, h.nesting_eq, upTo_append, upTo_append, hall, hfirst]
    simp only [level_append, Token.level_cons, Token.level_nil, Token.rise]
    omega
  refine .unclosed hunmatched ⟨hopen, fun j hmatches => ?_⟩ (fun i hi hunclosed => ?_) (by omega)
  · have heq := hmatches.nesting_eq
    have := hpast (j + 1) (Nat.lt_succ_of_lt hmatches.lt)
    omega
  · have hmem := (h.mem_iff (.opening i)).mpr hunclosed.1
    simp only [List.mem_append, List.mem_singleton, Token.opening.injEq] at hmem
    rcases hmem with hmem | rfl | hmem
    · have : i < inner.offset := hstart _ hmem
      omega
    · omega
    · obtain ⟨s, hs, hi⟩ := List.mem_flatMap.mp hmem
      have hpart : s ∈ reading.parts :=
        List.mem_append_right _ (List.mem_flatMap.mpr
          ⟨inner, by simp [hpending], List.mem_reverse.mp hs⟩)
      obtain ⟨j, hj⟩ := (hmatched hpart).1 i hi
      exact hunclosed.2 j hj

theorem readAll_flaw {d : Diagnostic} (h : readAll source = .error d) : Flaw source d := by
  have hsequence := Token.scan_isSequence source
  rw [readAll, ofTokens] at h
  cases hreading : (Token.scan source).foldlM Reading.step {} with
  | error d' =>
      obtain rfl : d' = d := by
        rw [hreading] at h
        cases h
        rfl
      obtain ⟨before, j, after, last, hscan, hlast, hpending, rfl⟩ := Reading.foldlM_error hreading
      have hbefore : before = last.complete.reverse.flatMap tokens := by
        have htokens := Reading.tokens_foldlM hlast
        simpa [Reading.tokens, hpending] using htokens.symm
      rw [hscan, hbefore, List.append_assoc] at hsequence
      exact flaw_unmatched hsequence
  | ok reading =>
      have htokens : reading.tokens = Token.scan source := Reading.tokens_foldlM hreading
      rw [← htokens] at hsequence
      rw [hreading] at h
      rcases reading with ⟨complete, ⟨_ | ⟨inner, outer⟩⟩⟩
      · cases h
      · cases h
        exact flaw_unclosed rfl hsequence

theorem nesting_of_flaw {d : Diagnostic} (h : Flaw source d) :
    (∃ n ≤ source.length, nesting source n < 0) ∨ 0 < nesting source source.length := by
  cases h with
  | unmatched hunmatched _ hneg =>
      exact .inl ⟨_, Token.OccursIn.stop_le_length (t := .closing _) hunmatched.1, hneg⟩
  | unclosed _ _ _ hpos => exact .inr hpos

/-- Reading takes exactly the balanced texts. What it gives is the tokens of the text, none lost,
repeated or moved; what it refuses, it refuses at the first closing parenthesis without a partner,
or else at the last opening one. -/
theorem readAll_faithful (source : Text) :
    ((∃ ss, readAll source = .ok ss) ↔
      (∀ n ≤ source.length, closings source n ≤ openings source n) ∧
        closings source source.length = openings source source.length) ∧
    (∀ ss, readAll source = .ok ss → IsSequence source (ss.flatMap tokens)) ∧
    ∀ d, readAll source = .error d → ∃ (k : Nat) (fault : ReadFault),
      d = ⟨Range.ofOffsets k (k + 1), .unreadable fault⟩ ∧
      ((fault = .unmatched ∧ Unmatched source k ∧ ∀ j < k, ¬Unmatched source j) ∨
        (fault = .unclosed ∧ (∀ j, ¬Unmatched source j) ∧ Unclosed source k ∧
          ∀ i > k, ¬Unclosed source i)) := by
  refine ⟨⟨?_, ?_⟩, ?_, ?_⟩
  · rintro ⟨ss, h⟩
    obtain ⟨hprefixes, htotal⟩ := balanced_of_readAll h
    refine ⟨fun n _ => ?_, ?_⟩
    · have := hprefixes n
      rw [nesting] at this
      omega
    · rw [nesting] at htotal
      omega
  · rintro ⟨hprefixes, htotal⟩
    cases h : readAll source with
    | ok ss => exact ⟨ss, rfl⟩
    | error d =>
        exfalso
        rcases nesting_of_flaw (readAll_flaw h) with ⟨n, hn, hneg⟩ | hpos
        · have := hprefixes n hn
          rw [nesting] at hneg
          omega
        · rw [nesting] at hpos
          omega
  · intro ss h
    rw [readAll_tokens h]
    exact Token.scan_isSequence source
  · intro d h
    cases readAll_flaw h with
    | unmatched hunmatched hfirst _ => exact ⟨_, _, rfl, .inl ⟨rfl, hunmatched, hfirst⟩⟩
    | unclosed hnone hunclosed hlast _ => exact ⟨_, _, rfl, .inr ⟨rfl, hnone, hunclosed, hlast⟩⟩

end TypedSexp.Sexp
