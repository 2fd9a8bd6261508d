import TypedSexp.Sexp.Token

namespace TypedSexp.Sexp

def CommentReaches (source : Text) (n : Nat) : Prop :=
  ∃ j, j < n ∧ source[j]? = some Byte.semicolon ∧
    ∀ k, k < n → j ≤ k → source[k]? ≠ some Byte.newline

def InComment (source : Text) (i : Nat) : Prop := CommentReaches source (i + 1)

def StandsAt (source : Text) (c : UInt8) (i : Nat) : Prop :=
  source[i]? = some c ∧ ¬InComment source i

def InAtom (source : Text) (i : Nat) : Prop := ∃ c, StandsAt source c i ∧ isDelimiter c = false

structure IsRun (source : Text) (i j : Nat) : Prop where
  lt : i < j
  inside : ∀ k, i ≤ k → k < j → InAtom source k
  before : ∀ k, k + 1 = i → ¬InAtom source k
  after : ¬InAtom source j

instance (source : Text) : DecidablePred (CommentReaches source) := fun n =>
  inferInstanceAs (Decidable (∃ j, j < n ∧ source[j]? = some Byte.semicolon ∧
    ∀ k, k < n → j ≤ k → source[k]? ≠ some Byte.newline))

instance (source : Text) : DecidablePred (InComment source) := fun i =>
  inferInstanceAs (Decidable (CommentReaches source (i + 1)))

instance (source : Text) (c : UInt8) : DecidablePred (StandsAt source c) := fun i =>
  inferInstanceAs (Decidable (source[i]? = some c ∧ ¬InComment source i))

namespace Token

def start : Token → Nat
  | .opening i => i
  | .closing i => i
  | .atom i _ => i

def stop : Token → Nat
  | .opening i => i + 1
  | .closing i => i + 1
  | .atom i text => i + text.length

def OccursIn (source : Text) : Token → Prop
  | .opening i => StandsAt source Byte.openParen i
  | .closing i => StandsAt source Byte.closeParen i
  | .atom i text =>
      IsRun source i (i + text.length) ∧ (source.drop i).take text.length = text

def Ordered (tokens : List Token) : Prop := tokens.Pairwise fun t t' => t.stop ≤ t'.start

structure IsSequence (source : Text) (tokens : List Token) : Prop where
  ordered : Ordered tokens
  mem_iff : ∀ t, t ∈ tokens ↔ t.OccursIn source

end Token

variable {source : Text} {c : UInt8} {i j n : Nat}

theorem commentReaches_succ (h : source[n]? = some c) :
    CommentReaches source (n + 1) ↔
      c ≠ Byte.newline ∧ (CommentReaches source n ∨ c = Byte.semicolon) := by
  constructor
  · rintro ⟨j, hj, hsemicolon, hline⟩
    have hc : c ≠ Byte.newline := by
      intro hc
      exact hline n (by omega) (by omega) (by rw [h, hc])
    refine ⟨hc, ?_⟩
    by_cases hjn : j = n
    · subst hjn
      rw [h] at hsemicolon
      exact .inr (by simpa using hsemicolon)
    · exact .inl ⟨j, by omega, hsemicolon, fun k hk => hline k (by omega)⟩
  · rintro ⟨hc, ⟨j, hj, hsemicolon, hline⟩ | rfl⟩
    · refine ⟨j, by omega, hsemicolon, fun k hk hjk => ?_⟩
      by_cases hkn : k = n
      · rw [hkn, h]
        simpa using hc
      · exact hline k (by omega) hjk
    · refine ⟨n, by omega, h, fun k hk hnk => ?_⟩
      obtain rfl : k = n := by omega
      rw [h]
      simpa using hc

theorem not_isDelimiter_iff :
    isDelimiter c = false ↔ isBlank c = false ∧ c ≠ Byte.openParen ∧ c ≠ Byte.closeParen ∧
      c ≠ Byte.semicolon := by
  simp [isDelimiter, and_assoc]

theorem ne_newline_of_not_isDelimiter (h : isDelimiter c = false) : c ≠ Byte.newline := by
  rintro rfl
  exact absurd h (by decide)

theorem StandsAt.lt_length (h : StandsAt source c i) : i < source.length :=
  (List.getElem?_eq_some_iff.mp h.1).1

theorem StandsAt.not_commentReaches (h : StandsAt source c i) (hc : c ≠ Byte.newline) :
    ¬CommentReaches source i :=
  fun hreaches => h.2 ((commentReaches_succ h.1).mpr ⟨hc, .inl hreaches⟩)

theorem standsAt_of_not_commentReaches (h : source[i]? = some c) (hc : c ≠ Byte.semicolon)
    (hreaches : ¬CommentReaches source i) : StandsAt source c i := by
  refine ⟨h, fun hcomment => ?_⟩
  rcases (commentReaches_succ h).mp hcomment with ⟨-, hbefore | hsemicolon⟩
  · exact hreaches hbefore
  · exact hc hsemicolon

theorem StandsAt.not_inAtom (h : StandsAt source c i) (hc : isDelimiter c = true) :
    ¬InAtom source i := by
  rintro ⟨b, hb, hdelimiter⟩
  obtain rfl : c = b := by simpa [h.1] using hb.1
  simp [hc] at hdelimiter

theorem InAtom.lt_length (h : InAtom source i) : i < source.length := by
  obtain ⟨c, hc, -⟩ := h
  exact hc.lt_length

theorem InAtom.not_commentReaches (h : InAtom source i) : ¬CommentReaches source i := by
  obtain ⟨c, hc, hdelimiter⟩ := h
  exact hc.not_commentReaches (ne_newline_of_not_isDelimiter hdelimiter)

theorem inAtom_iff (h : source[i]? = some c) (hreaches : ¬CommentReaches source i) :
    InAtom source i ↔ isDelimiter c = false := by
  constructor
  · rintro ⟨b, hb, hdelimiter⟩
    obtain rfl : c = b := by simpa [h] using hb.1
    exact hdelimiter
  · intro hdelimiter
    have hc := (not_isDelimiter_iff.mp hdelimiter).2.2.2
    exact ⟨c, standsAt_of_not_commentReaches h hc hreaches, hdelimiter⟩

namespace Token

variable {t : Token} {tokens : List Token}

theorem OccursIn.start_lt_stop (h : t.OccursIn source) : t.start < t.stop := by
  cases t with
  | opening i => exact Nat.lt_succ_self i
  | closing i => exact Nat.lt_succ_self i
  | atom i text => exact h.1.lt

theorem OccursIn.stop_le_length (h : t.OccursIn source) : t.stop ≤ source.length := by
  cases t with
  | opening i => exact h.lt_length
  | closing i => exact h.lt_length
  | atom i text =>
      have hlt := h.1.lt
      have hlast := (h.1.inside (i + text.length - 1) (by omega) (by omega)).lt_length
      simp only [stop]
      omega

theorem OccursIn.start_lt_length (h : t.OccursIn source) : t.start < source.length :=
  Nat.lt_of_lt_of_le h.start_lt_stop h.stop_le_length

theorem OccursIn.not_commentReaches (h : t.OccursIn source) : ¬CommentReaches source t.start := by
  cases t with
  | opening i => exact StandsAt.not_commentReaches h (by decide)
  | closing i => exact StandsAt.not_commentReaches h (by decide)
  | atom i text => exact (h.1.inside i (Nat.le_refl i) h.1.lt).not_commentReaches

theorem OccursIn.bounded_start (h : t.OccursIn source) {k : Nat} (hk : k + 1 = t.start) :
    ¬(InAtom source k ∧ InAtom source t.start) := by
  rintro ⟨hbefore, hstart⟩
  cases t with
  | opening i => exact StandsAt.not_inAtom h rfl hstart
  | closing i => exact StandsAt.not_inAtom h rfl hstart
  | atom i text => exact h.1.before k hk hbefore

theorem OccursIn.bounded_stop (h : t.OccursIn source) {k : Nat} (hk : k + 1 = t.stop) :
    ¬(InAtom source k ∧ InAtom source t.stop) := by
  rintro ⟨hlast, hafter⟩
  cases t with
  | opening i =>
      obtain rfl : k = i := by simpa [stop] using hk
      exact StandsAt.not_inAtom h rfl hlast
  | closing i =>
      obtain rfl : k = i := by simpa [stop] using hk
      exact StandsAt.not_inAtom h rfl hlast
  | atom i text => exact h.1.after hafter

theorem Ordered.nodup (h : Ordered tokens) (hlt : ∀ t ∈ tokens, t.start < t.stop) :
    tokens.Nodup := by
  refine (List.Pairwise.and_mem.mp h).imp ?_
  rintro t t' ⟨ht, -, hle⟩ rfl
  have := hlt t ht
  omega

theorem Ordered.eq_of_mem_iff {others : List Token} (h : Ordered tokens) (h' : Ordered others)
    (hlt : ∀ t ∈ tokens, t.start < t.stop) (hmem : ∀ t, t ∈ tokens ↔ t ∈ others) :
    tokens = others := by
  have hlt' : ∀ t ∈ others, t.start < t.stop := fun t ht => hlt t ((hmem t).mpr ht)
  refine List.Perm.eq_of_pairwise ?_ h h'
    ((List.perm_ext_iff_of_nodup (h.nodup hlt) (h'.nodup hlt')).mpr hmem)
  intro t t' ht ht' hle hle'
  have := hlt t ht
  have := hlt' t' ht'
  omega

def Mode.Describes (source : Text) (n : Nat) : Mode → Prop
  | .between => ¬CommentReaches source n ∧ ∀ k, k + 1 = n → ¬InAtom source k
  | .comment => CommentReaches source n
  | .word i bytes =>
      i < n ∧ (∀ k, i ≤ k → k < n → InAtom source k) ∧ (∀ k, k + 1 = i → ¬InAtom source k) ∧
        bytes.reverse = (source.drop i).take (n - i)

def Mode.first (n : Nat) : Mode → Nat
  | .between => n
  | .comment => n
  | .word i _ => i

variable {mode : Mode}

theorem Mode.Describes.not_commentReaches (h : mode.Describes source n) (hmode : mode ≠ .comment) :
    ¬CommentReaches source n := by
  cases mode with
  | between => exact h.1
  | comment => exact absurd rfl hmode
  | word i bytes =>
      obtain ⟨hi, hinside, -, -⟩ := h
      obtain ⟨m, rfl⟩ : ∃ m, n = m + 1 := ⟨n - 1, by omega⟩
      obtain ⟨c, hc, -⟩ := hinside m (by omega) (by omega)
      exact hc.2

theorem Mode.Describes.length_eq {bytes : Text} (h : (Mode.word i bytes).Describes source n) :
    i + bytes.length = n := by
  obtain ⟨hi, hinside, -, hbytes⟩ := h
  have hlast := (hinside (n - 1) (by omega) (by omega)).lt_length
  have hlength := congrArg List.length hbytes
  simp only [List.length_reverse, List.length_take, List.length_drop] at hlength
  omega

theorem Mode.Describes.extend (h : mode.Describes source n) (hmode : mode ≠ .comment)
    (hc : source[n]? = some c) (hdelimiter : isDelimiter c = false) :
    (mode.extend n c).Describes source (n + 1) := by
  have hn : InAtom source n := (inAtom_iff hc (h.not_commentReaches hmode)).mpr hdelimiter
  cases mode with
  | between =>
      refine ⟨by omega, fun k hk hkn => ?_, h.2, ?_⟩
      · obtain rfl : k = n := by omega
        exact hn
      · rw [Nat.add_sub_cancel_left, List.take_add_one, List.getElem?_drop]
        simp [hc]
  | comment => exact absurd rfl hmode
  | word i bytes =>
      obtain ⟨hi, hinside, hbefore, hbytes⟩ := h
      refine ⟨by omega, fun k hk hkn => ?_, hbefore, ?_⟩
      · by_cases hkn' : k = n
        · rw [hkn']
          exact hn
        · exact hinside k hk (by omega)
      · have hsub : n + 1 - i = n - i + 1 := by omega
        have hget : i + (n - i) = n := by omega
        rw [hsub, List.take_add_one, List.getElem?_drop, hget, hc, List.reverse_cons, hbytes]
        rfl

theorem mem_flush_or_iff (h : mode.Describes source n) (hn : ¬InAtom source n) (t : Token) :
    t ∈ mode.flush ∨ (t.OccursIn source ∧ n ≤ t.start) ↔
      t.OccursIn source ∧ mode.first n ≤ t.start := by
  cases mode with
  | between => simp [Mode.flush, Mode.first]
  | comment => simp [Mode.flush, Mode.first]
  | word i bytes =>
      have hlength := h.length_eq
      obtain ⟨hi, hinside, hbefore, hbytes⟩ := h
      simp only [Mode.flush, Mode.first, List.mem_singleton]
      constructor
      · rintro (rfl | ⟨ht, hle⟩)
        · refine ⟨⟨⟨?_, ?_, hbefore, ?_⟩, ?_⟩, Nat.le_refl i⟩
          all_goals rw [List.length_reverse]
          · omega
          · exact fun k hk hkn => hinside k hk (by omega)
          · rwa [hlength]
          · rw [hbytes]
            congr 1
            omega
        · exact ⟨ht, by omega⟩
      · rintro ⟨ht, hle⟩
        by_cases hlt : n ≤ t.start
        · exact .inr ⟨ht, hlt⟩
        · have hstart := hinside t.start hle (by omega)
          have hatom : t.start = i := by
            rcases Nat.eq_or_lt_of_le hle with heq | hgt
            · exact heq.symm
            · have hprevious := hinside (t.start - 1) (by omega) (by omega)
              have hbounded := ht.bounded_start (k := t.start - 1) (by omega)
              exact absurd ⟨hprevious, hstart⟩ hbounded
          cases t with
          | opening i' => exact absurd hstart (StandsAt.not_inAtom ht rfl)
          | closing i' => exact absurd hstart (StandsAt.not_inAtom ht rfl)
          | atom i' text =>
              obtain rfl : i' = i := hatom
              obtain ⟨hrun, htext⟩ := ht
              -- Two runs that begin at one place end at one place.
              have hstop : i' + text.length = n := by
                rcases Nat.lt_trichotomy (i' + text.length) n with hlt | heq | hgt
                · exact absurd (hinside _ (by omega) hlt) hrun.after
                · exact heq
                · exact absurd (hrun.inside n (by omega) hgt) hn
              refine .inl ?_
              rw [hbytes, ← htext]
              congr 3
              omega

theorem mem_ofDelimiter_or_iff (hc : source[n]? = some c) (hdelimiter : isDelimiter c = true)
    (hreaches : ¬CommentReaches source n) (t : Token) :
    t ∈ ofDelimiter n c ∨ (t.OccursIn source ∧ n + 1 ≤ t.start) ↔
      t.OccursIn source ∧ n ≤ t.start := by
  have hat : t.OccursIn source → t.start = n → t ∈ ofDelimiter n c := by
    intro ht hstart
    cases t with
    | opening i =>
        obtain rfl : i = n := hstart
        obtain rfl : c = Byte.openParen := by simpa [hc] using ht.1
        exact List.mem_singleton_self _
    | closing i =>
        obtain rfl : i = n := hstart
        obtain rfl : c = Byte.closeParen := by simpa [hc] using ht.1
        exact List.mem_singleton_self _
    | atom i text =>
        obtain rfl : i = n := hstart
        have hatom := ht.1.inside i (Nat.le_refl i) ht.1.lt
        rw [inAtom_iff hc hreaches, hdelimiter] at hatom
        exact absurd hatom (by simp)
  constructor
  · rintro (hmem | ⟨ht, hle⟩)
    · unfold ofDelimiter at hmem
      split at hmem
      case isTrue hopen =>
        obtain rfl := List.mem_singleton.mp hmem
        subst hopen
        exact ⟨standsAt_of_not_commentReaches hc (by decide) hreaches, Nat.le_refl n⟩
      case isFalse =>
        split at hmem
        case isTrue hclose =>
          obtain rfl := List.mem_singleton.mp hmem
          subst hclose
          exact ⟨standsAt_of_not_commentReaches hc (by decide) hreaches, Nat.le_refl n⟩
        case isFalse => simp at hmem
    · exact ⟨ht, by omega⟩
  · rintro ⟨ht, hle⟩
    by_cases hstart : t.start = n
    · exact .inl (hat ht hstart)
    · exact .inr ⟨ht, by omega⟩

theorem start_ne_of_commentReaches (ht : t.OccursIn source) (h : CommentReaches source n) :
    t.start ≠ n :=
  fun hstart => ht.not_commentReaches (hstart ▸ h)

theorem describes_afterDelimiter (hc : source[n]? = some c) (hdelimiter : isDelimiter c = true)
    (hreaches : ¬CommentReaches source n) :
    (Mode.afterDelimiter c).Describes source (n + 1) := by
  unfold Mode.afterDelimiter
  split
  case isTrue hsemicolon =>
    subst hsemicolon
    exact (commentReaches_succ hc).mpr ⟨by decide, .inr rfl⟩
  case isFalse hsemicolon =>
    refine ⟨(standsAt_of_not_commentReaches hc hsemicolon hreaches).2, fun k hk => ?_⟩
    obtain rfl : k = n := by omega
    rw [inAtom_iff hc hreaches, hdelimiter]
    simp

theorem describes_afterComment (hc : source[n]? = some c) (hreaches : CommentReaches source n) :
    (if c = Byte.newline then Mode.between else Mode.comment).Describes source (n + 1) := by
  split
  case isTrue hline =>
    refine ⟨fun h => ((commentReaches_succ hc).mp h).1 hline, fun k hk hatom => ?_⟩
    obtain rfl : k = n := by omega
    exact hatom.not_commentReaches hreaches
  case isFalse hline => exact (commentReaches_succ hc).mpr ⟨hline, .inl hreaches⟩

theorem getElem?_of_drop {rest : Text} (h : source.drop n = c :: rest) :
    source[n]? = some c ∧ source.drop (n + 1) = rest := by
  refine ⟨?_, ?_⟩
  · rw [← List.head?_drop, h]
    rfl
  · rw [← List.tail_drop, h]
    rfl

theorem first_afterDelimiter (n : Nat) (c : UInt8) : (Mode.afterDelimiter c).first n = n := by
  unfold Mode.afterDelimiter
  split <;> rfl

theorem first_extend (hmode : mode ≠ .comment) (n : Nat) (c : UInt8) :
    (mode.extend n c).first (n + 1) = mode.first n := by
  cases mode with
  | between => rfl
  | comment => exact absurd rfl hmode
  | word i bytes => rfl

theorem mem_scanFrom_iff {rest : Text} (hrest : source.drop n = rest)
    (h : mode.Describes source n) (t : Token) :
    t ∈ scanFrom mode n rest ↔ t.OccursIn source ∧ mode.first n ≤ t.start := by
  induction rest generalizing mode n with
  | nil =>
      have hlength := List.drop_eq_nil_iff.mp hrest
      have hn : ¬InAtom source n := fun hn => by
        have := hn.lt_length
        omega
      rw [scanFrom, ← mem_flush_or_iff h hn, or_iff_left]
      rintro ⟨ht, hle⟩
      have := ht.start_lt_length
      omega
  | cons c rest ih =>
      obtain ⟨hc, hrest⟩ := getElem?_of_drop hrest
      unfold scanFrom
      split
      case isTrue hcomment =>
        subst hcomment
        have hfirst : (if c = Byte.newline then Mode.between else Mode.comment).first (n + 1) =
            n + 1 := by
          split <;> rfl
        rw [ih hrest (describes_afterComment hc h), hfirst, Mode.first]
        refine and_congr_right fun ht => ?_
        have := start_ne_of_commentReaches ht h
        omega
      case isFalse hmode =>
        have hreaches := h.not_commentReaches hmode
        split
        case isTrue hdelimiter =>
          have hn : ¬InAtom source n := by simp [inAtom_iff hc hreaches, hdelimiter]
          rw [List.append_assoc, List.mem_append, List.mem_append,
            ih hrest (describes_afterDelimiter hc hdelimiter hreaches), first_afterDelimiter,
            mem_ofDelimiter_or_iff hc hdelimiter hreaches, mem_flush_or_iff h hn]
        case isFalse hdelimiter =>
          rw [ih hrest (h.extend hmode hc (by simpa using hdelimiter)), first_extend hmode]

theorem scanFrom_ordered {rest : Text} (hrest : source.drop n = rest)
    (h : mode.Describes source n) : Ordered (scanFrom mode n rest) := by
  induction rest generalizing mode n with
  | nil => cases mode <;> simp [scanFrom, Mode.flush, Ordered]
  | cons c rest ih =>
      obtain ⟨hc, hrest⟩ := getElem?_of_drop hrest
      unfold scanFrom
      split
      case isTrue hcomment =>
        subst hcomment
        exact ih hrest (describes_afterComment hc h)
      case isFalse hmode =>
        have hreaches := h.not_commentReaches hmode
        split
        case isTrue hdelimiter =>
          have hnext := describes_afterDelimiter hc hdelimiter hreaches
          have hflush : ∀ t ∈ mode.flush, t.stop = n := by
            cases mode with
            | word i bytes => simpa [Mode.flush, stop] using h.length_eq
            | _ => simp [Mode.flush]
          have hparen : ∀ t ∈ ofDelimiter n c, t.start = n ∧ t.stop = n + 1 := by
            unfold ofDelimiter
            split
            · simp [start, stop]
            · split <;> simp [start, stop]
          have hlater : ∀ t ∈ scanFrom (Mode.afterDelimiter c) (n + 1) rest, n + 1 ≤ t.start := by
            intro t ht
            have hle := ((mem_scanFrom_iff hrest hnext t).mp ht).2
            rwa [first_afterDelimiter] at hle
          refine List.pairwise_append.mpr
            ⟨List.pairwise_append.mpr ⟨?_, ?_, ?_⟩, ih hrest hnext, ?_⟩
          · cases mode <;> simp [Mode.flush]
          · unfold ofDelimiter
            split
            · simp
            · split <;> simp
          · intro t ht t' ht'
            have := hflush t ht
            have := hparen t' ht'
            omega
          · intro t ht t' ht'
            have hle := hlater t' ht'
            rcases List.mem_append.mp ht with ht | ht
            · have := hflush t ht
              omega
            · have := hparen t ht
              omega
        case isFalse hdelimiter => exact ih hrest (h.extend hmode hc (by simpa using hdelimiter))

theorem scan_isSequence (source : Text) : IsSequence source (scan source) := by
  have hstart : Mode.between.Describes source 0 := by simp [Mode.Describes, CommentReaches]
  refine ⟨scanFrom_ordered List.drop_zero hstart, fun t => ?_⟩
  rw [scan, mem_scanFrom_iff List.drop_zero hstart, Mode.first]
  simp

end Token

end TypedSexp.Sexp
