import TypedSexp.Proofs.Sexp.Words

namespace TypedSexp.Sexp

mutual

def content : Sexp → Sexp
  | .atom _ text => .atom Range.none text
  | .list _ elems => .list Range.none (contentAll elems)

def contentAll : List Sexp → List Sexp
  | [] => []
  | s :: rest => content s :: contentAll rest

end

@[simp]
theorem contentAll_eq_map (ss : List Sexp) : contentAll ss = ss.map content := by
  induction ss with
  | nil => rfl
  | cons s rest ih => simp [contentAll, ih]

theorem content_eq_atom {s : Sexp} {range : Range} {text : Text}
    (h : s.content = (Sexp.atom range text).content) : ∃ r, s = .atom r text := by
  cases s with
  | atom r t =>
      simp only [content, Sexp.atom.injEq] at h
      exact ⟨r, by rw [h.2]⟩
  | list r ss => simp [content] at h

theorem content_eq_list {s : Sexp} {range : Range} {elems : List Sexp}
    (h : s.content = (Sexp.list range elems).content) :
    ∃ r ss, s = .list r ss ∧ ss.map content = elems.map content := by
  cases s with
  | atom r t => simp [content] at h
  | list r ss =>
      simp only [content, contentAll_eq_map, Sexp.list.injEq] at h
      exact ⟨r, ss, rfl, h.2⟩

theorem content_eq_form {s : Sexp} {range r : Range} {head : Text} {args : List Sexp}
    (h : s.content = (Sexp.list range (.atom r head :: args)).content) :
    ∃ r₁ r₂ ss, s = .list r₁ (.atom r₂ head :: ss) ∧ ss.map content = args.map content := by
  obtain ⟨r₁, elems, rfl, helems⟩ := content_eq_list h
  obtain ⟨first, ss, rfl, hfirst, hss⟩ := List.map_eq_cons_iff.mp helems
  obtain ⟨r₂, rfl⟩ := content_eq_atom hfirst
  exact ⟨r₁, r₂, ss, rfl, hss⟩

theorem utf8_space : utf8 " " = [Byte.space] := rfl

theorem utf8_open : utf8 "(" = [Byte.openParen] := rfl

theorem utf8_close : utf8 ")" = [Byte.closeParen] := rfl

theorem toTextAll_eq_join (ss : List Sexp) :
    toTextAll ss = Text.join [Byte.space] (ss.map toText) := by
  match ss with
  | [] => rfl
  | [s] => rfl
  | s :: second :: rest =>
      have ih := toTextAll_eq_join (second :: rest)
      simp only [toTextAll, List.map_cons, Text.join] at ih ⊢
      rw [ih]

theorem toTextAll_cons (s : Sexp) (ss : List Sexp) :
    toTextAll (s :: ss) = s.toText ++ ss.flatMap fun s => Byte.space :: s.toText := by
  induction ss generalizing s with
  | nil => simp [toTextAll]
  | cons second rest ih => simp [toTextAll, ih]

def EndsWord : Text → Prop
  | [] => True
  | c :: _ => isDelimiter c = true

namespace Token

theorem scanFrom_word_append {word : Text} (h : ∀ c ∈ word, isDelimiter c = false)
    (start : Nat) (bytes : Text) (offset : Nat) (rest : Text) :
    scanFrom (.word start bytes) offset (word ++ rest) =
      scanFrom (.word start (word.reverse ++ bytes)) (offset + word.length) rest := by
  induction word generalizing bytes offset with
  | nil => rfl
  | cons c word ih =>
      obtain ⟨hc, hword⟩ := List.forall_mem_cons.mp h
      rw [List.cons_append, scanFrom]
      simp only [reduceCtorEq, if_false, hc, Bool.false_eq_true, Mode.extend]
      rw [ih hword]
      simp [Nat.add_comm 1, Nat.add_assoc]

theorem scanFrom_word_end {rest : Text} (h : EndsWord rest) (start : Nat) (bytes : Text)
    (offset : Nat) :
    scanFrom (.word start bytes) offset rest =
      .atom start bytes.reverse :: scanFrom .between offset rest := by
  cases rest with
  | nil => rfl
  | cons c rest =>
      have hc : isDelimiter c = true := h
      simp [scanFrom, hc, Mode.flush]

theorem scanFrom_between_word {word rest : Text} (hword : IsWord word) (hrest : EndsWord rest)
    (offset : Nat) :
    scanFrom .between offset (word ++ rest) =
      .atom offset word :: scanFrom .between (offset + word.length) rest := by
  obtain ⟨hne, hbytes⟩ := hword
  cases word with
  | nil => exact absurd rfl hne
  | cons c word =>
      obtain ⟨hc, hword⟩ := List.forall_mem_cons.mp hbytes
      rw [List.cons_append, scanFrom]
      simp only [reduceCtorEq, if_false, hc, Bool.false_eq_true, Mode.extend]
      rw [scanFrom_word_append hword, scanFrom_word_end hrest]
      simp [Nat.add_comm 1, Nat.add_assoc]

theorem scanFrom_between_blank {c : UInt8} (hc : isBlank c = true) (offset : Nat) (rest : Text) :
    scanFrom .between offset (c :: rest) = scanFrom .between (offset + 1) rest := by
  have hcases : c = Byte.space ∨ c = Byte.tab ∨ c = Byte.newline ∨ c = Byte.carriageReturn := by
    simpa [isBlank, or_assoc] using hc
  rcases hcases with rfl | rfl | rfl | rfl <;> rfl

end Token

namespace Reading

theorem foldl_add_pending (complete : List Sexp) (inner : OpenList) (outer : Stack OpenList)
    (ss : List Sexp) :
    ss.foldl add ⟨complete, outer.push inner⟩ =
      ⟨complete, outer.push { inner with elems := ss.reverse ++ inner.elems }⟩ := by
  induction ss generalizing inner with
  | nil => rfl
  | cons s rest ih =>
      have hadd : add ⟨complete, outer.push inner⟩ s =
          ⟨complete, outer.push { inner with elems := s :: inner.elems }⟩ := rfl
      rw [List.foldl_cons, hadd, ih]
      simp

theorem foldl_add_complete (complete : List Sexp) (ss : List Sexp) :
    ss.foldl add ⟨complete, {}⟩ = ⟨ss.reverse ++ complete, {}⟩ := by
  induction ss generalizing complete with
  | nil => rfl
  | cons s rest ih =>
      have hadd : add ⟨complete, {}⟩ s = ⟨s :: complete, {}⟩ := rfl
      rw [List.foldl_cons, hadd, ih]
      simp

def continueFrom (reading : Reading) (offset : Nat) (text : Text) : Except Diagnostic Reading :=
  (Token.scanFrom .between offset text).foldlM step reading

theorem continueFrom_blank {c : UInt8} (hc : isBlank c = true) (reading : Reading) (offset : Nat)
    (text : Text) :
    reading.continueFrom offset (c :: text) = reading.continueFrom (offset + 1) text := by
  rw [continueFrom, Token.scanFrom_between_blank hc, continueFrom]

theorem continueFrom_open (reading : Reading) (offset : Nat) (text : Text) :
    reading.continueFrom offset (Byte.openParen :: text) =
      continueFrom ⟨reading.complete, reading.pending.push ⟨offset, []⟩⟩ (offset + 1) text := rfl

theorem continueFrom_close (reading : Reading) (inner : OpenList) (offset : Nat) (text : Text) :
    continueFrom ⟨reading.complete, reading.pending.push inner⟩ offset (Byte.closeParen :: text) =
      (reading.add (.list (Range.ofOffsets inner.offset (offset + 1)) inner.elems.reverse)).continueFrom
        (offset + 1) text := rfl

end Reading

def ReadsBack (s : Sexp) : Prop :=
  ∀ (reading : Reading) (offset : Nat) {rest : Text}, EndsWord rest →
    ∃ s', s'.content = s.content ∧
      reading.continueFrom offset (s.toText ++ rest) =
        (reading.add s').continueFrom (offset + s.toText.length) rest

theorem readsBack_atom {range : Range} {text : Text} (h : IsWord text) :
    ReadsBack (.atom range text) := by
  intro reading offset rest hrest
  refine ⟨.atom (Range.ofOffsets offset (offset + text.length)) text, rfl, ?_⟩
  simp only [Reading.continueFrom, toText, Token.scanFrom_between_word h hrest,
    List.foldlM_cons, Reading.step]
  rfl

theorem readsBack_join {c : UInt8} (hc : isBlank c = true) {ss : List Sexp}
    (h : ∀ s ∈ ss, ReadsBack s) (reading : Reading) (offset : Nat) {rest : Text}
    (hrest : EndsWord rest) :
    ∃ ss' : List Sexp, ss'.map content = ss.map content ∧
      reading.continueFrom offset (Text.join [c] (ss.map toText) ++ rest) =
        (ss'.foldl Reading.add reading).continueFrom
          (offset + (Text.join [c] (ss.map toText)).length) rest := by
  match ss with
  | [] => exact ⟨[], rfl, rfl⟩
  | [s] =>
      obtain ⟨s', hs', hread⟩ := h s (by simp) reading offset hrest
      exact ⟨[s'], by simp [hs'], hread⟩
  | s :: second :: more =>
      obtain ⟨hs, hmore⟩ := List.forall_mem_cons.mp h
      have hblank : EndsWord (c :: (Text.join [c] ((second :: more).map toText) ++ rest)) := by
        simp [EndsWord, isDelimiter, hc]
      obtain ⟨s', hs', hread⟩ := hs reading offset hblank
      obtain ⟨ss', hss', hreads⟩ := readsBack_join hc hmore (reading.add s')
        (offset + s.toText.length + 1) hrest
      refine ⟨s' :: ss', by simp only [List.map_cons, hs', hss'], ?_⟩
      have htext : Text.join [c] ((s :: second :: more).map toText) =
          s.toText ++ c :: Text.join [c] ((second :: more).map toText) := by
        simp [Text.join]
      rw [htext, List.append_assoc, List.cons_append, hread, Reading.continueFrom_blank hc, hreads]
      simp [Nat.add_assoc, Nat.add_comm 1]

theorem readsBack_list {range : Range} {elems : List Sexp} (h : ∀ s ∈ elems, ReadsBack s) :
    ReadsBack (.list range elems) := by
  intro reading offset rest hrest
  have hclose : EndsWord (Byte.closeParen :: rest) := rfl
  obtain ⟨ss, hss, hread⟩ := readsBack_join (c := Byte.space) rfl h
    ⟨reading.complete, reading.pending.push ⟨offset, []⟩⟩ (offset + 1) hclose
  have htext : (Sexp.list range elems).toText ++ rest =
      Byte.openParen :: (Text.join [Byte.space] (elems.map toText) ++ Byte.closeParen :: rest) := by
    simp [toText, toTextAll_eq_join]
  have hlength : offset + (Sexp.list range elems).toText.length =
      offset + 1 + (Text.join [Byte.space] (elems.map toText)).length + 1 := by
    simp only [toText, toTextAll_eq_join, List.length_append, List.length_singleton]
    omega
  rw [htext, hlength, Reading.continueFrom_open, hread, Reading.foldl_add_pending,
    Reading.continueFrom_close]
  exact ⟨_, by simp [content, hss], rfl⟩

theorem readsBack_of_ofWords {s : Sexp} (h : s.OfWords) : ReadsBack s := by
  induction h with
  | atom hword => exact readsBack_atom hword
  | list _ ih => exact readsBack_list ih

theorem readAll_join {c : UInt8} (hc : isBlank c = true) {ss : List Sexp}
    (h : ∀ s ∈ ss, s.OfWords) :
    ∃ ss' : List Sexp, readAll (Text.join [c] (ss.map toText)) = .ok ss' ∧
      ss'.map content = ss.map content := by
  have hend : EndsWord [] := trivial
  obtain ⟨ss', hss', hread⟩ := readsBack_join hc (fun s hs => readsBack_of_ofWords (h s hs)) {} 0 hend
  refine ⟨ss', ?_, hss'⟩
  have hreadAll (text : Text) :
      readAll text = Reading.continueFrom {} 0 (text ++ []) >>= Reading.finish := by
    rw [List.append_nil]
    rfl
  rw [hreadAll, hread, Reading.foldl_add_complete]
  simp only [List.append_nil]
  change Reading.finish ⟨ss'.reverse, {}⟩ = .ok ss'
  simp [Reading.finish, Stack.top?]

end TypedSexp.Sexp
