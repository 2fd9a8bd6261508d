import TypedSexp.Proofs.Sexp.Balance
import TypedSexp.Proofs.Sexp.Printing

namespace TypedSexp

def Range.slice (r : Range) (source : Text) : Text :=
  (source.drop (r.start - 1).toNat).take (r.stop - r.start).toNat

namespace Sexp

variable {source : Text} {a n i j k : Nat} {c : UInt8}

theorem getElem?_slice : ((source.drop a).take n)[k]? = if k < n then source[a + k]? else none := by
  rw [List.getElem?_take, List.getElem?_drop]

theorem commentReaches_slice (ha : ¬CommentReaches source a) (hn : a + n ≤ source.length)
    (hk : k ≤ n) :
    CommentReaches ((source.drop a).take n) k ↔ CommentReaches source (a + k) := by
  induction k with
  | zero =>
      have hnone : ¬CommentReaches ((source.drop a).take n) 0 := by
        rintro ⟨j, hj, -⟩
        omega
      exact iff_of_false hnone ha
  | succ k ih =>
      have hsource : source[a + k]? = some source[a + k] := List.getElem?_eq_getElem (by omega)
      have hslice : ((source.drop a).take n)[k]? = some source[a + k] := by
        rw [getElem?_slice, if_pos (Nat.lt_of_succ_le hk), hsource]
      rw [commentReaches_succ hslice, ← Nat.add_assoc, commentReaches_succ hsource, ih (by omega)]

theorem standsAt_slice (ha : ¬CommentReaches source a) (hn : a + n ≤ source.length) :
    StandsAt ((source.drop a).take n) c k ↔ k < n ∧ StandsAt source c (a + k) := by
  by_cases hk : k < n
  · simp only [StandsAt, InComment, getElem?_slice, hk, if_true, true_and]
    rw [commentReaches_slice ha hn hk, Nat.add_assoc]
  · simp [StandsAt, hk]

theorem inAtom_slice (ha : ¬CommentReaches source a) (hn : a + n ≤ source.length) :
    InAtom ((source.drop a).take n) k ↔ k < n ∧ InAtom source (a + k) := by
  simp only [InAtom, standsAt_slice ha hn]
  constructor
  · rintro ⟨c, ⟨hk, hc⟩, hdelimiter⟩
    exact ⟨hk, c, hc, hdelimiter⟩
  · rintro ⟨hk, c, hc, hdelimiter⟩
    exact ⟨c, ⟨hk, hc⟩, hdelimiter⟩

structure IsCut (source : Text) (a n : Nat) : Prop where
  length : a + n ≤ source.length
  outside : ¬CommentReaches source a
  first : ∀ k, k + 1 = a → ¬(InAtom source k ∧ InAtom source a)
  last : ∀ k, k + 1 = a + n → ¬(InAtom source k ∧ InAtom source (a + n))

theorem IsCut.isRun_iff (h : IsCut source a n) :
    IsRun ((source.drop a).take n) i j ↔ j ≤ n ∧ IsRun source (a + i) (a + j) := by
  have hinAtom (k : Nat) := inAtom_slice (k := k) h.outside h.length
  -- only at the two ends can a neighbour lie outside the slice, and there the cut speaks of it
  constructor
  · intro hrun
    have hlt := hrun.lt
    have hinside (k : Nat) (hi : i ≤ k) (hj : k < j) := (hinAtom k).mp (hrun.inside k hi hj)
    have hj : j ≤ n := by
      have := (hinside (j - 1) (by omega) (by omega)).1
      omega
    refine ⟨hj, by omega, fun k hi hk => ?_, fun k hk hbefore => ?_, fun hafter => ?_⟩
    · have hk := (hinside (k - a) (by omega) (by omega)).2
      rwa [Nat.add_sub_cancel' (by omega)] at hk
    · cases i with
      | zero => exact h.first k hk ⟨hbefore, (hinside 0 (Nat.le_refl 0) hlt).2⟩
      | succ i =>
          obtain rfl : k = a + i := by omega
          exact hrun.before i rfl ((hinAtom i).mpr ⟨by omega, hbefore⟩)
    · rcases Nat.eq_or_lt_of_le hj with rfl | hlt'
      · have hlast := (hinside (j - 1) (by omega) (by omega)).2
        exact h.last (a + (j - 1)) (by omega) ⟨hlast, hafter⟩
      · exact hrun.after ((hinAtom j).mpr ⟨hlt', hafter⟩)
  · rintro ⟨hj, hrun⟩
    have hlt := hrun.lt
    refine ⟨by omega, fun k hi hk => ?_, fun k hk hbefore => ?_, fun hafter => ?_⟩
    · exact (hinAtom k).mpr ⟨by omega, hrun.inside (a + k) (by omega) (by omega)⟩
    · exact hrun.before (a + k) (by omega) ((hinAtom k).mp hbefore).2
    · exact hrun.after ((hinAtom j).mp hafter).2

namespace Token

theorem start_shift (k : Nat) (t : Token) : (t.shift k).start = t.start + k := by
  cases t <;> rfl

theorem stop_shift (k : Nat) (t : Token) : (t.shift k).stop = t.stop + k := by
  cases t with
  | opening i => exact Nat.add_right_comm i k 1
  | closing i => exact Nat.add_right_comm i k 1
  | atom i text => exact Nat.add_right_comm i k text.length

theorem exists_shift {k : Nat} {t : Token} (h : k ≤ t.start) : ∃ t' : Token, t'.shift k = t := by
  cases t with
  | opening i => exact ⟨.opening (i - k), congrArg _ (Nat.sub_add_cancel h)⟩
  | closing i => exact ⟨.closing (i - k), congrArg _ (Nat.sub_add_cancel h)⟩
  | atom i text =>
      exact ⟨.atom (i - k) text, congrArg (Token.atom · text) (Nat.sub_add_cancel h)⟩

theorem occursIn_slice (h : IsCut source a n) (t : Token) :
    t.OccursIn ((source.drop a).take n) ↔ t.stop ≤ n ∧ (t.shift a).OccursIn source := by
  cases t with
  | opening i =>
      simp only [OccursIn, shift, stop, standsAt_slice h.outside h.length, Nat.add_comm a i]
      rfl
  | closing i =>
      simp only [OccursIn, shift, stop, standsAt_slice h.outside h.length, Nat.add_comm a i]
      rfl
  | atom i text =>
      have htext (hle : i + text.length ≤ n) :
          (((source.drop a).take n).drop i).take text.length =
            (source.drop (i + a)).take text.length := by
        rw [List.drop_take, List.take_take, List.drop_drop, Nat.min_eq_left (by omega),
          Nat.add_comm a i]
      simp only [OccursIn, shift, stop, h.isRun_iff]
      rw [Nat.add_right_comm i a, Nat.add_comm a i, Nat.add_comm a (i + _)]
      constructor
      · rintro ⟨⟨hle, hrun⟩, hbytes⟩
        exact ⟨hle, hrun, htext hle ▸ hbytes⟩
      · rintro ⟨hle, hrun, hbytes⟩
        exact ⟨⟨hle, hrun⟩, (htext hle).trans hbytes⟩

theorem scan_slice (h : IsCut source a n) {before middle after : List Token}
    (hscan : scan source = before ++ middle ++ after)
    (hbefore : ∀ t ∈ before, t.stop ≤ a) (hafter : ∀ t ∈ after, a + n ≤ t.start)
    (hmiddle : ∀ t ∈ middle, a ≤ t.start ∧ t.stop ≤ a + n) :
    (scan ((source.drop a).take n)).map (shift a) = middle := by
  have hslice := scan_isSequence ((source.drop a).take n)
  have hsource := scan_isSequence source
  rw [hscan] at hsource
  have hlt : ∀ t ∈ scan ((source.drop a).take n), t.start < t.stop :=
    fun t ht => ((hslice.mem_iff t).mp ht).start_lt_stop
  have hordered : Ordered ((scan ((source.drop a).take n)).map (shift a)) := by
    refine List.pairwise_map.mpr (hslice.ordered.imp fun hle => ?_)
    rw [stop_shift, start_shift]
    omega
  have hordered' : Ordered middle :=
    List.Pairwise.sublist (List.infix_append before middle after).sublist hsource.ordered
  refine hordered.eq_of_mem_iff hordered' ?_ fun t => ?_
  · intro t ht
    obtain ⟨t', ht', rfl⟩ := List.mem_map.mp ht
    have := hlt t' ht'
    rw [stop_shift, start_shift]
    omega
  · constructor
    · intro ht
      obtain ⟨t', ht', rfl⟩ := List.mem_map.mp ht
      obtain ⟨hstop, hoccurs⟩ := (occursIn_slice h t').mp ((hslice.mem_iff t').mp ht')
      have := hlt t' ht'
      rcases List.mem_append.mp ((hsource.mem_iff _).mpr hoccurs) with hmem | hmem
      · rcases List.mem_append.mp hmem with hmem | hmem
        · have := hbefore _ hmem
          rw [stop_shift] at this
          omega
        · exact hmem
      · have := hafter _ hmem
        rw [start_shift] at this
        omega
    · intro ht
      obtain ⟨hstart, hstop⟩ := hmiddle t ht
      have hoccurs := (hsource.mem_iff t).mp (by simp [ht])
      obtain ⟨t', rfl⟩ := exists_shift hstart
      rw [stop_shift] at hstop
      exact List.mem_map_of_mem
        ((hslice.mem_iff t').mpr ((occursIn_slice h t').mpr ⟨by omega, hoccurs⟩))

end Token

inductive Placed : Sexp → Prop
  | atom (i : Nat) (text : Text) : Placed (.atom (Range.ofOffsets i (i + text.length)) text)
  | list (i j : Nat) {elems : List Sexp} :
      (∀ s ∈ elems, Placed s) → Placed (.list (Range.ofOffsets i (j + 1)) elems)

namespace Reading

variable {reading reading' : Reading} {s : Sexp}

theorem mem_parts_add {t : Sexp} (h : t ∈ (reading.add s).parts) : t = s ∨ t ∈ reading.parts := by
  rcases reading with ⟨complete, ⟨_ | ⟨inner, outer⟩⟩⟩
  · simpa [add, parts, Stack.pop?] using h
  · simp only [add, parts, Stack.pop?, Stack.push, List.flatMap_cons, List.mem_append,
      List.mem_cons] at h ⊢
    tauto

theorem placed_step {t : Token} (h : ∀ s ∈ reading.parts, s.Placed)
    (hstep : reading.step t = .ok reading') : ∀ s ∈ reading'.parts, s.Placed := by
  intro s hs
  cases t with
  | atom offset text =>
      cases hstep
      rcases mem_parts_add hs with rfl | hs
      · exact .atom offset text
      · exact h s hs
  | opening offset =>
      cases hstep
      exact h s (by simpa [parts, Stack.push] using hs)
  | closing offset =>
      rcases reading with ⟨complete, ⟨_ | ⟨inner, outer⟩⟩⟩
      · cases hstep
      · cases hstep
        rcases mem_parts_add hs with rfl | hs
        · refine .list inner.offset offset fun s hs => h s ?_
          simp [parts, List.mem_reverse.mp hs]
        · refine h s ?_
          simp only [parts, List.flatMap_cons, List.mem_append] at hs ⊢
          tauto

theorem placed_foldlM {ts : List Token} (h : ∀ s ∈ reading.parts, s.Placed)
    (hfold : ts.foldlM step reading = .ok reading') : ∀ s ∈ reading'.parts, s.Placed := by
  induction ts generalizing reading with
  | nil =>
      cases hfold
      exact h
  | cons t ts ih =>
      rw [List.foldlM_cons] at hfold
      obtain ⟨next, hnext, hrest⟩ := Except.bind_eq_ok_iff.mp hfold
      exact ih (placed_step h hnext) hrest

theorem foldlM_flatMap {ss : List Sexp}
    (h : ∀ s ∈ ss, ∀ reading : Reading, s.tokens.foldlM step reading = .ok (reading.add s))
    (reading : Reading) :
    (ss.flatMap Sexp.tokens).foldlM step reading = .ok (ss.foldl add reading) := by
  induction ss generalizing reading with
  | nil => rfl
  | cons s rest ih =>
      obtain ⟨hs, hrest⟩ := List.forall_mem_cons.mp h
      rw [List.flatMap_cons, List.foldlM_append, hs reading]
      exact ih hrest (reading.add s)

theorem foldlM_tokens (h : s.Placed) (reading : Reading) :
    s.tokens.foldlM step reading = .ok (reading.add s) := by
  induction h generalizing reading with
  | atom i text =>
      rw [tokens_atom]
      rfl
  | @list i j elems _ ih =>
      obtain ⟨complete, ⟨pending⟩⟩ := reading
      have helems : (elems.flatMap Sexp.tokens).foldlM step ⟨complete, ⟨⟨i, []⟩ :: pending⟩⟩ =
          .ok ⟨complete, ⟨⟨i, elems.reverse⟩ :: pending⟩⟩ := by
        have hfold := foldl_add_pending complete ⟨i, []⟩ ⟨pending⟩ elems
        simp only [Stack.push, List.append_nil] at hfold
        rw [foldlM_flatMap ih, hfold]
      have hlast : step ⟨complete, ⟨⟨i, elems.reverse⟩ :: pending⟩⟩ (.closing j) =
          .ok (add ⟨complete, ⟨pending⟩⟩ (.list (Range.ofOffsets i (j + 1)) elems)) := by
        simp [step, Stack.pop?]
      calc (Sexp.list (Range.ofOffsets i (j + 1)) elems).tokens.foldlM step ⟨complete, ⟨pending⟩⟩
          = ([Token.opening i] ++ elems.flatMap Sexp.tokens ++ [Token.closing j]).foldlM step
              ⟨complete, ⟨pending⟩⟩ := by rw [tokens_list]
        _ = (elems.flatMap Sexp.tokens ++ [Token.closing j]).foldlM step
              ⟨complete, ⟨⟨i, []⟩ :: pending⟩⟩ := rfl
        _ = [Token.closing j].foldlM step ⟨complete, ⟨⟨i, elems.reverse⟩ :: pending⟩⟩ := by
            rw [List.foldlM_append, helems]
            rfl
        _ = .ok (add ⟨complete, ⟨pending⟩⟩ (.list (Range.ofOffsets i (j + 1)) elems)) := by
            rw [List.foldlM_cons, hlast]
            rfl

end Reading

inductive PartOf (part : Sexp) : Sexp → Prop
  | self : PartOf part part
  | inside {range : Range} {elems : List Sexp} {s : Sexp} :
      s ∈ elems → PartOf part s → PartOf part (.list range elems)

def HasPlace (s : Sexp) (r : Range) : Prop := ∃ part, PartOf part s ∧ part.range = r

def IsNode (source : Text) (s : Sexp) : Prop :=
  ∃ ss, readAll source = .ok ss ∧ ∃ top ∈ ss, PartOf s top

theorem PartOf.trans {s part inner : Sexp} (hinner : PartOf inner part) (h : PartOf part s) :
    PartOf inner s := by
  induction h with
  | self => exact hinner
  | inside hs _ ih => exact .inside hs ih

theorem IsNode.elem {s part : Sexp} (h : IsNode source s) (hpart : part ∈ s.elems) :
    IsNode source part := by
  obtain ⟨ss, hread, top, htop, hs⟩ := h
  cases s with
  | atom => cases hpart
  | list range elems => exact ⟨ss, hread, top, htop, .trans (.inside hpart .self) hs⟩

structure TakenFrom (source : Text) (s : Sexp) : Prop where
  placed : s.Placed
  tokens : s.tokens <:+: Token.scan source

variable {s : Sexp} {ss : List Sexp}

theorem takenFrom_of_readAll (h : readAll source = .ok ss) (hs : s ∈ ss) : TakenFrom source s := by
  refine ⟨?_, ?_⟩
  · obtain ⟨reading, hreading, hfinish⟩ := Except.bind_eq_ok_iff.mp h
    have hplaced := Reading.placed_foldlM (by simp [Reading.parts]) hreading
    rcases reading with ⟨complete, ⟨_ | ⟨inner, outer⟩⟩⟩
    · cases hfinish
      exact hplaced s (List.mem_append_left _ (List.mem_reverse.mp hs))
    · cases hfinish
  · rw [← readAll_tokens h]
    exact tokens_infix_flatMap hs

theorem TakenFrom.elem {range : Range} {elems : List Sexp}
    (h : TakenFrom source (.list range elems)) (hs : s ∈ elems) : TakenFrom source s := by
  refine ⟨?_, (tokens_infix_list hs).trans h.tokens⟩
  cases h.placed with
  | list _ _ hplaced => exact hplaced s hs

theorem TakenFrom.part {part : Sexp} (h : TakenFrom source s) (hpart : PartOf part s) :
    TakenFrom source part := by
  induction hpart with
  | self => exact h
  | inside hs _ ih => exact ih (h.elem hs)

theorem IsNode.takenFrom (h : IsNode source s) : TakenFrom source s := by
  obtain ⟨ss, hread, top, htop, hpart⟩ := h
  exact (takenFrom_of_readAll hread htop).part hpart

theorem TakenFrom.occursIn (h : TakenFrom source s) : ∀ t ∈ s.tokens, t.OccursIn source :=
  fun t ht => ((Token.scan_isSequence source).mem_iff t).mp (h.tokens.subset ht)

theorem TakenFrom.ordered (h : TakenFrom source s) : Token.Ordered s.tokens :=
  List.Pairwise.sublist h.tokens.sublist (Token.scan_isSequence source).ordered

structure Covers (s : Sexp) (i n : Nat) : Prop where
  range : s.range = Range.ofOffsets i n
  first : ∃ t ∈ s.tokens, t.start = i
  last : ∃ t ∈ s.tokens, t.stop = n
  within : ∀ t ∈ s.tokens, i ≤ t.start ∧ t.stop ≤ n

theorem TakenFrom.inside {i j : Nat} {elems : List Sexp}
    (h : TakenFrom source (.list (Range.ofOffsets i (j + 1)) elems)) :
    i + 1 ≤ j ∧ ∀ t ∈ elems.flatMap Sexp.tokens, i + 1 ≤ t.start ∧ t.stop ≤ j := by
  have hordered := h.ordered
  rw [tokens_list, Token.Ordered, List.pairwise_append, List.pairwise_append] at hordered
  obtain ⟨⟨-, -, hfirst⟩, -, hlast⟩ := hordered
  refine ⟨hlast (.opening i) (by simp) (.closing j) (by simp), fun t ht => ⟨?_, ?_⟩⟩
  · exact hfirst (.opening i) (by simp) t ht
  · exact hlast t (List.mem_append_right _ ht) (.closing j) (by simp)

theorem TakenFrom.covers (h : TakenFrom source s) : ∃ i n, Covers s i n := by
  cases h.placed with
  | atom i text =>
      refine ⟨i, i + text.length, by simp [Sexp.range], ?_, ?_, ?_⟩
      all_goals simp [tokens_atom, Token.start, Token.stop]
  | @list i j elems _ =>
      obtain ⟨hij, hinside⟩ := h.inside
      refine ⟨i, j + 1, rfl, ⟨.opening i, by simp [tokens_list], rfl⟩,
        ⟨.closing j, by simp [tokens_list], rfl⟩, fun t ht => ?_⟩
      rw [tokens_list, List.mem_append, List.mem_append] at ht
      rcases ht with (ht | ht) | ht
      · obtain rfl := List.mem_singleton.mp ht
        exact ⟨Nat.le_refl i, by simp only [Token.stop]; omega⟩
      · have := hinside t ht
        exact ⟨by omega, by omega⟩
      · obtain rfl := List.mem_singleton.mp ht
        exact ⟨by simp only [Token.start]; omega, Nat.le_refl (j + 1)⟩

theorem TakenFrom.bounds (h : TakenFrom source s) :
    1 ≤ s.range.start ∧ s.range.start < s.range.stop ∧ s.range.stop ≤ source.length + 1 := by
  obtain ⟨i, n, hcovers⟩ := h.covers
  obtain ⟨t, ht, rfl⟩ := hcovers.last
  have hlt := (h.occursIn t ht).start_lt_stop
  have hlength := (h.occursIn t ht).stop_le_length
  have hfirst := (hcovers.within t ht).1
  rw [hcovers.range]
  simp only [Range.ofOffsets]
  omega

theorem TakenFrom.strictly_inside {range : Range} {elems : List Sexp}
    (h : TakenFrom source (.list range elems)) (hs : s ∈ elems) :
    range.start < s.range.start ∧ s.range.stop < range.stop := by
  obtain ⟨i', n', hcovers⟩ := (h.elem hs).covers
  obtain ⟨t, ht, hstart⟩ := hcovers.first
  obtain ⟨t', ht', hstop⟩ := hcovers.last
  cases h.placed with
  | list i j _ =>
      obtain ⟨hij, hinside⟩ := h.inside
      have hfirst := (hinside t ((tokens_infix_flatMap hs).subset ht)).1
      have hlast := (hinside t' ((tokens_infix_flatMap hs).subset ht')).2
      rw [hcovers.range]
      simp only [Range.ofOffsets]
      omega

theorem pairwise_of_ordered (h : ∀ s ∈ ss, TakenFrom source s)
    (hordered : Token.Ordered (ss.flatMap tokens)) :
    ss.Pairwise fun s s' => s.range.stop ≤ s'.range.start := by
  have hpairs := (List.pairwise_flatMap.mp hordered).2
  refine (List.Pairwise.and_mem.mp hpairs).imp ?_
  rintro s s' ⟨hs, hs', hle⟩
  obtain ⟨i, n, hcovers⟩ := (h s hs).covers
  obtain ⟨i', n', hcovers'⟩ := (h s' hs').covers
  obtain ⟨t, ht, rfl⟩ := hcovers.last
  obtain ⟨t', ht', rfl⟩ := hcovers'.first
  have := hle t ht t' ht'
  rw [hcovers.range, hcovers'.range]
  simp only [Range.ofOffsets]
  omega

theorem TakenFrom.pairwise_elems {range : Range} {elems : List Sexp}
    (h : TakenFrom source (.list range elems)) :
    elems.Pairwise fun s s' => s.range.stop ≤ s'.range.start := by
  refine pairwise_of_ordered (fun s hs => h.elem hs) ?_
  refine List.Pairwise.sublist ?_ h.ordered
  rw [Sexp.tokens, tokensAll_eq_flatMap]
  exact (List.infix_append _ _ _).sublist

theorem readAll_pairwise (h : readAll source = .ok ss) :
    ss.Pairwise fun s s' => s.range.stop ≤ s'.range.start := by
  refine pairwise_of_ordered (fun s hs => takenFrom_of_readAll h hs) ?_
  rw [readAll_tokens h]
  exact (Token.scan_isSequence source).ordered

theorem TakenFrom.isCut {n : Nat} (h : TakenFrom source s) (hcovers : Covers s i (i + n)) :
    IsCut source i n := by
  obtain ⟨t, ht, hstart⟩ := hcovers.first
  obtain ⟨t', ht', hstop⟩ := hcovers.last
  have hfirst := h.occursIn t ht
  have hlast := h.occursIn t' ht'
  refine ⟨hstop ▸ hlast.stop_le_length, hstart ▸ hfirst.not_commentReaches, ?_, ?_⟩
  · intro k hk
    rw [← hstart] at hk ⊢
    exact hfirst.bounded_start hk
  · intro k hk
    rw [← hstop] at hk ⊢
    exact hlast.bounded_stop hk

theorem TakenFrom.scan_slice {n : Nat} (h : TakenFrom source s) (hcovers : Covers s i (i + n)) :
    (Token.scan ((source.drop i).take n)).map (Token.shift i) = s.tokens := by
  obtain ⟨before, after, hscan⟩ := h.tokens
  have hordered := (Token.scan_isSequence source).ordered
  rw [← hscan, Token.Ordered, List.pairwise_append, List.pairwise_append] at hordered
  obtain ⟨⟨-, -, hbefore⟩, -, hafter⟩ := hordered
  obtain ⟨t, ht, hstart⟩ := hcovers.first
  obtain ⟨t', ht', hstop⟩ := hcovers.last
  refine Token.scan_slice (h.isCut hcovers) hscan.symm ?_ ?_ hcovers.within
  · exact fun u hu => hstart ▸ hbefore u hu t ht
  · exact fun u hu => hstop ▸ hafter t' (List.mem_append_right _ ht') u hu

theorem TakenFrom.readAll_slice (h : TakenFrom source s) :
    ∃ s', readAll (s.range.slice source) = .ok [s'] ∧
      s'.relocate (Range.shift (s.range.start - 1)) = s := by
  obtain ⟨i, m, hcovers⟩ := h.covers
  obtain ⟨n, rfl⟩ : ∃ n, m = i + n := by
    obtain ⟨t, ht, rfl⟩ := hcovers.last
    have := (h.occursIn t ht).start_lt_stop
    have := (hcovers.within t ht).1
    exact ⟨t.stop - i, by omega⟩
  have hslice : s.range.slice source = (source.drop i).take n := by
    rw [hcovers.range]
    simp only [Range.slice, Range.ofOffsets]
    congr 2 <;> omega
  have hstart : s.range.start - 1 = (i : Nat) := by
    rw [hcovers.range]
    simp only [Range.ofOffsets]
    omega
  have hfold : ((Token.scan ((source.drop i).take n)).foldlM Reading.step {}).relocate
      (Range.shift i) (Reading.shift i []) = .ok ⟨[s], ⟨[]⟩⟩ := by
    rw [← Reading.foldlM_step_shift, h.scan_slice hcovers]
    exact Reading.foldlM_tokens h.placed {}
  obtain ⟨reading, hreading, hshift⟩ := Except.relocate_eq_ok_iff.mp hfold
  rw [hslice, hstart, readAll, ofTokens, hreading]
  obtain ⟨complete, ⟨pending⟩⟩ := reading
  simp only [Reading.shift, List.append_nil, Reading.mk.injEq, Stack.mk.injEq,
    List.map_eq_nil_iff, List.map_eq_singleton_iff] at hshift
  obtain ⟨⟨s', rfl, hs'⟩, rfl⟩ := hshift
  exact ⟨s', rfl, hs'⟩

end Sexp

end TypedSexp
