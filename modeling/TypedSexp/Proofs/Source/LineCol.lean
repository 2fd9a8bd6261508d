import Mathlib.Data.List.Induction
import TypedSexp.Source.Range

namespace TypedSexp.LineCol

def next (here : LineCol) (c : UInt8) : LineCol :=
  if c = Byte.newline then ⟨here.line + 1, 1⟩ else ⟨here.line, here.column + 1⟩

theorem advance_eq_foldl (here : LineCol) (t : Text) : advance here t = t.foldl next here := by
  induction t generalizing here with
  | nil => rfl
  | cons c rest ih =>
      rw [List.foldl_cons, ← ih, advance, next]
      split <;> rfl

theorem advance_append (here : LineCol) (before after : Text) :
    advance here (before ++ after) = advance (advance here before) after := by
  simp only [advance_eq_foldl, List.foldl_append]

theorem advance_concat (here : LineCol) (t : Text) (c : UInt8) :
    advance here (t ++ [c]) = (advance here t).next c := by
  simp only [advance_eq_foldl, List.foldl_append, List.foldl_cons, List.foldl_nil]

def Before (here there : LineCol) : Prop :=
  here.line < there.line ∨ here.line = there.line ∧ here.column < there.column

theorem Before.trans {a b c : LineCol} (h : a.Before b) (h' : b.Before c) : a.Before c := by
  unfold Before at *
  omega

theorem before_next (here : LineCol) (c : UInt8) : here.Before (here.next c) := by
  unfold next
  split
  · exact .inl (Nat.lt_succ_self here.line)
  · exact .inr ⟨rfl, Nat.lt_succ_self here.column⟩

theorem before_advance (here : LineCol) {t : Text} (h : t ≠ []) : here.Before (advance here t) := by
  induction t using List.reverseRecOn with
  | nil => exact absurd rfl h
  | append_singleton t c ih =>
      rw [advance_concat]
      by_cases ht : t = []
      · subst ht
        exact before_next here c
      · exact (ih ht).trans (before_next _ c)

structure IsAfter (here : LineCol) (before : Text) : Prop where
  line_pos : 1 ≤ here.line
  column_pos : 1 ≤ here.column
  newlines : here.line - 1 = before.count Byte.newline
  own : ∃ earlier own, before = earlier ++ own ∧ own.length = here.column - 1 ∧
    Byte.newline ∉ own ∧ (earlier = [] ∨ earlier.getLast? = some Byte.newline)

theorem IsAfter.next {here : LineCol} {before : Text} (h : here.IsAfter before) (c : UInt8) :
    (here.next c).IsAfter (before ++ [c]) := by
  obtain ⟨earlier, own, hbefore, hlength, hown, hearlier⟩ := h.own
  have hline := h.line_pos
  have hcolumn := h.column_pos
  have hnewlines := h.newlines
  by_cases hc : c = Byte.newline
  · subst hc
    have hnext : here.next Byte.newline = ⟨here.line + 1, 1⟩ := if_pos rfl
    have hcount : (before ++ [Byte.newline]).count Byte.newline = here.line := by
      rw [List.count_append, ← hnewlines, List.count_singleton_self, Nat.sub_add_cancel hline]
    rw [hnext]
    refine ⟨Nat.le_add_left 1 here.line, Nat.le_refl 1, hcount.symm, before ++ [Byte.newline], [],
      ?_, rfl, List.not_mem_nil, .inr List.getLast?_concat⟩
    rw [List.append_nil]
  · have hnext : here.next c = ⟨here.line, here.column + 1⟩ := if_neg hc
    have hcount : (before ++ [c]).count Byte.newline = here.line - 1 := by
      rw [List.count_append, ← hnewlines, List.count_singleton, if_neg (by simpa using hc)]
      rfl
    have hconcat : (own ++ [c]).length = here.column := by
      rw [List.length_append, hlength, List.length_singleton, Nat.sub_add_cancel hcolumn]
    rw [hnext]
    refine ⟨hline, Nat.le_add_left 1 here.column, hcount.symm, earlier, own ++ [c], ?_, hconcat, ?_,
      hearlier⟩
    · rw [hbefore, List.append_assoc]
    · simp [hown, Ne.symm hc]

theorem isAfter_advance (before : Text) : (advance ⟨1, 1⟩ before).IsAfter before := by
  induction before using List.reverseRecOn with
  | nil => exact ⟨Nat.le_refl 1, Nat.le_refl 1, rfl, [], [], rfl, rfl, by simp, .inl rfl⟩
  | append_singleton before c ih =>
      rw [advance_concat]
      exact ih.next c

def lineStart : Nat → Text → Nat
  | 0, _ => 0
  | _ + 1, [] => 0
  | line + 1, c :: rest => 1 + lineStart (if c = Byte.newline then line else line + 1) rest

theorem lineStart_append {before : Text}
    (h : before = [] ∨ before.getLast? = some Byte.newline) (rest : Text) :
    lineStart (before.count Byte.newline) (before ++ rest) = before.length := by
  induction before with
  | nil => simp [lineStart]
  | cons c before ih =>
      have hbefore : before = [] ∨ before.getLast? = some Byte.newline := by
        cases before with
        | nil => exact .inl rfl
        | cons => simpa [List.getLast?_cons_cons] using h
      have ih := ih hbefore
      by_cases hc : c = Byte.newline
      · subst hc
        simp only [List.count_cons_self, List.cons_append, lineStart, if_true, ih,
          List.length_cons]
        omega
      · -- The newline that ends the text stands further on.
        have hmem : Byte.newline ∈ before := by
          rcases hbefore with rfl | hlast
          · exact absurd (by simpa using h) hc
          · exact List.mem_of_getLast? hlast
        obtain ⟨line, hline⟩ := Nat.exists_eq_succ_of_ne_zero
          (Nat.pos_iff_ne_zero.mp (List.count_pos_iff.mpr hmem))
        rw [hline] at ih
        rw [List.count_cons_of_ne hc, hline, List.cons_append, lineStart, if_neg hc, ih,
          List.length_cons]
        omega

def toPosition (source : Text) (here : LineCol) : Int :=
  lineStart (here.line - 1) source + here.column

theorem IsAfter.toPosition_eq {here : LineCol} {before : Text} (h : here.IsAfter before)
    (rest : Text) : here.toPosition (before ++ rest) = before.length + 1 := by
  obtain ⟨earlier, own, rfl, hlength, hown, hearlier⟩ := h.own
  have hcount : here.line - 1 = earlier.count Byte.newline := by
    rw [h.newlines, List.count_append, List.count_eq_zero_of_not_mem hown, Nat.add_zero]
  have hcolumn := h.column_pos
  rw [toPosition, hcount, List.append_assoc, lineStart_append hearlier, List.length_append]
  omega

theorem ofPosition?_eq_none_iff {source : Text} {position : Int} :
    ofPosition? source position = none ↔ position < 1 ∨ source.length + 1 < position := by
  unfold ofPosition?
  split
  · simp only [reduceCtorEq, false_iff]
    omega
  · simp only [true_iff]
    omega

theorem ofPosition?_eq_some {source : Text} {position : Int} {here : LineCol}
    (h : ofPosition? source position = some here) :
    (1 ≤ position ∧ position ≤ source.length + 1) ∧
      here = advance ⟨1, 1⟩ (source.take (position - 1).toNat) := by
  unfold ofPosition? at h
  split at h
  case isTrue hbounds => exact ⟨hbounds, (Option.some.inj h).symm⟩
  case isFalse => cases h

theorem toPosition_of_ofPosition? {source : Text} {position : Int} {here : LineCol}
    (h : ofPosition? source position = some here) : here.toPosition source = position := by
  obtain ⟨hbounds, rfl⟩ := ofPosition?_eq_some h
  have hposition := (isAfter_advance (source.take (position - 1).toNat)).toPosition_eq
    (source.drop (position - 1).toNat)
  rw [List.take_append_drop, List.length_take] at hposition
  omega

theorem before_of_lt {source : Text} {position other : Int} {here there : LineCol}
    (h : ofPosition? source position = some here) (h' : ofPosition? source other = some there)
    (hlt : position < other) : here.Before there := by
  obtain ⟨hbounds, rfl⟩ := ofPosition?_eq_some h
  obtain ⟨hbounds', rfl⟩ := ofPosition?_eq_some h'
  obtain ⟨between, hbetween⟩ := Int.eq_ofNat_of_zero_le (Int.sub_nonneg_of_le (Int.le_of_lt hlt))
  have hoffset : (other - 1).toNat = (position - 1).toNat + between := by omega
  rw [hoffset, List.take_add, advance_append]
  refine before_advance _ fun hnil => ?_
  have hlength := congrArg List.length hnil
  simp only [List.length_take, List.length_drop, List.length_nil] at hlength
  omega

theorem place_tells_position (source : Text) :
    (∀ position : Int, 1 ≤ position → position ≤ source.length + 1 →
      ∃ here, ofPosition? source position = some here ∧
        here.IsAfter (source.take (position - 1).toNat) ∧ here.toPosition source = position) ∧
    (∀ position other here there, ofPosition? source position = some here →
      ofPosition? source other = some there →
      (here = there ↔ position = other) ∧ (position < other → here.Before there)) ∧
    ∀ position : Int, position = 0 ∨ source.length + 1 < position →
      ofPosition? source position = none := by
  refine ⟨fun position hpos hle => ?_, fun position other here there h h' => ⟨?_, ?_⟩,
    fun position hposition => ofPosition?_eq_none_iff.mpr (by omega)⟩
  · have hsome : ofPosition? source position =
        some (advance ⟨1, 1⟩ (source.take (position - 1).toNat)) := if_pos ⟨hpos, hle⟩
    exact ⟨_, hsome, isAfter_advance _, toPosition_of_ofPosition? hsome⟩
  · constructor
    · rintro rfl
      rw [← toPosition_of_ofPosition? h, toPosition_of_ofPosition? h']
    · rintro rfl
      exact Option.some.inj (h.symm.trans h')
  · exact before_of_lt h h'

theorem place_tells_position_across_lines :
    ∃ here there, ofPosition? (utf8 "f\n(g)\n") 3 = some here ∧ here.IsAfter (utf8 "f\n") ∧
      here.toPosition (utf8 "f\n(g)\n") = 3 ∧ ofPosition? (utf8 "f\n(g)\n") 7 = some there ∧
      here.Before there ∧ ofPosition? (utf8 "f\n(g)\n") 8 = none := by
  obtain ⟨hplaces, hpairs, hnone⟩ := place_tells_position (utf8 "f\n(g)\n")
  obtain ⟨here, hhere, hafter, hposition⟩ := hplaces 3 (by decide) (by decide)
  obtain ⟨there, hthere, -, -⟩ := hplaces 7 (by decide) (by decide)
  exact ⟨here, there, hhere, hafter, hposition, hthere,
    (hpairs 3 7 here there hhere hthere).2 (by decide), hnone 8 (.inr (by decide))⟩

end TypedSexp.LineCol
