import TypedSexp.Proofs.Run.Representation

namespace TypedSexp

namespace Store

variable {s s' : Store} {id i owner : Nat} {name other : Name} {range : Range} {v : Value}

def Inside (s : Store) : Nat → Nat → Prop :=
  Relation.ReflTransGen fun inner outer => s.parent? inner = some outer

def ComesTo (s : Store) (name : Name) : Nat → Nat → Prop :=
  Relation.ReflTransGen fun inner outer =>
    name ∉ Members.names (s.values inner) ∧ s.parent? inner = some outer

def FirstBinding (s : Store) (name : Name) (i owner : Nat) : Prop :=
  s.ComesTo name i owner ∧ name ∈ Members.names (s.values owner)

theorem comesTo_iff :
    s.ComesTo name i id ↔ i = id ∨
      ∃ outer, (name ∉ Members.names (s.values i) ∧ s.parent? i = some outer) ∧
        s.ComesTo name outer id := by
  rw [ComesTo, Relation.ReflTransGen.cases_head_iff]

theorem ComesTo.inside (h : s.ComesTo name i id) : s.Inside i id :=
  Relation.ReflTransGen.mono (fun _ _ hstep => hstep.2) _ _ h

theorem Search.eq_some_iff {result : Option Nat} (h : s.Search name i result) :
    result = some owner ↔ s.FirstBinding name i owner := by
  induction h with
  | @found i scope hscope hname =>
      have hbound : name ∈ Members.names (s.values i) := by simpa [values, hscope] using hname
      constructor
      · rintro ⟨rfl⟩
        exact ⟨.refl, hbound⟩
      · rintro ⟨hcomes, -⟩
        rcases comesTo_iff.mp hcomes with rfl | ⟨outer, ⟨hunbound, -⟩, -⟩
        · rfl
        · exact absurd hbound hunbound
  | @missing i scope hscope hname hparent =>
      have hunbound : name ∉ Members.names (s.values i) := by
        simpa [values, hscope] using hname
      have hroot : s.parent? i = none := by simp [parent?, hscope, hparent]
      refine iff_of_false (by simp) ?_
      rintro ⟨hcomes, hbound⟩
      rcases comesTo_iff.mp hcomes with rfl | ⟨outer, ⟨-, houter⟩, -⟩
      · exact hunbound hbound
      · cases hroot.symm.trans houter
  | @outwards i outer scope result hscope hname hparent _ ih =>
      have hunbound : name ∉ Members.names (s.values i) := by
        simpa [values, hscope] using hname
      have houter : s.parent? i = some outer := by simp [parent?, hscope, hparent]
      rw [ih]
      constructor
      · rintro ⟨hcomes, hbound⟩
        exact ⟨comesTo_iff.mpr (.inr ⟨outer, ⟨hunbound, houter⟩, hcomes⟩), hbound⟩
      · rintro ⟨hcomes, hbound⟩
        rcases comesTo_iff.mp hcomes with rfl | ⟨outer', ⟨-, houter'⟩, hcomes'⟩
        · exact absurd hbound hunbound
        · obtain rfl : outer = outer' := Option.some.inj (houter.symm.trans houter')
          exact ⟨hcomes', hbound⟩

theorem Search.eq_none_iff {result : Option Nat} (h : s.Search name i result) :
    result = none ↔ ∀ outer, s.Inside i outer → name ∉ Members.names (s.values outer) := by
  constructor
  · rintro rfl outer hinside hbound
    induction hinside using Relation.ReflTransGen.head_induction_on with
    | refl =>
        have hfirst := h.eq_some_iff.mpr ⟨.refl, hbound⟩
        cases hfirst
    | @head i next hparent _ ih =>
        cases h with
        | missing hscope _ hroot => simp [parent?, hscope, hroot] at hparent
        | outwards hscope _ hnext hsearch =>
            obtain rfl : _ = next := by simpa [parent?, hscope, hnext] using hparent
            exact ih hsearch
  · intro hunbound
    cases result with
    | none => rfl
    | some owner =>
        obtain ⟨hcomes, hbound⟩ := h.eq_some_iff.mp rfl
        exact absurd hbound (hunbound owner hcomes.inside)

theorem define_eq_error_iff {d : Diagnostic} :
    s.define id range name v = .error d ↔
      d = ⟨range, .redefinition name⟩ ∧ name ∈ Members.names (s.values id) := by
  rw [← owns_iff, define]
  split
  case isTrue howns => simp [howns, eq_comm]
  case isFalse howns => simp [howns]

theorem update_eq_error_iff {d : Diagnostic} :
    s.update id name v = .error d ↔
      d = ⟨Range.none, .unboundVariable name .runtime⟩ ∧ s.owner? name id = none := by
  rw [update]
  split
  case h_1 owner howner => simp [howner]
  case h_2 howner => simp [howner, eq_comm]

theorem not_mem_names_of_define (h : s.define id range name v = .ok s') :
    name ∉ Members.names (s.values id) := by
  rw [← owns_iff, (define_ok h).1]
  exact Bool.false_ne_true

section define

variable (hs : s.Linked) (hid : id < s.size) (h : s.define id range name v = .ok s')

include hs hid h

theorem owner?_define_of_comesTo (hcomes : s.ComesTo name i id) :
    s'.owner? name i = some id := by
  induction hcomes using Relation.ReflTransGen.head_induction_on with
  | refl => exact owner?_of_owns (by simp [owns_define hid h])
  | @head i outer hstep _ ih =>
      obtain ⟨hunbound, houter⟩ := hstep
      by_cases hi : i = id
      · subst hi
        exact owner?_of_owns (by simp [owns_define hid h])
      · have howns : s'.owns i name = false := by
          rw [owns_define hid h, Bool.eq_false_iff]
          simpa [hi, owns_iff] using hunbound
        rw [owner?, howns, parent?_define h, houter]
        simp only [Bool.false_eq_true, if_false, hs.parent houter, if_true, ih]

theorem owner?_define_of_not_comesTo (hcomes : ¬s.ComesTo name i id) :
    s'.owner? name i = s.owner? name i := by
  induction i using Nat.strongRecOn with
  | ind i ih =>
      have hi : i ≠ id := fun heq => hcomes (comesTo_iff.mpr (.inl heq))
      have howns : s'.owns i name = s.owns i name := by simp [owns_define hid h, hi]
      rw [owner?.eq_def s', owner?.eq_def s, howns, parent?_define h]
      split
      · rfl
      case isFalse hunowned =>
        cases houter : s.parent? i with
        | none => rfl
        | some outer =>
            have hlt := hs.parent houter
            have hunbound : name ∉ Members.names (s.values i) := by rwa [← owns_iff]
            have houtside : ¬s.ComesTo name outer id := fun hcomes' =>
              hcomes (comesTo_iff.mpr (.inr ⟨outer, ⟨hunbound, houter⟩, hcomes'⟩))
            simp only [hlt, if_true, ih outer hlt houtside]

theorem lookup?_define_of_comesTo (hcomes : s.ComesTo name i id) :
    s'.lookup? i name = some v := by
  rw [lookup?_eq (owner?_define_of_comesTo hs hid h hcomes), lookup_define hid h]
  simp

theorem lookup?_define_of_not (hnot : ¬(other = name ∧ s.ComesTo name i id)) :
    s'.lookup? i other = s.lookup? i other := by
  have howner : s'.owner? other i = s.owner? other i := by
    by_cases hother : other = name
    · subst hother
      exact owner?_define_of_not_comesTo hs hid h fun hcomes => hnot ⟨rfl, hcomes⟩
    · exact owner?_define_of_ne hid h hother i
  cases hfound : s.owner? other i with
  | none => simp [lookup?, howner, hfound]
  | some owner =>
      rw [lookup?_eq (howner.trans hfound), lookup?_eq hfound, lookup_define hid h]
      refine if_neg ?_
      rintro ⟨rfl, rfl⟩
      have howns := (define_ok h).1
      rw [owner?_owns hfound] at howns
      cases howns

end define

section update

theorem lookup?_update_of_eq (h : s.update id name v = .ok s')
    (heq : s.owner? name i = s.owner? name id) : s'.lookup? i name = some v := by
  obtain ⟨owner, howner, rfl⟩ := update_ok h
  have howns := owner?_owns howner
  have hfound := (owner?_set (v := v) howns i name).trans (heq.trans howner)
  rw [lookup?_eq hfound, lookup_set howns]
  simp

theorem lookup?_update_of_not (h : s.update id name v = .ok s')
    (hnot : ¬(other = name ∧ s.owner? name i = s.owner? name id)) :
    s'.lookup? i other = s.lookup? i other := by
  obtain ⟨owner, howner, rfl⟩ := update_ok h
  have howns := owner?_owns howner
  have hsame := owner?_set (v := v) howns i other
  cases hfound : s.owner? other i with
  | none => simp [lookup?, hsame, hfound]
  | some found =>
      rw [lookup?_eq (hsame.trans hfound), lookup?_eq hfound, lookup_set howns]
      refine if_neg ?_
      rintro ⟨rfl, rfl⟩
      exact hnot ⟨rfl, hfound.trans howner.symm⟩

end update

end Store

theorem Usage.lookup_after_write {u : Usage} (hu : u.Reachable) {h h' : Nat}
    (hh : h < u.store.size) (hh' : h' < u.store.size) (range : Range) (n m : Name) (v : Value) :
    Run.Ensures (Run.change (·.define h range n v)) u.store
      (fun _ s' =>
        n ∉ Members.names (u.store.values h) ∧
        (m = n ∧ u.store.ComesTo n h' h → s'.lookup? h' m = some v) ∧
        (¬(m = n ∧ u.store.ComesTo n h' h) → s'.lookup? h' m = u.store.lookup? h' m))
      (fun halt s' =>
        n ∈ Members.names (u.store.values h) ∧ halt = .fault ⟨range, .redefinition n⟩ ∧
        s'.lookup? h' m = u.store.lookup? h' m) ∧
    Run.Ensures (Run.change (·.update h n v)) u.store
      (fun _ s' =>
        (∃ outer, u.store.Inside h outer ∧ n ∈ Members.names (u.store.values outer)) ∧
        (m = n ∧ (∃ owner, u.store.FirstBinding n h owner ∧ u.store.FirstBinding n h' owner) →
          s'.lookup? h' m = some v) ∧
        (¬(m = n ∧ ∃ owner, u.store.FirstBinding n h owner ∧ u.store.FirstBinding n h' owner) →
          s'.lookup? h' m = u.store.lookup? h' m))
      (fun halt s' =>
        (∀ outer, u.store.Inside h outer → n ∉ Members.names (u.store.values outer)) ∧
        halt = .fault ⟨Range.none, .unboundVariable n .runtime⟩ ∧
        s'.lookup? h' m = u.store.lookup? h' m) := by
  have hlinked := hu.layout.1.linked
  have hsearch := hlinked.search hh n
  have hsearch' := hlinked.search hh' n
  have hshared : (∃ owner, u.store.FirstBinding n h owner ∧ u.store.FirstBinding n h' owner) ↔
      ∃ owner, u.store.owner? n h = some owner ∧ u.store.owner? n h' = some owner := by
    simp only [hsearch.eq_some_iff, hsearch'.eq_some_iff]
  rw [Run.ensures_change, Run.ensures_change]
  constructor
  · cases hdefine : u.store.define h range n v with
    | error d =>
        obtain ⟨rfl, hbound⟩ := Store.define_eq_error_iff.mp hdefine
        exact ⟨hbound, rfl, rfl⟩
    | ok s' =>
        refine ⟨Store.not_mem_names_of_define hdefine, ?_, ?_⟩
        · rintro ⟨rfl, hcomes⟩
          exact Store.lookup?_define_of_comesTo hlinked hh hdefine hcomes
        · intro hnot
          exact Store.lookup?_define_of_not hlinked hh hdefine hnot
  · cases hupdate : u.store.update h n v with
    | error d =>
        obtain ⟨rfl, hnone⟩ := Store.update_eq_error_iff.mp hupdate
        exact ⟨hsearch.eq_none_iff.mp hnone, rfl, rfl⟩
    | ok s' =>
        obtain ⟨owner, howner, -⟩ := Store.update_ok hupdate
        obtain ⟨hcomes, hbound⟩ := hsearch.eq_some_iff.mp howner
        refine ⟨⟨owner, hcomes.inside, hbound⟩, ?_, ?_⟩
        · rintro ⟨rfl, hfirst⟩
          obtain ⟨owner', hfound, hfound'⟩ := hshared.mp hfirst
          exact Store.lookup?_update_of_eq hupdate (hfound'.trans hfound.symm)
        · intro hnot
          refine Store.lookup?_update_of_not hupdate ?_
          rintro ⟨rfl, heq⟩
          exact hnot ⟨rfl, hshared.mpr ⟨owner, howner, heq.trans howner⟩⟩

theorem Usage.lookup_after_write_shadowed :
    ∃ u : Usage, u.Reachable ∧ 1 < u.store.size ∧ 3 < u.store.size ∧
      u.store.Inside 3 1 ∧ ¬u.store.ComesTo (utf8 "x") 3 1 ∧
      ∃ s', u.store.define 1 Range.none (utf8 "x") (.bool true) = .ok s' ∧
        s'.lookup? 3 (utf8 "x") = some (.num 5) := by
  let u₁ : Usage := ⟨Store.initial, [.num 5], initial.entries⟩
  let u₂ : Usage := ⟨(Store.initial.newScope (some 1) [(utf8 "x", .num 5)]).2, [.num 5],
    initial.entries ++ [(2, utf8 "x")]⟩
  let u₃ : Usage := ⟨(u₂.store.newScope (some 2) []).2, u₂.values, u₂.entries⟩
  have hevaluate : Step initial u₁ :=
    @Step.evaluate initial 1 1 (.num Range.none 5) (.ok (.num 5)) Store.initial (by decide) rfl
  have hextend : Step u₁ u₂ := .extend (by decide) List.mem_cons_self
  have hchild : Step u₂ u₃ := .child (by decide)
  have hreachable : u₃.Reachable := .inr (((Relation.ReflTransGen.single hevaluate).tail
    hextend).tail hchild)
  have hinner : u₃.store.parent? 3 = some 2 := rfl
  have houter : u₃.store.parent? 2 = some 1 := rfl
  have hinside : u₃.store.Inside 3 1 := Relation.ReflTransGen.head hinner (.single houter)
  have hshadowed : ¬u₃.store.ComesTo (utf8 "x") 3 1 := by
    intro hcomes
    rcases Store.comesTo_iff.mp hcomes with heq | ⟨outer, ⟨-, hnext⟩, hcomes⟩
    · simp at heq
    · obtain rfl : 2 = outer := Option.some.inj (hinner.symm.trans hnext)
      rcases Store.comesTo_iff.mp hcomes with heq | ⟨-, ⟨hunbound, -⟩, -⟩
      · simp at heq
      · exact hunbound (by decide)
  have hwrite := (@lookup_after_write u₃ hreachable 1 3 (by decide) (by decide) Range.none
    (utf8 "x") (utf8 "x") (.bool true)).1
  rw [Run.ensures_change] at hwrite
  refine ⟨u₃, hreachable, by decide, by decide, hinside, hshadowed, _, rfl, ?_⟩
  exact (hwrite.of_ok rfl).2.2 (fun hsame => hshadowed hsame.2)

end TypedSexp
