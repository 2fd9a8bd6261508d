import TypedSexp.Proofs.Ensures
import TypedSexp.Proofs.Sexp.Slices

namespace Except

variable {ε α β : Type}

theorem mapM_eq_ok_iff {f : α → Except ε β} {as : List α} {bs : List β} :
    as.mapM f = .ok bs ↔ ∃ pairs : List (α × β), pairs.map Prod.fst = as ∧
      pairs.map Prod.snd = bs ∧ ∀ pair ∈ pairs, f pair.1 = .ok pair.2 := by
  induction as generalizing bs with
  | nil => simp [pure_eq_ok_iff]
  | cons a rest ih =>
      simp only [List.mapM_cons, bind_eq_ok_iff, pure_eq_ok_iff, ih]
      constructor
      · rintro ⟨b, hb, bs, ⟨pairs, rfl, rfl, hpairs⟩, rfl⟩
        exact ⟨(a, b) :: pairs, rfl, rfl, List.forall_mem_cons.mpr ⟨hb, hpairs⟩⟩
      · rintro ⟨pairs, hfst, rfl, hpairs⟩
        obtain ⟨⟨_, b⟩, pairs, rfl, rfl, rfl⟩ := List.map_eq_cons_iff.mp hfst
        obtain ⟨hb, hpairs⟩ := List.forall_mem_cons.mp hpairs
        exact ⟨b, hb, _, ⟨pairs, rfl, rfl, hpairs⟩, rfl⟩

end Except

namespace TypedSexp.Sexp

@[elab_as_elim]
theorem induct_parts {motive : Sexp → Prop}
    (step : ∀ s, (∀ e ∈ s.elems, ∀ part, PartOf part e → motive part) → motive s) (s : Sexp) :
    motive s := by
  have hparts : ∀ part, PartOf part s → motive part := by
    induction s using Sexp.induct with
    | atom range text =>
        intro part hpart
        cases hpart
        exact step _ (by simp [elems])
    | list range elems ih =>
        intro part hpart
        cases hpart with
        | self => exact step _ ih
        | inside hmem hpart => exact ih _ hmem part hpart
  exact hparts s .self

structure Entry where
  pair : Range
  place : Range
  name : Name
  part : Sexp

namespace Entry

def flat (entry : Entry) : List Sexp := [.atom entry.place entry.name, entry.part]

def paired (entry : Entry) : Sexp := .list entry.pair entry.flat

def flatAll (entries : List Entry) : List Sexp := entries.flatMap flat

theorem length_flatAll (entries : List Entry) : (flatAll entries).length = 2 * entries.length := by
  induction entries with
  | nil => rfl
  | cons entry rest ih =>
      simp only [flatAll, List.flatMap_cons, List.length_append, List.length_cons] at ih ⊢
      simp only [flat, List.length_cons, List.length_nil]
      omega

theorem part_mem_flatAll {entries : List Entry} {entry : Entry} (h : entry ∈ entries) :
    entry.part ∈ flatAll entries :=
  List.mem_flatMap.mpr ⟨entry, h, by simp [flat]⟩

end Entry

variable {α : Type}

def Entry.binding (entry : Entry × α) : Name × α := (entry.1.name, entry.2)

structure AreRead (read : Sexp → Except Diagnostic α) (seen : List Name)
    (entries : List (Entry × α)) : Prop where
  nodup : (Members.names (entries.map Entry.binding)).Nodup
  fresh : ∀ name ∈ Members.names (entries.map Entry.binding), name ∉ seen
  read : ∀ entry ∈ entries, read entry.1.part = .ok entry.2

theorem AreRead.nil (read : Sexp → Except Diagnostic α) (seen : List Name) :
    AreRead read seen [] :=
  ⟨by simp [Members.names], by simp [Members.names], by simp⟩

theorem areRead_cons_iff {read : Sexp → Except Diagnostic α} {seen : List Name}
    {entry : Entry × α} {entries : List (Entry × α)} :
    AreRead read seen (entry :: entries) ↔ entry.1.name ∉ seen ∧
      read entry.1.part = .ok entry.2 ∧ AreRead read (entry.1.name :: seen) entries := by
  constructor
  · rintro ⟨hnodup, hfresh, hread⟩
    obtain ⟨hname, hnodup⟩ := List.nodup_cons.mp hnodup
    obtain ⟨hseen, hfresh⟩ := List.forall_mem_cons.mp hfresh
    obtain ⟨hpart, hread⟩ := List.forall_mem_cons.mp hread
    refine ⟨hseen, hpart, hnodup, ?_, hread⟩
    intro name hmem hname'
    rcases List.mem_cons.mp hname' with rfl | hmem'
    · exact hname hmem
    · exact hfresh name hmem hmem'
  · rintro ⟨hseen, hpart, hnodup, hfresh, hread⟩
    refine ⟨List.nodup_cons.mpr ⟨?_, hnodup⟩, List.forall_mem_cons.mpr ⟨hseen, ?_⟩,
      List.forall_mem_cons.mpr ⟨hpart, hread⟩⟩
    · exact fun hmem => hfresh _ hmem List.mem_cons_self
    · exact fun name hmem hmem' => hfresh name hmem (List.mem_cons_of_mem _ hmem')

def readEntries (nameOf : List Name → Sexp → Except Diagnostic Name)
    (read : Sexp → Except Diagnostic α) (seen : List Name) :
    List Sexp → Except Diagnostic (List (Name × α))
  | name :: part :: rest => do
      let name ← nameOf seen name
      let a ← read part
      return (name, a) :: (← readEntries nameOf read (name :: seen) rest)
  | _ => .ok []

theorem eq_readEntries {nameOf : List Name → Sexp → Except Diagnostic Name}
    {read : Sexp → Except Diagnostic α}
    {f : List Name → List Sexp → Except Diagnostic (List (Name × α))}
    (hnil : ∀ seen, f seen [] = .ok []) (hone : ∀ seen s, f seen [s] = .ok [])
    (hcons : ∀ seen name part rest, f seen (name :: part :: rest) = do
      let name ← nameOf seen name
      let a ← read part
      return (name, a) :: (← f (name :: seen) rest)) (seen : List Name) (ss : List Sexp) :
    f seen ss = readEntries nameOf read seen ss := by
  fun_induction readEntries nameOf read seen ss with
  | case1 seen name part rest ih => simp only [hcons, ih]
  | case2 ss seen hshort =>
      rcases ss with _ | ⟨name, _ | ⟨part, rest⟩⟩
      · exact hnil seen
      · exact hone seen name
      · exact absurd rfl (hshort name part rest)

def TakesNewAtoms (nameOf : List Name → Sexp → Except Diagnostic Name) : Prop :=
  ∀ seen s name, nameOf seen s = .ok name ↔ (∃ r, s = .atom r name) ∧ name ∉ seen

section

variable {nameOf : List Name → Sexp → Except Diagnostic Name}
  {read : Sexp → Except Diagnostic α}

theorem eq_flatAll_of_readEntries (hname : TakesNewAtoms nameOf) {seen : List Name}
    {ss : List Sexp} {members : List (Name × α)} (heven : ss.length % 2 = 0)
    (h : readEntries nameOf read seen ss = .ok members) :
    ∃ entries, ss = Entry.flatAll entries := by
  match ss with
  | [] => exact ⟨[], rfl⟩
  | [_] => simp at heven
  | first :: part :: rest =>
      simp only [readEntries, Except.bind_eq_ok_iff] at h
      obtain ⟨name, hfirst, a, -, members, hrest, -⟩ := h
      obtain ⟨⟨r, rfl⟩, -⟩ := (hname _ _ _).mp hfirst
      have heven' : rest.length % 2 = 0 := by
        simp only [List.length_cons] at heven
        omega
      obtain ⟨entries, rfl⟩ := eq_flatAll_of_readEntries hname heven' hrest
      exact ⟨⟨Range.none, r, name, part⟩ :: entries, rfl⟩

theorem readEntries_flatAll_iff (hname : TakesNewAtoms nameOf) {seen : List Name}
    {entries : List Entry} {members : List (Name × α)} :
    readEntries nameOf read seen (Entry.flatAll entries) = .ok members ↔
      ∃ pairs : List (Entry × α), pairs.map Prod.fst = entries ∧
        pairs.map Entry.binding = members ∧ AreRead read seen pairs := by
  induction entries generalizing seen members with
  | nil =>
      simp only [Entry.flatAll, List.flatMap_nil, readEntries, Except.ok.injEq,
        List.map_eq_nil_iff]
      constructor
      · rintro rfl
        exact ⟨[], rfl, rfl, .nil read seen⟩
      · rintro ⟨pairs, rfl, rfl, -⟩
        rfl
  | cons entry rest ih =>
      have hflat : Entry.flatAll (entry :: rest) =
          .atom entry.place entry.name :: entry.part :: Entry.flatAll rest := rfl
      simp only [hflat, readEntries, Except.bind_eq_ok_iff, Except.pure_eq_ok_iff, hname _ _ _, ih]
      constructor
      · rintro ⟨name, ⟨⟨r, hr⟩, hseen⟩, a, ha, _, ⟨pairs, rfl, rfl, hpairs⟩, rfl⟩
        cases hr
        exact ⟨(entry, a) :: pairs, rfl, rfl, areRead_cons_iff.mpr ⟨hseen, ha, hpairs⟩⟩
      · rintro ⟨pairs, hfst, rfl, hpairs⟩
        obtain ⟨⟨_, a⟩, pairs, rfl, rfl, rfl⟩ := List.map_eq_cons_iff.mp hfst
        obtain ⟨hseen, ha, hpairs⟩ := areRead_cons_iff.mp hpairs
        exact ⟨_, ⟨⟨_, rfl⟩, hseen⟩, a, ha, _, ⟨pairs, rfl, rfl, hpairs⟩, rfl⟩

end

end TypedSexp.Sexp
