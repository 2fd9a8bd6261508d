import TypedSexp.Ty.Members

namespace TypedSexp

theorem Name.lt_of_not_lt_of_ne {a b : Name} (h : ¬a < b) (hne : a ≠ b) : b < a := by
  rcases List.le_iff_lt_or_eq.mp (List.not_lt.mp h) with hlt | heq
  · exact hlt
  · exact absurd heq.symm hne

namespace Members

variable {α : Type}

def Ordered (members : List (Name × α)) : Prop :=
  members.Pairwise fun first second => first.1 < second.1

theorem lookup_cons (name key : Name) (a : α) (rest : List (Name × α)) :
    ((key, a) :: rest).lookup name = if name = key then some a else rest.lookup name := by
  by_cases h : name = key
  · simp [h]
  · simp [List.lookup_cons, h, beq_false_of_ne h]

theorem lookup_insert (name other : Name) (a : α) (members : List (Name × α)) :
    (insert name a members).lookup other =
      if other = name then some a else members.lookup other := by
  induction members with
  | nil => simp [insert, lookup_cons]
  | cons member rest ih =>
      obtain ⟨key, b⟩ := member
      simp only [insert]
      split
      · simp [lookup_cons]
      · split <;> grind [lookup_cons]

theorem mem_insert {name : Name} {a : α} {members : List (Name × α)} {entry : Name × α}
    (h : entry ∈ insert name a members) : entry = (name, a) ∨ entry ∈ members := by
  induction members with
  | nil => simpa [insert] using h
  | cons member rest ih =>
      simp only [insert] at h
      grind

theorem ordered_insert {members : List (Name × α)} (name : Name) (a : α)
    (h : Ordered members) : Ordered (insert name a members) := by
  induction members with
  | nil => simp [insert, Ordered]
  | cons member rest ih =>
      obtain ⟨key, b⟩ := member
      obtain ⟨hkey, hrest⟩ := List.pairwise_cons.mp h
      simp only [insert]
      split
      case isTrue hlt =>
        refine List.pairwise_cons.mpr ⟨?_, h⟩
        intro entry hentry
        rcases List.mem_cons.mp hentry with rfl | hmem
        · exact hlt
        · exact List.lt_trans hlt (hkey entry hmem)
      case isFalse hnot =>
        split
        case isTrue heq =>
          subst heq
          exact List.pairwise_cons.mpr ⟨hkey, hrest⟩
        case isFalse hne =>
          refine List.pairwise_cons.mpr ⟨?_, ih hrest⟩
          intro entry hentry
          rcases mem_insert hentry with rfl | hmem
          · exact Name.lt_of_not_lt_of_ne hnot hne
          · exact hkey entry hmem

theorem insert_of_forall_lt {members : List (Name × α)} {name : Name} (a : α)
    (h : ∀ entry ∈ members, entry.1 < name) : insert name a members = members ++ [(name, a)] := by
  induction members with
  | nil => rfl
  | cons member rest ih =>
      obtain ⟨key, b⟩ := member
      have hlt : key < name := h (key, b) (by simp)
      have hne : name ≠ key := by
        intro heq
        exact List.lt_irrefl key (heq ▸ hlt)
      have hnot : ¬name < key := List.lt_asymm hlt
      simp [insert, hnot, hne, ih fun entry hentry => h entry (List.mem_cons_of_mem _ hentry)]

theorem ordered_foldl (entries : List (Name × α)) {members : List (Name × α)}
    (h : Ordered members) :
    Ordered (entries.foldl (fun members entry => insert entry.1 entry.2 members) members) := by
  induction entries generalizing members with
  | nil => exact h
  | cons entry rest ih => exact ih (ordered_insert entry.1 entry.2 h)

theorem ordered_ofList (entries : List (Name × α)) : Ordered (ofList entries) :=
  ordered_foldl entries List.Pairwise.nil

theorem foldl_of_ordered (entries members : List (Name × α)) (h : Ordered (members ++ entries)) :
    entries.foldl (fun members entry => insert entry.1 entry.2 members) members =
      members ++ entries := by
  induction entries generalizing members with
  | nil => simp
  | cons entry rest ih =>
      have hlt : ∀ earlier ∈ members, earlier.1 < entry.1 := fun earlier hmem =>
        (List.pairwise_append.mp h).2.2 earlier hmem entry (by simp)
      have hstep : Ordered ((members ++ [entry]) ++ rest) := by simpa using h
      rw [List.foldl_cons, insert_of_forall_lt entry.2 hlt, ih _ hstep, List.append_assoc]
      rfl

theorem ofList_of_ordered {members : List (Name × α)} (h : Ordered members) :
    ofList members = members := by
  simpa [ofList] using foldl_of_ordered members [] (by simpa using h)

theorem mem_foldl {entries members : List (Name × α)} {entry : Name × α}
    (h : entry ∈ entries.foldl (fun members entry => insert entry.1 entry.2 members) members) :
    entry ∈ members ∨ entry ∈ entries := by
  induction entries generalizing members with
  | nil => exact .inl h
  | cons first rest ih =>
      rcases ih h with hmem | hmem
      · rcases mem_insert hmem with rfl | hmem
        · exact .inr (by simp)
        · exact .inl hmem
      · exact .inr (List.mem_cons_of_mem _ hmem)

theorem mem_of_mem_ofList {entries : List (Name × α)} {entry : Name × α}
    (h : entry ∈ ofList entries) : entry ∈ entries := by
  rcases mem_foldl h with hmem | hmem
  · simp at hmem
  · exact hmem

theorem lookup_foldl {entries : List (Name × α)} (members : List (Name × α))
    (h : (names entries).Nodup) (name : Name) :
    (entries.foldl (fun members entry => insert entry.1 entry.2 members) members).lookup name =
      (entries.lookup name).or (members.lookup name) := by
  induction entries generalizing members with
  | nil => simp
  | cons entry rest ih =>
      obtain ⟨key, a⟩ := entry
      obtain ⟨hkey, hrest⟩ := List.nodup_cons.mp h
      rw [List.foldl_cons, ih _ hrest, lookup_insert]
      by_cases heq : name = key
      · subst heq
        have habsent : rest.lookup name = none := by
          rw [List.lookup_eq_none_iff]
          intro other hmem
          have hne : name ≠ other.1 := by
            rintro rfl
            exact hkey (List.mem_map.mpr ⟨other, hmem, rfl⟩)
          simpa using hne
        simp [habsent]
      · simp [heq, lookup_cons]

theorem lookup_ofList {entries : List (Name × α)} (h : (names entries).Nodup) (name : Name) :
    (ofList entries).lookup name = entries.lookup name := by
  simpa [ofList] using lookup_foldl [] h name

theorem nodup_of_ordered {members : List (Name × α)} (h : Ordered members) :
    (names members).Nodup := by
  rw [names, List.Nodup, List.pairwise_map]
  refine h.imp ?_
  intro first second hlt heq
  exact List.lt_irrefl second.1 (heq ▸ hlt)

theorem mem_of_lookup {members : List (Name × α)} {name : Name} {a : α}
    (h : members.lookup name = some a) : (name, a) ∈ members := by
  induction members with
  | nil => simp at h
  | cons member rest ih => grind

theorem lookup_of_mem {members : List (Name × α)} {name : Name} {a : α}
    (hnodup : (names members).Nodup) (h : (name, a) ∈ members) :
    members.lookup name = some a := by
  induction members with
  | nil => simp at h
  | cons member rest ih =>
      obtain ⟨key, b⟩ := member
      obtain ⟨hkey, hrest⟩ := List.nodup_cons.mp hnodup
      rcases List.mem_cons.mp h with heq | hmem
      · cases heq
        simp
      · have hne : name ≠ key := by
          rintro rfl
          exact hkey (List.mem_map.mpr ⟨_, hmem, rfl⟩)
        rw [lookup_cons, if_neg hne]
        exact ih hrest hmem

theorem mem_names_iff {members : List (Name × α)} {name : Name} :
    name ∈ names members ↔ ∃ a, members.lookup name = some a := by
  induction members with
  | nil => simp [names]
  | cons member rest ih =>
      obtain ⟨key, a⟩ := member
      simp only [names, List.map_cons, List.mem_cons, lookup_cons] at ih ⊢
      split
      case isTrue hkey => simp [hkey]
      case isFalse hkey => simp [hkey, ih]

theorem mem_names_insert {name other : Name} {a : α} {members : List (Name × α)} :
    other ∈ names (insert name a members) ↔ other = name ∨ other ∈ names members := by
  rw [mem_names_iff, mem_names_iff, lookup_insert]
  split <;> simp_all

theorem mem_names_foldl {entries members : List (Name × α)} {name : Name} :
    name ∈ names (entries.foldl (fun members entry => insert entry.1 entry.2 members) members) ↔
      name ∈ names entries ∨ name ∈ names members := by
  induction entries generalizing members with
  | nil => simp [names]
  | cons entry rest ih =>
      rw [List.foldl_cons, ih, mem_names_insert]
      simp only [names, List.map_cons, List.mem_cons, or_left_comm, or_assoc]

theorem mem_names_ofList {entries : List (Name × α)} {name : Name} :
    name ∈ names (ofList entries) ↔ name ∈ names entries := by
  rw [ofList, mem_names_foldl]
  simp [names]

theorem isNone_lookup_iff {members : List (Name × α)} {name : Name} :
    (members.lookup name).isNone = true ↔ name ∉ names members := by
  rw [mem_names_iff, ← Option.isSome_iff_exists, Bool.not_eq_true, Option.isSome_eq_false_iff]

theorem isNone_lookup_ofList (entries : List (Name × α)) (name : Name) :
    ((ofList entries).lookup name).isNone = (entries.lookup name).isNone := by
  rw [Bool.eq_iff_iff, isNone_lookup_iff, isNone_lookup_iff, mem_names_ofList]

theorem missingFrom_eq_nil_iff {members others : List (Name × α)} :
    missingFrom members others = [] ↔ ∀ name ∈ names members, name ∈ names others := by
  simp only [missingFrom, List.filter_eq_nil_iff, isNone_lookup_iff, mem_names_ofList,
    Classical.not_not]

section map

variable {β : Type} (f : α → β)

theorem lookup_map (members : List (Name × α)) (name : Name) :
    (members.map fun member => (member.1, f member.2)).lookup name =
      (members.lookup name).map f := by
  induction members with
  | nil => rfl
  | cons member rest ih =>
      obtain ⟨key, a⟩ := member
      simp only [List.map_cons, lookup_cons, ih]
      split <;> rfl

theorem insert_map (name : Name) (a : α) (members : List (Name × α)) :
    insert name (f a) (members.map fun member => (member.1, f member.2)) =
      (insert name a members).map fun member => (member.1, f member.2) := by
  induction members with
  | nil => rfl
  | cons member rest ih =>
      simp only [List.map_cons, insert, ih]
      split
      · rfl
      · split <;> rfl

theorem ofList_map (entries : List (Name × α)) :
    ofList (entries.map fun entry => (entry.1, f entry.2)) =
      (ofList entries).map fun entry => (entry.1, f entry.2) := by
  have hfoldl (entries members : List (Name × α)) :
      (entries.map fun entry => (entry.1, f entry.2)).foldl
          (fun members entry => insert entry.1 entry.2 members)
          (members.map fun entry => (entry.1, f entry.2)) =
        (entries.foldl (fun members entry => insert entry.1 entry.2 members) members).map
          fun entry => (entry.1, f entry.2) := by
    induction entries generalizing members with
    | nil => rfl
    | cons entry rest ih =>
        simp only [List.map_cons, List.foldl_cons, insert_map]
        exact ih _
  exact hfoldl entries []

theorem names_map (members : List (Name × α)) :
    names (members.map fun member => (member.1, f member.2)) = names members := by
  simp [names, Function.comp_def]

theorem listed_map (listing : List Name) (members : List (Name × α)) :
    listed listing (members.map fun member => (member.1, f member.2)) =
      (listed listing members).map fun member => (member.1, f member.2) := by
  simp only [listed, List.map_filterMap, lookup_map, Option.map_map, Function.comp_def]

end map

theorem mem_listed {listing : List Name} {members : List (Name × α)} {entry : Name × α} :
    entry ∈ listed listing members ↔
      entry.1 ∈ listing ∧ members.lookup entry.1 = some entry.2 := by
  rw [listed, List.mem_filterMap]
  constructor
  · rintro ⟨name, hname, hentry⟩
    obtain ⟨a, ha, rfl⟩ := Option.map_eq_some_iff.mp hentry
    exact ⟨hname, ha⟩
  · rintro ⟨hname, ha⟩
    exact ⟨entry.1, hname, by rw [ha]; rfl⟩

theorem mem_of_mem_listed {listing : List Name} {entries : List (Name × α)} {entry : Name × α}
    (h : entry ∈ listed listing (ofList entries)) : entry ∈ entries :=
  mem_of_mem_ofList (mem_of_lookup (mem_listed.mp h).2)

theorem names_listed {listing : List Name} {members : List (Name × α)}
    (h : ∀ name ∈ listing, name ∈ names members) : names (listed listing members) = listing := by
  induction listing with
  | nil => rfl
  | cons name rest ih =>
      obtain ⟨hname, hrest⟩ := List.forall_mem_cons.mp h
      obtain ⟨a, ha⟩ := mem_names_iff.mp hname
      have ih := ih hrest
      simp only [names, listed] at ih ⊢
      simp [ha, ih]

theorem listed_names {members others : List (Name × α)}
    (h : ∀ member ∈ members, others.lookup member.1 = some member.2) :
    listed (names members) others = members := by
  induction members with
  | nil => rfl
  | cons member rest ih =>
      obtain ⟨hmember, hrest⟩ := List.forall_mem_cons.mp h
      have ih := ih hrest
      simp only [names, listed] at ih ⊢
      simp [hmember, ih]

theorem not_mem_seen {name : Name} {a : α} {rest : List (Name × α)} {seen : List Name}
    (hnodup : (names ((name, a) :: rest)).Nodup)
    (hseen : ∀ member ∈ (name, a) :: rest, member.1 ∉ seen) :
    ∀ member ∈ rest, member.1 ∉ name :: seen := by
  intro member hmem
  rw [List.mem_cons, not_or]
  refine ⟨fun heq => ?_, hseen member (List.mem_cons_of_mem _ hmem)⟩
  have hname : member.1 ∈ names rest := List.mem_map_of_mem hmem
  exact (List.nodup_cons.mp hnodup).1 (heq ▸ hname)

theorem sublist_of_subset {first second : List (Name × α)} (hfirst : Ordered first)
    (hsecond : Ordered second) (h : first ⊆ second) : first.Sublist second := by
  induction second generalizing first with
  | nil =>
      obtain rfl := List.eq_nil_of_subset_nil h
      exact .slnil
  | cons y rest ih =>
      obtain ⟨hy, hrest⟩ := List.pairwise_cons.mp hsecond
      cases first with
      | nil => exact List.nil_sublist _
      | cons x tail =>
          obtain ⟨hx, htail⟩ := List.pairwise_cons.mp hfirst
          -- the entry `y` comes first in `second`, so only the head of `first` can be it
          rcases List.mem_cons.mp (h List.mem_cons_self) with rfl | hmem
          · refine (ih htail hrest ?_).cons_cons x
            intro entry hentry
            rcases List.mem_cons.mp (h (List.mem_cons_of_mem _ hentry)) with rfl | hmem
            · exact absurd (hx _ hentry) (List.lt_irrefl _)
            · exact hmem
          · refine (ih hfirst hrest ?_).cons y
            intro entry hentry
            have hlt : y.1 < entry.1 := by
              rcases List.mem_cons.mp hentry with rfl | htailmem
              · exact hy _ hmem
              · exact List.lt_trans (hy x hmem) (hx entry htailmem)
            rcases List.mem_cons.mp (h hentry) with rfl | hmem'
            · exact absurd hlt (List.lt_irrefl _)
            · exact hmem'

theorem eq_of_subset {first second : List (Name × α)} (hfirst : Ordered first)
    (hsecond : Ordered second) (h : first ⊆ second) (hlength : first.length = second.length) :
    first = second :=
  (sublist_of_subset hfirst hsecond h).eq_of_length hlength

theorem nodup_of_names {entries : List (Name × α)} (h : (names entries).Nodup) : entries.Nodup :=
  List.Pairwise.of_map Prod.fst (fun _ _ hne heq => hne (congrArg Prod.fst heq)) h

theorem ofList_perm {entries : List (Name × α)} (h : (names entries).Nodup) :
    (ofList entries).Perm entries := by
  have hordered := nodup_of_ordered (ordered_ofList entries)
  refine (List.perm_ext_iff_of_nodup (nodup_of_names hordered) (nodup_of_names h)).mpr ?_
  rintro ⟨name, a⟩
  constructor
  · exact mem_of_mem_ofList
  · intro hmem
    have hlookup := lookup_of_mem h hmem
    rw [← lookup_ofList h] at hlookup
    exact mem_of_lookup hlookup

theorem ofList_eq_of_perm {entries entries' : List (Name × α)} (hnodup : (names entries).Nodup)
    (h : entries.Perm entries') : ofList entries = ofList entries' := by
  have hnodup' : (names entries').Nodup := (h.map Prod.fst).nodup hnodup
  have hperm := (ofList_perm hnodup).trans (h.trans (ofList_perm hnodup').symm)
  exact eq_of_subset (ordered_ofList entries) (ordered_ofList entries') hperm.subset hperm.length_eq

end Members

end TypedSexp
