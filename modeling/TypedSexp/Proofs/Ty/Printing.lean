import TypedSexp.Proofs.Sexp.Printing
import TypedSexp.Proofs.Ty.WellFormed
import TypedSexp.Ty.Surface

namespace TypedSexp.Ty

open Sexp (IsWord OfWords)

def spread (members : List (Name × Sexp)) : List Sexp :=
  members.flatMap fun member => [.atom Range.none member.1, member.2]

mutual

def toSexp : Ty → Sexp
  | .nat => .atom Range.none (utf8 "Nat")
  | .bool => .atom Range.none (utf8 "Bool")
  | .arrow inputs output =>
      .list Range.none (.atom Range.none (utf8 "->") :: (toSexps inputs ++ [toSexp output]))
  | .record members =>
      .list Range.none
        (.atom Range.none (utf8 "rec") :: spread (Members.ofList (memberSexps members)))
  | .union members =>
      .list Range.none
        [.atom Range.none (utf8 "union"),
          .list Range.none (spread (Members.ofList (memberSexps members)))]

def toSexps : List Ty → List Sexp
  | [] => []
  | t :: rest => toSexp t :: toSexps rest

def memberSexps : List (Name × Ty) → List (Name × Sexp)
  | [] => []
  | (name, t) :: rest => (name, toSexp t) :: memberSexps rest

end

theorem toSexps_eq_map (types : List Ty) : toSexps types = types.map toSexp := by
  induction types with
  | nil => rfl
  | cons t rest ih => simp [toSexps, ih]

theorem memberSexps_eq_map (members : List (Name × Ty)) :
    memberSexps members = members.map fun member => (member.1, member.2.toSexp) := by
  induction members with
  | nil => rfl
  | cons member rest ih => simp [memberSexps, ih]

theorem memberTexts_eq_map (members : List (Name × Ty)) :
    memberTexts members = members.map fun member => (member.1, member.2.toText) := by
  induction members with
  | nil => rfl
  | cons member rest ih => simp [memberTexts, ih]

theorem ofList_memberSexps (members : List (Name × Ty)) :
    Members.ofList (memberSexps members) =
      (Members.ofList members).map fun member => (member.1, member.2.toSexp) := by
  rw [memberSexps_eq_map]
  exact Members.ofList_map toSexp members

theorem ofList_memberTexts (members : List (Name × Ty)) :
    Members.ofList (memberTexts members) =
      (Members.ofList members).map fun member => (member.1, member.2.toText) := by
  rw [memberTexts_eq_map]
  exact Members.ofList_map toText members

theorem length_spread (members : List (Name × Sexp)) :
    (spread members).length = 2 * members.length := by
  induction members with
  | nil => rfl
  | cons member rest ih =>
      simp only [spread, List.flatMap_cons, List.length_append, List.length_cons] at ih ⊢
      simp only [ih, List.length_nil]
      omega

theorem toTextInputs_eq {types : List Ty} (h : ∀ t ∈ types, t.toText = t.toSexp.toText) :
    toTextInputs types = (toSexps types).flatMap fun s => Byte.space :: s.toText := by
  induction types with
  | nil => rfl
  | cons t rest ih =>
      obtain ⟨ht, hrest⟩ := List.forall_mem_cons.mp h
      simp [toTextInputs, toSexps, ht, ih hrest, Sexp.utf8_space]

theorem toText_members {members : List (Name × Ty)}
    (h : ∀ member ∈ members, member.2.toText = member.2.toSexp.toText) :
    Members.ofList (memberTexts members) =
      (Members.ofList (memberSexps members)).map fun member => (member.1, member.2.toText) := by
  rw [ofList_memberTexts, ofList_memberSexps, List.map_map]
  refine List.map_congr_left fun member hmem => ?_
  rw [Function.comp_apply, h member (Members.mem_of_mem_ofList hmem)]

theorem fields_toText (members : List (Name × Sexp)) :
    (members.map fun member => (member.1, member.2.toText)).flatMap
        (fun member => utf8 " " ++ member.1 ++ utf8 " " ++ member.2) =
      (spread members).flatMap fun s => Byte.space :: s.toText := by
  rw [spread, List.flatMap_map, List.flatMap_assoc]
  simp [Sexp.toText, Sexp.utf8_space]

theorem variants_toText (members : List (Name × Sexp)) :
    Text.join (utf8 " ") ((members.map fun member => (member.1, member.2.toText)).map
        fun member => member.1 ++ utf8 " " ++ member.2) =
      Sexp.toTextAll (spread members) := by
  induction members with
  | nil => rfl
  | cons member rest ih =>
      cases rest with
      | nil => simp [spread, Text.join, Sexp.toTextAll, Sexp.toText, Sexp.utf8_space]
      | cons next rest =>
          simp only [List.map_cons, Text.join] at ih ⊢
          rw [ih]
          simp [spread, Sexp.toTextAll, Sexp.toText, Sexp.utf8_space]

theorem toText_toSexp (t : Ty) : t.toText = t.toSexp.toText := by
  induction t using Ty.induct with
  | nat => rfl
  | bool => rfl
  | arrow inputs output hinputs houtput =>
      have hhead : utf8 "(->" = Byte.openParen :: utf8 "->" := rfl
      simp [toText, toSexp, Sexp.toText, Sexp.toTextAll_cons, toTextInputs_eq hinputs, houtput,
        hhead, Sexp.utf8_space, Sexp.utf8_close]
  | record members ih =>
      have hhead : utf8 "(rec" = Byte.openParen :: utf8 "rec" := rfl
      rw [toText, toText_members ih, fields_toText]
      simp [toSexp, Sexp.toText, Sexp.toTextAll_cons, hhead, Sexp.utf8_close]
  | union members ih =>
      have hhead : utf8 "(union (" =
          Byte.openParen :: (utf8 "union" ++ [Byte.space, Byte.openParen]) := rfl
      have htail : utf8 "))" = [Byte.closeParen, Byte.closeParen] := rfl
      rw [toText, toText_members ih, variants_toText]
      simp [toSexp, Sexp.toText, Sexp.toTextAll_cons, hhead, htail]

theorem toText_canonical (t : Ty) : t.canonical.toText = t.toText := by
  have hmembers (members : List (Name × Ty))
      (h : ∀ member ∈ members, member.2.canonical.toText = member.2.toText) :
      Members.ofList (memberTexts (Members.ofList (canonicalMembers members))) =
        Members.ofList (memberTexts members) := by
    rw [ofList_memberTexts, ofList_memberTexts,
      Members.ofList_of_ordered (Members.ordered_ofList _), ofList_canonicalMembers, List.map_map]
    refine List.map_congr_left fun member hmem => ?_
    rw [Function.comp_apply, h member (Members.mem_of_mem_ofList hmem)]
  induction t using Ty.induct with
  | nat => rfl
  | bool => rfl
  | arrow inputs output hinputs houtput =>
      have hinputs : toTextInputs (canonicalAll inputs) = toTextInputs inputs := by
        induction inputs with
        | nil => rfl
        | cons t rest ih =>
            obtain ⟨ht, hrest⟩ := List.forall_mem_cons.mp hinputs
            simp only [canonicalAll, toTextInputs, ht, ih hrest]
      simp only [canonical, toText, hinputs, houtput]
  | record members ih => simp only [canonical, toText, hmembers members ih]
  | union members ih => simp only [canonical, toText, hmembers members ih]

theorem spread_ofWords {members : List (Name × Ty)}
    (hword : ∀ member ∈ members, IsWord member.1)
    (h : ∀ member ∈ members, member.2.toSexp.OfWords) :
    ∀ s ∈ spread (Members.ofList (memberSexps members)), s.OfWords := by
  intro s hs
  obtain ⟨part, hpart, hs⟩ := List.mem_flatMap.mp hs
  rw [memberSexps_eq_map] at hpart
  obtain ⟨member, hmem, rfl⟩ := List.mem_map.mp (Members.mem_of_mem_ofList hpart)
  rcases List.mem_cons.mp hs with rfl | hs
  · exact .atom (hword member hmem)
  · rw [List.mem_singleton.mp hs]
    exact h member hmem

theorem toSexp_ofWords {t : Ty} (h : t.WellFormed) : t.toSexp.OfWords := by
  induction h with
  | nat => exact .atom (by decide)
  | bool => exact .atom (by decide)
  | @arrow inputs output _ _ _ hinputs houtput =>
      refine .list (List.forall_mem_cons.mpr ⟨.atom (by decide), ?_⟩)
      intro s hs
      rw [toSexps_eq_map] at hs
      rcases List.mem_append.mp hs with hs | hs
      · obtain ⟨t, ht, rfl⟩ := List.mem_map.mp hs
        exact hinputs t ht
      · rw [List.mem_singleton.mp hs]
        exact houtput
  | record _ hword _ ih =>
      exact .list (List.forall_mem_cons.mpr ⟨.atom (by decide), spread_ofWords hword ih⟩)
  | union _ hword _ ih =>
      refine .list (List.forall_mem_cons.mpr ⟨.atom (by decide), ?_⟩)
      exact List.forall_mem_cons.mpr ⟨.list (spread_ofWords hword ih), by simp⟩

def ReadsBack (t : Ty) : Prop := ∀ s : Sexp, s.content = t.toSexp.content → ofSexp s = .ok t.canonical

theorem ofSexps_of_content {types : List Ty} (h : ∀ t ∈ types, ReadsBack t) {ss : List Sexp}
    (hss : ss.map Sexp.content = (types.map toSexp).map Sexp.content) :
    ofSexps ss = .ok (types.map canonical) := by
  induction types generalizing ss with
  | nil =>
      obtain rfl : ss = [] := by simpa using hss
      rfl
  | cons t rest ih =>
      obtain ⟨ht, hrest⟩ := List.forall_mem_cons.mp h
      obtain ⟨s, ss, rfl, hs, hss⟩ := List.map_eq_cons_iff.mp hss
      rw [ofSexps, ht s hs, ih hrest hss]
      rfl

theorem flatMembers_of_content (range : Range) (kind : MemberKind) (seen : List Name)
    {members : List (Name × Ty)} (hnodup : (Members.names members).Nodup)
    (hseen : ∀ member ∈ members, member.1 ∉ seen) (h : ∀ member ∈ members, ReadsBack member.2)
    {ss : List Sexp}
    (hss : ss.map Sexp.content =
      (spread (members.map fun member => (member.1, member.2.toSexp))).map Sexp.content) :
    flatMembers range kind seen ss = .ok (canonicalMembers members) := by
  induction members generalizing seen ss with
  | nil =>
      obtain rfl : ss = [] := by simpa [spread] using hss
      rfl
  | cons member rest ih =>
      obtain ⟨name, t⟩ := member
      obtain ⟨ht, hrest⟩ := List.forall_mem_cons.mp h
      obtain ⟨first, tail, rfl, hfirst, htail⟩ := List.map_eq_cons_iff.mp hss
      obtain ⟨second, tail, rfl, hsecond, htail⟩ := List.map_eq_cons_iff.mp htail
      obtain ⟨r, rfl⟩ := Sexp.content_eq_atom hfirst
      have hcontains : seen.contains name = false := by
        simpa using (List.forall_mem_cons.mp hseen).1
      have htail' := ih (name :: seen) (List.nodup_cons.mp hnodup).2
        (Members.not_mem_seen hnodup hseen) hrest htail
      simp only [flatMembers, memberName, hcontains, Bool.false_eq_true, if_false, ht second hsecond]
      change (do return (name, t.canonical) :: (← flatMembers range kind (name :: seen) tail)) = _
      rw [htail']
      rfl

theorem flatMembers_of_spread (range : Range) (kind : MemberKind) {members : List (Name × Ty)}
    (h : ∀ member ∈ members, ReadsBack member.2) {ss : List Sexp}
    (hss : ss.map Sexp.content =
      (spread (Members.ofList (memberSexps members))).map Sexp.content) :
    ∃ read, flatMembers range kind [] ss = .ok read ∧
      Members.ofList read = Members.ofList (canonicalMembers members) := by
  have hordered := Members.ordered_ofList members
  rw [ofList_memberSexps] at hss
  refine ⟨_, flatMembers_of_content range kind [] (Members.nodup_of_ordered hordered) (by simp)
    (fun member hmem => h member (Members.mem_of_mem_ofList hmem)) hss, ?_⟩
  rw [ofList_canonicalMembers, ofList_canonicalMembers, Members.ofList_of_ordered hordered]

theorem arrowOf_append_singleton (inputs : List Ty) (output : Ty) :
    arrowOf (inputs ++ [output]) = .arrow inputs output := by
  cases inputs with
  | nil => rfl
  | cons t rest =>
      change Ty.arrow ((t :: rest) ++ [output]).dropLast (((t :: rest) ++ [output]).getLast _) = _
      rw [List.dropLast_concat, List.getLast_concat]

theorem readsBack_arrow {inputs : List Ty} {output : Ty} (hne : inputs ≠ [])
    (hinputs : ∀ t ∈ inputs, ReadsBack t) (houtput : ReadsBack output) :
    ReadsBack (.arrow inputs output) := by
  intro s hs
  obtain ⟨range, r, args, rfl, hargs⟩ := Sexp.content_eq_form hs
  have hargs' : args.map Sexp.content = ((inputs ++ [output]).map toSexp).map Sexp.content := by
    simpa [toSexps_eq_map] using hargs
  have hlength : ¬args.length < 2 := by
    have := congrArg List.length hargs'
    have := List.length_pos_iff.mpr hne
    simp at *
    omega
  have htypes := ofSexps_of_content
    (List.forall_mem_append.mpr ⟨hinputs, by simpa using houtput⟩) hargs'
  have hhead : Head.ofText? (utf8 "->") = some .arrow := rfl
  rw [ofSexp.eq_def]
  simp only [hhead, hlength, if_false, htypes]
  change Except.ok (arrowOf _) = _
  rw [List.map_append, List.map_singleton, arrowOf_append_singleton, canonical,
    canonicalAll_eq_map]

theorem readsBack_record {members : List (Name × Ty)}
    (h : ∀ member ∈ members, ReadsBack member.2) : ReadsBack (.record members) := by
  intro s hs
  obtain ⟨range, r, args, rfl, hargs⟩ := Sexp.content_eq_form hs
  have hlength : args.length % 2 = 0 := by
    have := congrArg List.length hargs
    simp [length_spread] at this
    omega
  obtain ⟨read, hread, hmembers⟩ := flatMembers_of_spread range .field h hargs
  have hhead : Head.ofText? (utf8 "rec") = some .record := rfl
  rw [ofSexp.eq_def]
  simp only [hhead, hlength, ne_eq, not_true_eq_false, if_false, hread]
  exact congrArg (fun members => Except.ok (Ty.record members)) hmembers

theorem readsBack_union {members : List (Name × Ty)}
    (h : ∀ member ∈ members, ReadsBack member.2) : ReadsBack (.union members) := by
  intro s hs
  obtain ⟨range, r, args, rfl, hargs⟩ := Sexp.content_eq_form hs
  obtain ⟨second, args, rfl, hsecond, hargs⟩ := List.map_eq_cons_iff.mp hargs
  obtain rfl : args = [] := by simpa using hargs
  obtain ⟨range', variants, rfl, hvariants⟩ := Sexp.content_eq_list hsecond
  obtain ⟨read, hread, hmembers⟩ := flatMembers_of_spread range .variant h hvariants
  have hresult := congrArg (fun members => Except.ok (ε := Diagnostic) (Ty.union members)) hmembers
  have hlength := congrArg List.length hvariants
  simp only [List.length_map, length_spread] at hlength
  have hhead : Head.ofText? (utf8 "union") = some .union := rfl
  rw [ofSexp.eq_def]
  simp only [hhead]
  cases hsorted : Members.ofList (memberSexps members) with
  | nil =>
      obtain rfl : variants = [] := by simpa [hsorted] using hlength
      cases hread
      exact hresult
  | cons member rest =>
      rw [hsorted] at hvariants
      obtain ⟨name, variants, rfl, hname, -⟩ := List.map_eq_cons_iff.mp hvariants
      obtain ⟨r', rfl⟩ := Sexp.content_eq_atom hname
      have heven : (variants.length + 1) % 2 = 0 := by
        simp only [List.length_cons] at hlength
        omega
      simp only [heven, ne_eq, not_true_eq_false, if_false, hread]
      exact hresult

theorem readsBack_of_wellFormed {t : Ty} (h : t.WellFormed) : ReadsBack t := by
  induction h with
  | nat =>
      intro s hs
      obtain ⟨r, rfl⟩ := Sexp.content_eq_atom hs
      rfl
  | bool =>
      intro s hs
      obtain ⟨r, rfl⟩ := Sexp.content_eq_atom hs
      rfl
  | arrow hne _ _ hinputs houtput => exact readsBack_arrow hne hinputs houtput
  | record _ _ _ ih => exact readsBack_record ih
  | union _ _ _ ih => exact readsBack_union ih

end TypedSexp.Ty
