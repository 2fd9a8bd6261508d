import TypedSexp.Proofs.Sexp.Entries
import TypedSexp.Proofs.Ty.Printing

namespace TypedSexp.Ty

open Sexp (Entry PartOf AreRead TakesNewAtoms readEntries)

inductive Written : Sexp → Ty → Prop
  | nat {range : Range} : Written (.atom range (utf8 "Nat")) .nat
  | bool {range : Range} : Written (.atom range (utf8 "Bool")) .bool
  | arrow {range place : Range} {inputs : List (Sexp × Ty)} {s : Sexp} {output : Ty} :
      inputs ≠ [] → (∀ input ∈ inputs, Written input.1 input.2) → Written s output →
      Written (.list range (.atom place (utf8 "->") :: (inputs.map Prod.fst ++ [s])))
        (.arrow (inputs.map Prod.snd) output)
  | record {range place : Range} {fields : List (Entry × Ty)} :
      (Members.names (fields.map Entry.binding)).Nodup →
      (∀ field ∈ fields, Written field.1.part field.2) →
      Written (.list range (.atom place (utf8 "rec") :: Entry.flatAll (fields.map Prod.fst)))
        (.record (Members.ofList (fields.map Entry.binding)))
  | union {range place inner : Range} {variants : List (Entry × Ty)} {ss : List Sexp} :
      ss = Entry.flatAll (variants.map Prod.fst) ∨ ss = (variants.map Prod.fst).map Entry.paired →
      (Members.names (variants.map Entry.binding)).Nodup →
      (∀ variant ∈ variants, Written variant.1.part variant.2) →
      Written (.list range [.atom place (utf8 "union"), .list inner ss])
        (.union (Members.ofList (variants.map Entry.binding)))

def Head.text : Head → Text
  | .arrow => utf8 "->"
  | .record => utf8 "rec"
  | .union => utf8 "union"

theorem Head.eq_text_of_ofText? {t : Text} {head : Head} (h : ofText? t = some head) :
    t = head.text := by
  simp only [ofText?] at h
  iterate 3
    split at h
    · cases h
      assumption
  cases h

theorem takesNewAtoms_memberName (range : Range) (kind : MemberKind) :
    TakesNewAtoms (memberName range kind) := by
  intro seen s name
  cases s with
  | atom r text =>
      simp only [memberName, List.contains_eq_mem, decide_eq_true_eq]
      split
      · rename_i hseen
        refine iff_of_false (by simp [Sexp.Form.repeated]) ?_
        rintro ⟨⟨_, h⟩, hname⟩
        cases h
        exact hname hseen
      · rename_i hseen
        simp only [Except.ok.injEq, Sexp.atom.injEq, exists_eq_left']
        constructor
        · rintro rfl
          exact ⟨rfl, hseen⟩
        · exact fun h => h.1
  | list r elems => simp [memberName, Sexp.Form.wrongPart]

theorem ofSexps_eq_mapM (ss : List Sexp) : ofSexps ss = ss.mapM ofSexp := by
  induction ss with
  | nil => rfl
  | cons s rest ih => rw [ofSexps, ih, List.mapM_cons]

theorem flatMembers_eq_readEntries (range : Range) (kind : MemberKind) (seen : List Name)
    (ss : List Sexp) :
    flatMembers range kind seen ss = readEntries (memberName range kind) ofSexp seen ss :=
  Sexp.eq_readEntries (fun _ => rfl) (fun _ _ => rfl) (fun _ _ _ _ => by rw [flatMembers]) seen ss

theorem eq_flatAll_of_flatMembers {range : Range} {kind : MemberKind} {seen : List Name}
    {ss : List Sexp} {members : List (Name × Ty)} (heven : ss.length % 2 = 0)
    (h : flatMembers range kind seen ss = .ok members) : ∃ entries, ss = Entry.flatAll entries := by
  rw [flatMembers_eq_readEntries] at h
  exact Sexp.eq_flatAll_of_readEntries (takesNewAtoms_memberName range kind) heven h

theorem flatMembers_flatAll_iff (range : Range) (kind : MemberKind) {entries : List Entry}
    {members : List (Name × Ty)} :
    flatMembers range kind [] (Entry.flatAll entries) = .ok members ↔
      ∃ pairs : List (Entry × Ty), pairs.map Prod.fst = entries ∧
        pairs.map Entry.binding = members ∧ AreRead ofSexp [] pairs := by
  rw [flatMembers_eq_readEntries]
  exact Sexp.readEntries_flatAll_iff (takesNewAtoms_memberName range kind)

theorem pairedMembers_paired (range : Range) (kind : MemberKind) (seen : List Name)
    (entries : List Entry) :
    pairedMembers range kind seen (entries.map Entry.paired) =
      flatMembers range kind seen (Entry.flatAll entries) := by
  induction entries generalizing seen with
  | nil => rfl
  | cons entry rest ih =>
      simp only [List.map_cons, Entry.paired, Entry.flatAll, List.flatMap_cons, Entry.flat,
        List.cons_append, List.nil_append, pairedMembers, flatMembers]
      simp only [ih, Entry.flatAll]

theorem firstUnpaired?_paired (entries : List Entry) :
    firstUnpaired? (entries.map Entry.paired) = none := by
  simp only [firstUnpaired?, List.find?_eq_none, List.mem_map]
  rintro _ ⟨entry, -, rfl⟩
  simp [Entry.paired, Entry.flat]

theorem eq_map_paired {range : Range} {kind : MemberKind} {seen : List Name} {ss : List Sexp}
    {members : List (Name × Ty)} (hpairs : firstUnpaired? ss = none)
    (h : pairedMembers range kind seen ss = .ok members) :
    ∃ entries : List Entry, ss = entries.map Entry.paired := by
  induction ss generalizing seen members with
  | nil => exact ⟨[], rfl⟩
  | cons s rest ih =>
      simp only [firstUnpaired?, List.find?_eq_none] at hpairs ih
      obtain ⟨hs, hrest⟩ := List.forall_mem_cons.mp hpairs
      match s with
      | .list r [first, part] =>
          simp only [pairedMembers, Except.bind_eq_ok_iff] at h
          obtain ⟨name, hfirst, t, -, members, hmembers, -⟩ := h
          obtain ⟨⟨place, rfl⟩, -⟩ := (takesNewAtoms_memberName range kind _ _ _).mp hfirst
          obtain ⟨entries, rfl⟩ := ih hrest hmembers
          exact ⟨⟨r, place, name, part⟩ :: entries, rfl⟩
      | .atom _ _ => simp at hs
      | .list _ [] => simp at hs
      | .list _ [_] => simp at hs
      | .list _ (_ :: _ :: _ :: _) => simp at hs

section

variable {range place inner : Range}

theorem ofSexp_record (entries : List Entry) :
    ofSexp (.list range (.atom place (utf8 "rec") :: Entry.flatAll entries)) =
      (do
        let members ← flatMembers range .field [] (Entry.flatAll entries)
        return .record (Members.ofList members)) := by
  have hhead : Head.ofText? (utf8 "rec") = some .record := rfl
  have heven : (Entry.flatAll entries).length % 2 = 0 := by
    rw [Entry.length_flatAll]
    omega
  rw [ofSexp.eq_def]
  simp only [hhead, heven, ne_eq, not_true_eq_false, if_false]

theorem ofSexp_union_flat (entries : List Entry) :
    ofSexp (.list range [.atom place (utf8 "union"), .list inner (Entry.flatAll entries)]) =
      (do
        let members ← flatMembers range .variant [] (Entry.flatAll entries)
        return .union (Members.ofList members)) := by
  have hhead : Head.ofText? (utf8 "union") = some .union := rfl
  cases entries with
  | nil => rfl
  | cons entry rest =>
      have hflat : Entry.flatAll (entry :: rest) =
          .atom entry.place entry.name :: entry.part :: Entry.flatAll rest := rfl
      have heven : ((entry.part :: Entry.flatAll rest).length + 1) % 2 = 0 := by
        rw [List.length_cons, Entry.length_flatAll]
        omega
      rw [hflat, ofSexp.eq_def]
      simp only [hhead, heven, ne_eq, not_true_eq_false, if_false]

theorem ofSexp_union_paired (entries : List Entry) :
    ofSexp (.list range [.atom place (utf8 "union"), .list inner (entries.map Entry.paired)]) =
      (do
        let members ← flatMembers range .variant [] (Entry.flatAll entries)
        return .union (Members.ofList members)) := by
  have hhead : Head.ofText? (utf8 "union") = some .union := rfl
  have hpairs := firstUnpaired?_paired entries
  have hmembers := pairedMembers_paired range .variant [] entries
  cases entries with
  | nil => rfl
  | cons entry rest =>
      have hmap : (entry :: rest).map Entry.paired =
          .list entry.pair entry.flat :: rest.map Entry.paired := rfl
      rw [hmap] at hpairs hmembers ⊢
      rw [ofSexp.eq_def]
      simp only [hhead, hpairs, hmembers]

end

theorem written_of_ofSexp_arrow {range place : Range} {args : List Sexp} {t : Ty}
    (hparts : ∀ s ∈ args, ∀ t, ofSexp s = .ok t → Written s t)
    (h : ofSexp (.list range (.atom place (utf8 "->") :: args)) = .ok t) :
    Written (.list range (.atom place (utf8 "->") :: args)) t := by
  have hhead : Head.ofText? (utf8 "->") = some .arrow := rfl
  rw [ofSexp.eq_def] at h
  simp only [hhead] at h
  split at h
  · cases h
  · rename_i hlength
    simp only [ofSexps_eq_mapM, Except.bind_eq_ok_iff, Except.pure_eq_ok_iff,
      Except.mapM_eq_ok_iff] at h
    obtain ⟨_, ⟨pairs, rfl, rfl, hread⟩, rfl⟩ := h
    rcases List.eq_nil_or_concat pairs with rfl | ⟨inputs, last, rfl⟩
    · simp at hlength
    · have hne : inputs ≠ [] := by
        rintro rfl
        simp at hlength
      have hwritten : ∀ pair ∈ inputs ++ [last], Written pair.1 pair.2 :=
        fun pair hpair => hparts _ (by
          rw [List.concat_eq_append]
          exact List.mem_map_of_mem hpair) _ (hread pair (by simpa using hpair))
      obtain ⟨hinputs, hlast⟩ := List.forall_mem_append.mp hwritten
      simp only [List.concat_eq_append, List.map_append, List.map_cons, List.map_nil,
        arrowOf_append_singleton]
      exact .arrow hne hinputs (hlast last List.mem_cons_self)

theorem written_of_ofSexp_record {range place : Range} {args : List Sexp} {t : Ty}
    (hparts : ∀ s ∈ args, ∀ t, ofSexp s = .ok t → Written s t)
    (h : ofSexp (.list range (.atom place (utf8 "rec") :: args)) = .ok t) :
    Written (.list range (.atom place (utf8 "rec") :: args)) t := by
  have hhead : Head.ofText? (utf8 "rec") = some .record := rfl
  have hshape : ∃ entries, args = Entry.flatAll entries := by
    rw [ofSexp.eq_def] at h
    simp only [hhead] at h
    split at h
    · cases h
    · rename_i heven
      obtain ⟨members, hmembers, -⟩ := Except.bind_eq_ok_iff.mp h
      exact eq_flatAll_of_flatMembers (not_not.mp heven) hmembers
  obtain ⟨entries, rfl⟩ := hshape
  rw [ofSexp_record] at h
  simp only [Except.bind_eq_ok_iff, Except.pure_eq_ok_iff, flatMembers_flatAll_iff] at h
  obtain ⟨_, ⟨fields, rfl, rfl, hfields⟩, rfl⟩ := h
  refine .record hfields.nodup fun field hfield => ?_
  exact hparts _ (Entry.part_mem_flatAll (List.mem_map_of_mem hfield)) _ (hfields.read field hfield)

theorem union_shape {range place : Range} {args : List Sexp} {t : Ty}
    (h : ofSexp (.list range (.atom place (utf8 "union") :: args)) = .ok t) :
    ∃ inner entries, args = [.list inner (Entry.flatAll entries)] ∨
      args = [.list inner (entries.map Entry.paired)] := by
  have hhead : Head.ofText? (utf8 "union") = some .union := rfl
  rw [ofSexp.eq_def] at h
  simp only [hhead] at h
  split at h
  case h_1 inner => exact ⟨inner, [], .inl rfl⟩
  case h_2 inner r pair variants =>
    split at h
    · cases h
    · rename_i hpairs
      obtain ⟨members, hmembers, -⟩ := Except.bind_eq_ok_iff.mp h
      obtain ⟨entries, hentries⟩ := eq_map_paired hpairs hmembers
      exact ⟨inner, entries, .inr (by rw [hentries])⟩
  case h_3 inner r name variants =>
    split at h
    · cases h
    · rename_i heven
      obtain ⟨members, hmembers, -⟩ := Except.bind_eq_ok_iff.mp h
      obtain ⟨entries, hentries⟩ := eq_flatAll_of_flatMembers (by simpa using heven) hmembers
      exact ⟨inner, entries, .inl (by rw [hentries])⟩
  case h_4 => cases h
  case h_5 => cases h

theorem written_of_ofSexp_union {range place : Range} {args : List Sexp} {t : Ty}
    (hparts : ∀ s ∈ args, ∀ part, PartOf part s → ∀ t, ofSexp part = .ok t → Written part t)
    (h : ofSexp (.list range (.atom place (utf8 "union") :: args)) = .ok t) :
    Written (.list range (.atom place (utf8 "union") :: args)) t := by
  obtain ⟨inner, entries, hargs⟩ := union_shape h
  have hinner : ∀ entry ∈ entries, ∀ s ∈ args, PartOf entry.part s := by
    intro entry hentry s hs
    rcases hargs with rfl | rfl
    · obtain rfl := List.mem_singleton.mp hs
      exact .inside (Entry.part_mem_flatAll hentry) .self
    · obtain rfl := List.mem_singleton.mp hs
      exact .inside (List.mem_map_of_mem hentry) (.inside (by simp [Entry.flat]) .self)
  have hmembers : ∃ members, flatMembers range .variant [] (Entry.flatAll entries) = .ok members ∧
      .union (Members.ofList members) = t := by
    rcases hargs with rfl | rfl
    · simpa only [ofSexp_union_flat, Except.bind_eq_ok_iff, Except.pure_eq_ok_iff] using h
    · simpa only [ofSexp_union_paired, Except.bind_eq_ok_iff, Except.pure_eq_ok_iff] using h
  obtain ⟨members, hmembers, rfl⟩ := hmembers
  obtain ⟨variants, rfl, rfl, hvariants⟩ := (flatMembers_flatAll_iff _ _).mp hmembers
  have hwritten : ∀ variant ∈ variants, ∀ s ∈ args, Written variant.1.part variant.2 :=
    fun variant hvariant s hs => hparts s hs _
      (hinner _ (List.mem_map_of_mem hvariant) s hs) _ (hvariants.read variant hvariant)
  rcases hargs with rfl | rfl
  · exact .union (.inl rfl) hvariants.nodup fun variant hvariant =>
      hwritten variant hvariant _ List.mem_cons_self
  · exact .union (.inr rfl) hvariants.nodup fun variant hvariant =>
      hwritten variant hvariant _ List.mem_cons_self

theorem written_of_ofSexp {s : Sexp} {t : Ty} (h : ofSexp s = .ok t) : Written s t := by
  -- The type of a variant stands two or three lists down, so the elements of `s` do not suffice.
  induction s using Sexp.induct_parts generalizing t with
  | step s ih =>
      match s with
      | .atom range text =>
          simp only [ofSexp] at h
          split at h
          · subst text
            cases h
            exact .nat
          split at h
          · subst text
            cases h
            exact .bool
          · cases h
      | .list range [] => cases h
      | .list range (.list r elems :: args) => cases h
      | .list range (.atom place head :: args) =>
          have hparts : ∀ s ∈ args, ∀ part, PartOf part s →
              ∀ t, ofSexp part = .ok t → Written part t :=
            fun s hs part hpart t ht => ih s (List.mem_cons_of_mem _ hs) part hpart ht
          cases hhead : Head.ofText? head with
          | none =>
              rw [ofSexp.eq_def] at h
              simp only [hhead] at h
              cases h
          | some form =>
              obtain rfl := Head.eq_text_of_ofText? hhead
              cases form with
              | arrow => exact written_of_ofSexp_arrow (fun s hs => hparts s hs s .self) h
              | record => exact written_of_ofSexp_record (fun s hs => hparts s hs s .self) h
              | union => exact written_of_ofSexp_union hparts h

theorem Written.ofSexp_eq {s : Sexp} {t : Ty} (h : Written s t) : ofSexp s = .ok t := by
  induction h with
  | nat => rfl
  | bool => rfl
  | @arrow range place inputs s output hne hinputs houtput ihinputs ihoutput =>
      have hhead : Head.ofText? (utf8 "->") = some .arrow := rfl
      have hlength : ¬(inputs.map Prod.fst ++ [s]).length < 2 := by
        have := List.length_pos_iff.mpr hne
        simp
        omega
      have htypes : (inputs.map Prod.fst ++ [s]).mapM ofSexp =
          .ok (inputs.map Prod.snd ++ [output]) :=
        Except.mapM_eq_ok_iff.mpr ⟨inputs ++ [(s, output)], by simp, by simp,
          List.forall_mem_append.mpr ⟨ihinputs, by simpa using ihoutput⟩⟩
      rw [ofSexp.eq_def]
      simp only [hhead, hlength, if_false, ofSexps_eq_mapM, htypes]
      exact congrArg Except.ok (arrowOf_append_singleton _ _)
  | record hnodup hfields ih =>
      rw [ofSexp_record, (flatMembers_flatAll_iff _ _).mpr ⟨_, rfl, rfl, hnodup, by simp, ih⟩]
      rfl
  | @union range _ _ _ _ hspelled hnodup hvariants ih =>
      have hmembers := (flatMembers_flatAll_iff range .variant).mpr
        ⟨_, rfl, rfl, hnodup, by simp, ih⟩
      rcases hspelled with rfl | rfl
      · rw [ofSexp_union_flat, hmembers]
        rfl
      · rw [ofSexp_union_paired, hmembers]
        rfl

theorem ofSexp_eq_ok_iff {s : Sexp} {t : Ty} : ofSexp s = .ok t ↔ Written s t :=
  ⟨written_of_ofSexp, Written.ofSexp_eq⟩

end TypedSexp.Ty
