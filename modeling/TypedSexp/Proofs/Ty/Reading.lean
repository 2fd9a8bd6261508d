import TypedSexp.Proofs.Ty.WellFormed

namespace TypedSexp

open Sexp (IsWord OfWords)

structure Members.Listed {α : Type} (P : α → Prop) (seen : List Name)
    (entries : List (Name × α)) : Prop where
  nodup : (Members.names entries).Nodup
  fresh : ∀ entry ∈ entries, entry.1 ∉ seen
  word : ∀ entry ∈ entries, IsWord entry.1
  holds : ∀ entry ∈ entries, P entry.2

theorem Members.Listed.nil {α : Type} (P : α → Prop) (seen : List Name) : Listed P seen [] :=
  ⟨by simp [names], by simp, by simp, by simp⟩

theorem Members.Listed.cons {α : Type} {P : α → Prop} {seen : List Name} {name : Name} {a : α}
    {entries : List (Name × α)} (hname : name ∉ seen ∧ IsWord name) (ha : P a)
    (h : Listed P (name :: seen) entries) : Listed P seen ((name, a) :: entries) where
  nodup := by
    refine List.nodup_cons.mpr ⟨?_, h.nodup⟩
    intro hmem
    obtain ⟨entry, hentry, heq⟩ := List.mem_map.mp hmem
    exact h.fresh entry hentry (by simp [heq])
  fresh := by
    intro entry hmem
    rcases List.mem_cons.mp hmem with rfl | hmem
    · exact hname.1
    · exact fun hseen => h.fresh entry hmem (List.mem_cons_of_mem _ hseen)
  word := List.forall_mem_cons.mpr ⟨hname.2, h.word⟩
  holds := List.forall_mem_cons.mpr ⟨ha, h.holds⟩

theorem Members.Listed.word_and_holds {α : Type} {P : α → Prop} {seen : List Name}
    {entries : List (Name × α)} (h : Listed P seen entries) :
    ∀ entry ∈ entries, IsWord entry.1 ∧ P entry.2 :=
  fun entry hmem => ⟨h.word entry hmem, h.holds entry hmem⟩

namespace Ty

structure Readable (t : Ty) : Prop where
  wellFormed : t.WellFormed
  ordered : t.Ordered

theorem readable_record {entries : List (Name × Ty)}
    (h : ∀ entry ∈ entries, IsWord entry.1 ∧ entry.2.Readable) :
    (Ty.record (Members.ofList entries)).Readable where
  wellFormed := .record (Members.nodup_of_ordered (Members.ordered_ofList entries))
    (fun entry hmem => (h entry (Members.mem_of_mem_ofList hmem)).1)
    (fun entry hmem => (h entry (Members.mem_of_mem_ofList hmem)).2.wellFormed)
  ordered := .record (Members.ordered_ofList entries)
    (fun entry hmem => (h entry (Members.mem_of_mem_ofList hmem)).2.ordered)

theorem readable_union {entries : List (Name × Ty)}
    (h : ∀ entry ∈ entries, IsWord entry.1 ∧ entry.2.Readable) :
    (Ty.union (Members.ofList entries)).Readable where
  wellFormed := .union (Members.nodup_of_ordered (Members.ordered_ofList entries))
    (fun entry hmem => (h entry (Members.mem_of_mem_ofList hmem)).1)
    (fun entry hmem => (h entry (Members.mem_of_mem_ofList hmem)).2.wellFormed)
  ordered := .union (Members.ordered_ofList entries)
    (fun entry hmem => (h entry (Members.mem_of_mem_ofList hmem)).2.ordered)

theorem readable_arrowOf {types : List Ty} (hlength : 2 ≤ types.length)
    (h : ∀ t ∈ types, t.Readable) : (arrowOf types).Readable := by
  match types, hlength with
  | first :: second :: rest, _ =>
      have hinputs : ∀ t ∈ (first :: second :: rest).dropLast, t.Readable := fun t ht =>
        h t (List.dropLast_subset _ ht)
      have houtput := h _ (List.getLast_mem (l := first :: second :: rest) (by simp))
      exact ⟨.arrow (by simp) (fun t ht => (hinputs t ht).wellFormed) houtput.wellFormed,
        .arrow (fun t ht => (hinputs t ht).ordered) houtput.ordered⟩

theorem memberName_ensures (range : Range) (kind : MemberKind) (seen : List Name) {s : Sexp}
    (h : s.OfWords) :
    (memberName range kind seen s).Ensures (fun name => name ∉ seen ∧ IsWord name)
      (Diagnostic.IsAt .parse) := by
  cases h with
  | atom hword =>
      simp only [memberName]
      split
      · rfl
      · simp_all
  | list => rfl

def Reads (s : Sexp) : Prop := (ofSexp s).Ensures Readable (Diagnostic.IsAt .parse)

theorem ofSexps_ensures {ss : List Sexp} (h : ∀ s ∈ ss, Reads s) :
    (ofSexps ss).Ensures (fun types => types.length = ss.length ∧ ∀ t ∈ types, t.Readable)
      (Diagnostic.IsAt .parse) := by
  induction ss with
  | nil => simp [ofSexps]
  | cons s rest ih =>
      obtain ⟨hs, hrest⟩ := List.forall_mem_cons.mp h
      simp only [ofSexps, Except.ensures_bind, Except.ensures_pure]
      refine hs.imp fun t ht => (ih hrest).imp fun types htypes => ?_
      exact ⟨by simp [htypes.1], List.forall_mem_cons.mpr ⟨ht, htypes.2⟩⟩

theorem flatMembers_ensures (range : Range) (kind : MemberKind) (seen : List Name)
    (ss : List Sexp) (hwords : ∀ s ∈ ss, s.OfWords) (h : ∀ s ∈ ss, Reads s) :
    (flatMembers range kind seen ss).Ensures (Members.Listed Readable seen) (Diagnostic.IsAt .parse) := by
  match ss with
  | [] => exact .nil _ seen
  | [_] => exact .nil _ seen
  | name :: ty :: rest =>
      simp only [flatMembers, Except.ensures_bind, Except.ensures_pure]
      refine (memberName_ensures range kind seen (hwords name (by simp))).imp fun name hname => ?_
      refine (h ty (by simp)).imp fun t ht => ?_
      refine (flatMembers_ensures range kind (name :: seen) rest (by grind) (by grind)).imp ?_
      intro entries hentries
      exact .cons hname ht hentries

theorem pairedMembers_ensures (range : Range) (kind : MemberKind) (seen : List Name)
    (ss : List Sexp) (hwords : ∀ s ∈ ss, s.OfWords) (h : ∀ s ∈ ss, ∀ e ∈ s.elems, Reads e) :
    (pairedMembers range kind seen ss).Ensures (Members.Listed Readable seen)
      (Diagnostic.IsAt .parse) := by
  match ss with
  | .list r [name, ty] :: rest =>
      have hpair := Sexp.ofWords_list_iff.mp (hwords _ List.mem_cons_self)
      simp only [pairedMembers, Except.ensures_bind, Except.ensures_pure]
      refine (memberName_ensures range kind seen (hpair name (by simp))).imp fun name hname => ?_
      refine (h _ List.mem_cons_self ty (by simp [Sexp.elems])).imp fun t ht => ?_
      refine (pairedMembers_ensures range kind (name :: seen) rest (by grind) (by grind)).imp ?_
      intro entries hentries
      exact .cons hname ht hentries
  | [] => exact .nil _ seen
  | .atom _ _ :: _ => exact .nil _ seen
  | .list _ [] :: _ => exact .nil _ seen
  | .list _ [_] :: _ => exact .nil _ seen
  | .list _ (_ :: _ :: _ :: _) :: _ => exact .nil _ seen

theorem reads_union {range r : Range} {head : Text} {args : List Sexp}
    (hhead : Head.ofText? head = some .union) (hwords : ∀ s ∈ args, s.OfWords)
    (h : ∀ s ∈ args, ∀ e ∈ s.elems, Reads e ∧ ∀ part ∈ e.elems, Reads part) :
    Reads (.list range (.atom r head :: args)) := by
  rw [Reads, ofSexp.eq_def]
  simp only [hhead]
  match args with
  | [] => rfl
  | [.atom _ _] => rfl
  | [.list _ []] => exact @readable_union [] (by simp)
  | [.list _ (.list r pair :: variants)] =>
      have hvariants := Sexp.ofWords_list_iff.mp (hwords _ List.mem_cons_self)
      have hparts := h _ List.mem_cons_self
      simp only
      split
      · rfl
      · simp only [Except.ensures_bind, Except.ensures_pure]
        exact (pairedMembers_ensures range .variant [] _ hvariants
          fun e he => (hparts e he).2).imp fun _ h => readable_union h.word_and_holds
  | [.list _ (.atom r name :: variants)] =>
      have hvariants := Sexp.ofWords_list_iff.mp (hwords _ List.mem_cons_self)
      have hparts := h _ List.mem_cons_self
      simp only
      split
      · rfl
      · simp only [Except.ensures_bind, Except.ensures_pure]
        exact (flatMembers_ensures range .variant [] _ hvariants
          fun e he => (hparts e he).1).imp fun _ h => readable_union h.word_and_holds
  | first :: second :: rest => rcases first with _ | ⟨_, _ | ⟨_ | _, _⟩⟩ <;> rfl

theorem reads_compound {range r : Range} {head : Text} {args : List Sexp}
    (hwords : ∀ s ∈ args, s.OfWords)
    (h : ∀ s ∈ args, Reads s ∧ ∀ e ∈ s.elems, Reads e ∧ ∀ part ∈ e.elems, Reads part) :
    Reads (.list range (.atom r head :: args)) := by
  have hargs : ∀ s ∈ args, Reads s := fun s hs => (h s hs).1
  cases hhead : Head.ofText? head with
  | none =>
      rw [Reads, ofSexp.eq_def]
      simp only [hhead]
      rfl
  | some form =>
      cases form with
      | arrow =>
          rw [Reads, ofSexp.eq_def]
          simp only [hhead]
          split
          · rfl
          case isFalse hlength =>
            simp only [Except.ensures_bind, Except.ensures_pure]
            refine (ofSexps_ensures hargs).imp fun types htypes => ?_
            exact readable_arrowOf (by omega) htypes.2
      | record =>
          rw [Reads, ofSexp.eq_def]
          simp only [hhead]
          split
          · rfl
          · simp only [Except.ensures_bind, Except.ensures_pure]
            exact (flatMembers_ensures range .field [] args hwords hargs).imp fun _ h =>
              readable_record h.word_and_holds
      | union => exact reads_union hhead hwords fun s hs => (h s hs).2

theorem reads_of_ofWords {s : Sexp} (h : s.OfWords) :
    Reads s ∧ ∀ e ∈ s.elems, Reads e ∧ ∀ part ∈ e.elems, Reads part := by
  induction h with
  | @atom range text =>
      refine ⟨?_, by simp [Sexp.elems]⟩
      rw [Reads, ofSexp]
      split
      · exact ⟨.nat, .nat⟩
      · split
        · exact ⟨.bool, .bool⟩
        · rfl
  | @list range elems helems ih =>
      refine ⟨?_, fun e he => ⟨(ih e he).1, fun part hpart => ((ih e he).2 part hpart).1⟩⟩
      match elems with
      | [] => rfl
      | .list _ _ :: _ => rfl
      | .atom r head :: args =>
          exact reads_compound (fun s hs => helems s (List.mem_cons_of_mem _ hs))
            fun s hs => ih s (List.mem_cons_of_mem _ hs)

theorem ofSexp_ensures {s : Sexp} (h : s.OfWords) :
    (ofSexp s).Ensures Readable (Diagnostic.IsAt .parse) :=
  (reads_of_ofWords h).1

end Ty

end TypedSexp
