import Mathlib.Data.List.Forall2
import TypedSexp.Diagnostic.Basic
import TypedSexp.Proofs.Ty.Printing

namespace TypedSexp

namespace Ty

structure Same (t u : Ty) : Prop where
  left : t.Distinct
  right : u.Distinct
  canonical : t.canonical = u.canonical

theorem Same.refl {t : Ty} (h : t.Distinct) : Same t t := ⟨h, h, rfl⟩

theorem same_of_equal {t u : Ty} (ht : t.Distinct) (hu : u.Distinct) (h : t.equal u = true) :
    Same t u :=
  ⟨ht, hu, (equal_iff_canonical_eq ht hu).mp h⟩

theorem Same.equal {t u : Ty} (h : Same t u) : t.equal u = true :=
  (equal_iff_canonical_eq h.left h.right).mpr h.canonical

theorem Same.equal_eq {t t' u u' : Ty} (h : Same t t') (h' : Same u u') :
    t.equal u = t'.equal u' := by
  rw [Bool.eq_iff_iff, equal_iff_canonical_eq h.left h'.left,
    equal_iff_canonical_eq h.right h'.right, h.canonical, h'.canonical]

theorem Same.toText_eq {t u : Ty} (h : Same t u) : t.toText = u.toText := by
  rw [← toText_canonical, h.canonical, toText_canonical]

theorem same_inputs {inputs inputs' : List Ty} (h : ∀ t ∈ inputs, t.Distinct)
    (h' : ∀ t ∈ inputs', t.Distinct) (hcanonical : canonicalAll inputs = canonicalAll inputs') :
    List.Forall₂ Same inputs inputs' := by
  induction inputs generalizing inputs' with
  | nil =>
      cases inputs' with
      | nil => exact .nil
      | cons t' rest' => cases hcanonical
  | cons t rest ih =>
      cases inputs' with
      | nil => cases hcanonical
      | cons t' rest' =>
          obtain ⟨ht, hrest⟩ := List.forall_mem_cons.mp h
          obtain ⟨ht', hrest'⟩ := List.forall_mem_cons.mp h'
          obtain ⟨hhead, htail⟩ := List.cons.inj hcanonical
          exact .cons ⟨ht, ht', hhead⟩ (ih hrest hrest' htail)

theorem same_lookup {members members' : List (Name × Ty)}
    (hnodup : (Members.names members).Nodup) (hnodup' : (Members.names members').Nodup)
    (h : ∀ member ∈ members, member.2.Distinct) (h' : ∀ member ∈ members', member.2.Distinct)
    (hcanonical : Members.ofList (canonicalMembers members) =
      Members.ofList (canonicalMembers members')) (name : Name) :
    Option.Rel Same (members.lookup name) (members'.lookup name) := by
  have hlookup := congrArg (List.lookup name) hcanonical
  rw [ofList_canonicalMembers, ofList_canonicalMembers, Members.lookup_map, Members.lookup_map,
    Members.lookup_ofList hnodup, Members.lookup_ofList hnodup'] at hlookup
  cases ht : members.lookup name with
  | none =>
      cases hu : members'.lookup name with
      | none => exact .none
      | some u => simp [ht, hu] at hlookup
  | some t =>
      cases hu : members'.lookup name with
      | none => simp [ht, hu] at hlookup
      | some u =>
          have heq : t.canonical = u.canonical := by simpa [ht, hu] using hlookup
          exact .some ⟨h _ (Members.mem_of_lookup ht), h' _ (Members.mem_of_lookup hu), heq⟩

theorem Same.of_nat {u : Ty} (h : Same .nat u) : u = .nat := by
  have hcanonical := h.canonical
  cases u <;> simp [Ty.canonical] at hcanonical ⊢

theorem Same.of_bool {u : Ty} (h : Same .bool u) : u = .bool := by
  have hcanonical := h.canonical
  cases u <;> simp [Ty.canonical] at hcanonical ⊢

theorem Same.of_arrow {inputs : List Ty} {output u : Ty} (h : Same (.arrow inputs output) u) :
    ∃ inputs' output', u = .arrow inputs' output' ∧ List.Forall₂ Same inputs inputs' ∧
      Same output output' := by
  obtain ⟨hleft, hright, hcanonical⟩ := h
  cases hleft with
  | arrow hinputs houtput =>
      cases hright with
      | arrow hinputs' houtput' =>
          obtain ⟨hall, hout⟩ := Ty.arrow.inj hcanonical
          exact ⟨_, _, rfl, same_inputs hinputs hinputs' hall, houtput, houtput', hout⟩
      | _ => simp [Ty.canonical] at hcanonical

theorem Same.of_record {members : List (Name × Ty)} {u : Ty} (h : Same (.record members) u) :
    ∃ members', u = .record members' ∧
      ∀ name, Option.Rel Same (members.lookup name) (members'.lookup name) := by
  obtain ⟨hleft, hright, hcanonical⟩ := h
  cases hleft with
  | record hnodup hmembers =>
      cases hright with
      | record hnodup' hmembers' =>
          exact ⟨_, rfl, same_lookup hnodup hnodup' hmembers hmembers' (Ty.record.inj hcanonical)⟩
      | _ => simp [Ty.canonical] at hcanonical

theorem Same.of_union {members : List (Name × Ty)} {u : Ty} (h : Same (.union members) u) :
    ∃ members', u = .union members' ∧
      ∀ name, Option.Rel Same (members.lookup name) (members'.lookup name) := by
  obtain ⟨hleft, hright, hcanonical⟩ := h
  cases hleft with
  | union hnodup hmembers =>
      cases hright with
      | union hnodup' hmembers' =>
          exact ⟨_, rfl, same_lookup hnodup hnodup' hmembers hmembers' (Ty.union.inj hcanonical)⟩
      | _ => simp [Ty.canonical] at hcanonical

def SameFields (entries entries' : List (Name × Ty)) : Prop :=
  List.Forall₂ (fun entry entry' => entry.1 = entry'.1 ∧ Same entry.2 entry'.2) entries entries'

theorem SameFields.distinct {entries entries' : List (Name × Ty)}
    (h : SameFields entries entries') :
    (∀ entry ∈ entries, entry.2.Distinct) ∧ ∀ entry ∈ entries', entry.2.Distinct := by
  induction h with
  | nil => simp
  | cons hentry _ ih =>
      exact ⟨List.forall_mem_cons.mpr ⟨hentry.2.left, ih.1⟩,
        List.forall_mem_cons.mpr ⟨hentry.2.right, ih.2⟩⟩

theorem SameFields.canonicalMembers {entries entries' : List (Name × Ty)}
    (h : SameFields entries entries') :
    Ty.canonicalMembers entries = Ty.canonicalMembers entries' := by
  induction h with
  | nil => rfl
  | @cons entry entry' _ _ hentry _ ih =>
      obtain ⟨name, t⟩ := entry
      obtain ⟨name', t'⟩ := entry'
      obtain ⟨rfl, hsame⟩ := hentry
      simp only [Ty.canonicalMembers, hsame.canonical, ih]

theorem distinct_ofList {entries : List (Name × Ty)} (h : ∀ entry ∈ entries, entry.2.Distinct) :
    (Ty.record (Members.ofList entries)).Distinct :=
  .record (Members.nodup_of_ordered (Members.ordered_ofList entries))
    fun entry hmem => h entry (Members.mem_of_mem_ofList hmem)

theorem canonical_ofList (entries : List (Name × Ty)) :
    (Ty.record (Members.ofList entries)).canonical = (Ty.record entries).canonical := by
  rw [Ty.canonical, Ty.canonical, ofList_canonicalMembers, ofList_canonicalMembers,
    Members.ofList_of_ordered (Members.ordered_ofList entries)]

theorem SameFields.record {entries entries' : List (Name × Ty)} (h : SameFields entries entries') :
    Same (.record (Members.ofList entries)) (.record (Members.ofList entries')) := by
  obtain ⟨hleft, hright⟩ := h.distinct
  refine ⟨distinct_ofList hleft, distinct_ofList hright, ?_⟩
  rw [canonical_ofList, canonical_ofList, Ty.canonical, Ty.canonical, h.canonicalMembers]

theorem Same.arrow {input output output' : Ty} (hinput : input.Distinct)
    (h : Same output output') : Same (.arrow [input] output) (.arrow [input] output') := by
  refine ⟨.arrow (by simpa using hinput) h.left, .arrow (by simpa using hinput) h.right, ?_⟩
  rw [Ty.canonical, Ty.canonical, h.canonical]

theorem missingFrom_canonicalMembers (members others : List (Name × Ty)) :
    Members.missingFrom (Members.ofList (canonicalMembers members))
        (Members.ofList (canonicalMembers others)) =
      Members.missingFrom members others := by
  have hnames : Members.names (Members.ofList (Members.ofList (canonicalMembers members))) =
      Members.names (Members.ofList members) := by
    rw [Members.ofList_of_ordered (Members.ordered_ofList _), ofList_canonicalMembers,
      Members.names_map]
  rw [Members.missingFrom, Members.missingFrom, hnames]
  refine List.filter_congr fun name _ => ?_
  rw [ofList_canonicalMembers, Members.lookup_map, Option.isNone_map, Members.isNone_lookup_ofList]

end Ty

theorem Cause.mismatchHint_canonical (expected found : Ty) :
    mismatchHint expected.canonical found.canonical = mismatchHint expected found := by
  cases expected <;> cases found <;>
    simp only [mismatchHint, Ty.canonical, memberHint, Ty.missingFrom_canonicalMembers]

theorem Cause.mismatchHint_eq {expected expected' found found' : Ty}
    (h : expected.Same expected') (h' : found.Same found') :
    mismatchHint expected found = mismatchHint expected' found' := by
  rw [← mismatchHint_canonical, h.canonical, h'.canonical, mismatchHint_canonical]

end TypedSexp
