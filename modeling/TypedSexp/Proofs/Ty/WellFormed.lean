import TypedSexp.Primitive
import TypedSexp.Proofs.Sexp.Words
import TypedSexp.Proofs.Ty.Members
import TypedSexp.Ty.Surface

namespace TypedSexp.Ty

open Sexp (IsWord)

@[elab_as_elim]
theorem induct {motive : Ty → Prop} (nat : motive .nat) (bool : motive .bool)
    (arrow : ∀ inputs output, (∀ t ∈ inputs, motive t) → motive output →
      motive (.arrow inputs output))
    (record : ∀ members, (∀ member ∈ members, motive member.2) → motive (.record members))
    (union : ∀ members, (∀ member ∈ members, motive member.2) → motive (.union members))
    (t : Ty) : motive t :=
  @Ty.rec motive (fun inputs => ∀ t ∈ inputs, motive t)
    (fun members => ∀ member ∈ members, motive member.2) (fun member => motive member.2)
    nat bool arrow record union (by simp)
    (fun _ _ hhead htail => List.forall_mem_cons.mpr ⟨hhead, htail⟩) (by simp)
    (fun _ _ hhead htail => List.forall_mem_cons.mpr ⟨hhead, htail⟩) (fun _ _ h => h) t

inductive WellFormed : Ty → Prop
  | nat : WellFormed .nat
  | bool : WellFormed .bool
  | arrow {inputs : List Ty} {output : Ty} :
      inputs ≠ [] → (∀ t ∈ inputs, WellFormed t) → WellFormed output →
      WellFormed (.arrow inputs output)
  | record {members : List (Name × Ty)} :
      (Members.names members).Nodup → (∀ member ∈ members, IsWord member.1) →
      (∀ member ∈ members, WellFormed member.2) → WellFormed (.record members)
  | union {members : List (Name × Ty)} :
      (Members.names members).Nodup → (∀ member ∈ members, IsWord member.1) →
      (∀ member ∈ members, WellFormed member.2) → WellFormed (.union members)

inductive Ordered : Ty → Prop
  | nat : Ordered .nat
  | bool : Ordered .bool
  | arrow {inputs : List Ty} {output : Ty} :
      (∀ t ∈ inputs, Ordered t) → Ordered output → Ordered (.arrow inputs output)
  | record {members : List (Name × Ty)} :
      Members.Ordered members → (∀ member ∈ members, Ordered member.2) →
      Ordered (.record members)
  | union {members : List (Name × Ty)} :
      Members.Ordered members → (∀ member ∈ members, Ordered member.2) →
      Ordered (.union members)

inductive Distinct : Ty → Prop
  | nat : Distinct .nat
  | bool : Distinct .bool
  | arrow {inputs : List Ty} {output : Ty} :
      (∀ t ∈ inputs, Distinct t) → Distinct output → Distinct (.arrow inputs output)
  | record {members : List (Name × Ty)} :
      (Members.names members).Nodup → (∀ member ∈ members, Distinct member.2) →
      Distinct (.record members)
  | union {members : List (Name × Ty)} :
      (Members.names members).Nodup → (∀ member ∈ members, Distinct member.2) →
      Distinct (.union members)

theorem Ordered.distinct {t : Ty} (h : t.Ordered) : t.Distinct := by
  induction h with
  | nat => exact .nat
  | bool => exact .bool
  | arrow _ _ ihinputs ihoutput => exact .arrow ihinputs ihoutput
  | record hmembers _ ih => exact .record (Members.nodup_of_ordered hmembers) ih
  | union hmembers _ ih => exact .union (Members.nodup_of_ordered hmembers) ih

mutual

def canonical : Ty → Ty
  | .nat => .nat
  | .bool => .bool
  | .arrow inputs output => .arrow (canonicalAll inputs) (canonical output)
  | .record members => .record (Members.ofList (canonicalMembers members))
  | .union members => .union (Members.ofList (canonicalMembers members))

def canonicalAll : List Ty → List Ty
  | [] => []
  | t :: rest => canonical t :: canonicalAll rest

def canonicalMembers : List (Name × Ty) → List (Name × Ty)
  | [] => []
  | (name, t) :: rest => (name, canonical t) :: canonicalMembers rest

end

theorem canonicalAll_eq_map (types : List Ty) : canonicalAll types = types.map canonical := by
  induction types with
  | nil => rfl
  | cons t rest ih => simp [canonicalAll, ih]

theorem canonicalMembers_eq_map (members : List (Name × Ty)) :
    canonicalMembers members = members.map fun member => (member.1, member.2.canonical) := by
  induction members with
  | nil => rfl
  | cons member rest ih => simp [canonicalMembers, ih]

theorem ofList_canonicalMembers (members : List (Name × Ty)) :
    Members.ofList (canonicalMembers members) =
      (Members.ofList members).map fun member => (member.1, member.2.canonical) := by
  rw [canonicalMembers_eq_map]
  exact Members.ofList_map canonical members

theorem canonicalMembers_of_ordered {members : List (Name × Ty)}
    (h : ∀ member ∈ members, member.2.canonical = member.2) :
    canonicalMembers members = members := by
  rw [canonicalMembers_eq_map]
  calc members.map (fun member => (member.1, member.2.canonical))
      = members.map id := List.map_congr_left fun member hmem => by rw [h member hmem]; rfl
    _ = members := List.map_id members

theorem ordered_ofList_canonicalMembers {members : List (Name × Ty)}
    (h : ∀ member ∈ members, member.2.canonical.Ordered) :
    ∀ member ∈ Members.ofList (canonicalMembers members), member.2.Ordered := by
  intro member hmem
  have hmap := Members.mem_of_mem_ofList hmem
  rw [canonicalMembers_eq_map, List.mem_map] at hmap
  obtain ⟨original, horiginal, rfl⟩ := hmap
  exact h original horiginal

theorem canonical_ordered (t : Ty) : t.canonical.Ordered := by
  induction t using Ty.induct with
  | nat => exact .nat
  | bool => exact .bool
  | arrow inputs output hinputs houtput =>
      refine .arrow ?_ houtput
      intro t ht
      rw [canonicalAll_eq_map, List.mem_map] at ht
      obtain ⟨input, hmem, rfl⟩ := ht
      exact hinputs input hmem
  | record members ih =>
      exact .record (Members.ordered_ofList _) (ordered_ofList_canonicalMembers ih)
  | union members ih =>
      exact .union (Members.ordered_ofList _) (ordered_ofList_canonicalMembers ih)

theorem Ordered.canonical_eq {t : Ty} (h : t.Ordered) : t.canonical = t := by
  induction h with
  | nat => rfl
  | bool => rfl
  | @arrow inputs output _ _ ihinputs ihoutput =>
      have hinputs : inputs.map canonical = inputs := by
        calc inputs.map canonical = inputs.map id := List.map_congr_left ihinputs
          _ = inputs := List.map_id inputs
      rw [canonical, canonicalAll_eq_map, hinputs, ihoutput]
  | record hmembers _ ih =>
      rw [canonical, canonicalMembers_of_ordered ih, Members.ofList_of_ordered hmembers]
  | union hmembers _ ih =>
      rw [canonical, canonicalMembers_of_ordered ih, Members.ofList_of_ordered hmembers]

@[simp]
theorem canonical_canonical (t : Ty) : t.canonical.canonical = t.canonical :=
  (canonical_ordered t).canonical_eq

theorem names_canonicalMembers (members : List (Name × Ty)) :
    Members.names (canonicalMembers members) = Members.names members := by
  rw [canonicalMembers_eq_map]
  simp [Members.names, Function.comp_def]

theorem equalAll_iff {types types' : List Ty}
    (h : ∀ t ∈ types, ∀ t' ∈ types', t.equal t' = true ↔ t.canonical = t'.canonical) :
    equalAll types types' = true ↔ canonicalAll types = canonicalAll types' := by
  induction types generalizing types' with
  | nil => cases types' <;> simp [equalAll, canonicalAll]
  | cons t rest ih =>
      cases types' with
      | nil => simp [equalAll, canonicalAll]
      | cons t' rest' =>
          obtain ⟨ht, hrest⟩ := List.forall_mem_cons.mp h
          have htail := ih fun u hu u' hu' => hrest u hu u' (List.mem_cons_of_mem _ hu')
          simp only [equalAll, canonicalAll, Bool.and_eq_true, List.cons.injEq,
            ht t' List.mem_cons_self, htail]

theorem equalMembers_iff {members others : List (Name × Ty)} :
    equalMembers members others = true ↔
      ∀ member ∈ members, ∃ t, others.lookup member.1 = some t ∧ member.2.equal t = true := by
  induction members with
  | nil => simp [equalMembers]
  | cons member rest ih =>
      obtain ⟨name, t⟩ := member
      rw [List.forall_mem_cons, ← ih]
      simp only [equalMembers]
      cases others.lookup name <;> simp

theorem equalMembers_iff_canonical {members members' : List (Name × Ty)}
    (hnodup : (Members.names members).Nodup) (hnodup' : (Members.names members').Nodup)
    (h : ∀ member ∈ members, ∀ member' ∈ members',
      member.2.equal member'.2 = true ↔ member.2.canonical = member'.2.canonical) :
    (members.length == members'.length && equalMembers members members') = true ↔
      Members.ofList (canonicalMembers members) = Members.ofList (canonicalMembers members') := by
  have hperm := Members.ofList_perm (names_canonicalMembers members ▸ hnodup)
  have hperm' := Members.ofList_perm (names_canonicalMembers members' ▸ hnodup')
  rw [canonicalMembers_eq_map, canonicalMembers_eq_map] at *
  rw [Bool.and_eq_true, beq_iff_eq, equalMembers_iff]
  constructor
  · rintro ⟨hlength, hequal⟩
    refine Members.eq_of_subset (Members.ordered_ofList _) (Members.ordered_ofList _) ?_ ?_
    · intro entry hentry
      obtain ⟨member, hmem, rfl⟩ := List.mem_map.mp (hperm.subset hentry)
      obtain ⟨t', hlookup, ht'⟩ := hequal member hmem
      have hmem' := Members.mem_of_lookup hlookup
      rw [(h member hmem _ hmem').mp ht']
      exact hperm'.symm.subset (List.mem_map.mpr ⟨_, hmem', rfl⟩)
    · rw [hperm.length_eq, hperm'.length_eq, List.length_map, List.length_map, hlength]
  · intro heq
    have hsame := hperm.symm.trans (heq ▸ hperm')
    refine ⟨by simpa using hsame.length_eq, ?_⟩
    intro member hmem
    obtain ⟨member', hmem', hpair⟩ :=
      List.mem_map.mp (hsame.subset (List.mem_map.mpr ⟨member, hmem, rfl⟩))
    obtain ⟨hname, htype⟩ := Prod.mk.inj hpair
    refine ⟨member'.2, ?_, (h member hmem member' hmem').mpr htype.symm⟩
    rw [← hname]
    exact Members.lookup_of_mem hnodup' hmem'

theorem equal_iff_canonical_eq {a b : Ty} (ha : a.Distinct) (hb : b.Distinct) :
    a.equal b = true ↔ a.canonical = b.canonical := by
  induction ha generalizing b with
  | nat => cases b <;> simp [equal, canonical]
  | bool => cases b <;> simp [equal, canonical]
  | arrow _ _ ihinputs ihoutput =>
      cases hb with
      | arrow hinputs houtput =>
          have hall := equalAll_iff fun t ht t' ht' => ihinputs t ht (hinputs t' ht')
          simp only [equal, canonical, Bool.and_eq_true, arrow.injEq, hall, ihoutput houtput]
      | _ => simp [equal, canonical]
  | record hnodup _ ih =>
      cases hb with
      | record hnodup' hmembers =>
          have hall := equalMembers_iff_canonical hnodup hnodup'
            fun m hm m' hm' => ih m hm (hmembers m' hm')
          simp only [equal, canonical, record.injEq, hall]
      | _ => simp [equal, canonical]
  | union hnodup _ ih =>
      cases hb with
      | union hnodup' hmembers =>
          have hall := equalMembers_iff_canonical hnodup hnodup'
            fun m hm m' hm' => ih m hm (hmembers m' hm')
          simp only [equal, canonical, union.injEq, hall]
      | _ => simp [equal, canonical]

theorem eq_of_equal {a b : Ty} (ha : a.Ordered) (hb : b.Ordered) (h : a.equal b = true) :
    a = b := by
  have hcanonical := (equal_iff_canonical_eq ha.distinct hb.distinct).mp h
  rwa [ha.canonical_eq, hb.canonical_eq] at hcanonical

theorem signature_ordered (p : Primitive) : p.signature.Ordered := by
  cases p <;> exact .arrow (by simp [Ordered.nat, Ordered.bool]) (by constructor)

end TypedSexp.Ty
