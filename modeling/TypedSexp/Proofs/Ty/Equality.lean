import TypedSexp.Proofs.Legacy.Reading
import TypedSexp.Proofs.Sexp.Slices
import TypedSexp.Proofs.Ty.Printing
import TypedSexp.Proofs.Typing.Inference

namespace TypedSexp

theorem Sexp.PartOf.ofWords {s part : Sexp} (h : PartOf part s) (hs : s.OfWords) :
    part.OfWords := by
  induction h with
  | self => exact hs
  | inside hmem _ ih => exact ih (ofWords_list_iff.mp hs _ hmem)

theorem Sexp.IsNode.ofWords {source : Text} {s : Sexp} (h : IsNode source s) : s.OfWords := by
  obtain ⟨ss, hread, top, htop, hpart⟩ := h
  exact hpart.ofWords ((readAll_ofWords source).of_ok hread top htop)

def Expr.Parsed (e : Expr) : Prop :=
  (∃ source s, Sexp.IsNode source s ∧ ofSexp s = .ok e) ∨ ∃ source, Legacy.read source = .ok e

theorem Expr.Parsed.readable {e : Expr} (h : e.Parsed) : e.Readable := by
  rcases h with ⟨source, s, hs, he⟩ | ⟨source, he⟩
  · exact (ofSexp_ensures hs.ofWords).of_ok he
  · exact (Legacy.read_readable source).of_ok he

namespace Ty

theorem kept_readable : Kept Readable Sexp.IsWord where
  nat := ⟨.nat, .nat⟩
  bool := ⟨.bool, .bool⟩
  arrow ht hu := ⟨.arrow (by simp) (by simpa using ht.wellFormed) hu.wellFormed,
    .arrow (by simpa using ht.ordered) hu.ordered⟩
  output h := by
    obtain ⟨hwellFormed, hordered⟩ := h
    cases hwellFormed with
    | arrow _ _ houtput => exact ⟨houtput, kept_ordered.output hordered⟩
  record h := readable_record h
  field h hmem := by
    obtain ⟨hwellFormed, hordered⟩ := h
    cases hwellFormed with
    | record _ _ hmembers => exact ⟨hmembers _ hmem, kept_ordered.field hordered hmem⟩
  union := @readable_union [] (by simp)
  variant h hmem := by
    obtain ⟨hwellFormed, hordered⟩ := h
    cases hwellFormed with
    | union _ _ hmembers => exact ⟨hmembers _ hmem, kept_ordered.variant hordered hmem⟩

inductive Arises : Ty → Prop
  | primitive (p : Primitive) : Arises p.signature
  | read {source : Text} {s : Sexp} {t : Ty} :
      Sexp.IsNode source s → ofSexp s = .ok t → Arises t
  | checked {e : Expr} {Γ : Context} {t : Ty} :
      e.Parsed → (∀ x u, Γ.lookup? x = some u → Arises u) → e.infer Γ = .ok t → Arises t

theorem signature_readable (p : Primitive) : p.signature.Readable := by
  refine ⟨?_, signature_ordered p⟩
  cases p <;> exact .arrow (by simp) (by simp [WellFormed.nat, WellFormed.bool]) (by constructor)

theorem Arises.readable {t : Ty} (h : t.Arises) : t.Readable := by
  induction h with
  | primitive p => exact signature_readable p
  | read hs ht => exact (ofSexp_ensures hs.ofWords).of_ok ht
  | checked he _ ht ih =>
      exact (Expr.infer_ensures_of kept_readable he.readable.annotated
        fun x t _ ht => ih x t ht).of_ok ht

inductive Shuffle : Ty → Ty → Prop
  | nat : Shuffle .nat .nat
  | bool : Shuffle .bool .bool
  | arrow {inputs : List (Ty × Ty)} {output output' : Ty} :
      (∀ pair ∈ inputs, Shuffle pair.1 pair.2) → Shuffle output output' →
      Shuffle (.arrow (inputs.map Prod.fst) output) (.arrow (inputs.map Prod.snd) output')
  | record {members : List (Name × Ty × Ty)} {listed : List (Name × Ty)} :
      (∀ member ∈ members, Shuffle member.2.1 member.2.2) →
      (members.map fun member => (member.1, member.2.2)).Perm listed →
      Shuffle (.record (members.map fun member => (member.1, member.2.1))) (.record listed)
  | union {members : List (Name × Ty × Ty)} {listed : List (Name × Ty)} :
      (∀ member ∈ members, Shuffle member.2.1 member.2.2) →
      (members.map fun member => (member.1, member.2.2)).Perm listed →
      Shuffle (.union (members.map fun member => (member.1, member.2.1))) (.union listed)

theorem canonicalMembers_shuffle {members : List (Name × Ty × Ty)} {listed : List (Name × Ty)}
    (hnodup : (Members.names (members.map fun member => (member.1, member.2.1))).Nodup)
    (hsame : ∀ member ∈ members, member.2.2.Distinct ∧ member.2.2.canonical = member.2.1.canonical)
    (hperm : (members.map fun member => (member.1, member.2.2)).Perm listed) :
    ((Members.names listed).Nodup ∧ ∀ member ∈ listed, member.2.Distinct) ∧
      Members.ofList (canonicalMembers listed) =
        Members.ofList (canonicalMembers (members.map fun member => (member.1, member.2.1))) := by
  have hnames : (Members.names (members.map fun member => (member.1, member.2.2))).Nodup := by
    simpa [Members.names, Function.comp_def] using hnodup
  have hlisted : (Members.names listed).Nodup := (hperm.map Prod.fst).nodup hnames
  refine ⟨⟨hlisted, ?_⟩, ?_⟩
  · intro member hmem
    obtain ⟨pair, hpair, rfl⟩ := List.mem_map.mp (hperm.symm.subset hmem)
    exact (hsame pair hpair).1
  · refine Members.ofList_eq_of_perm (names_canonicalMembers listed ▸ hlisted) ?_
    rw [canonicalMembers_eq_map, canonicalMembers_eq_map]
    have hmap : (members.map fun member => (member.1, member.2.1)).map
          (fun member => (member.1, member.2.canonical)) =
        (members.map fun member => (member.1, member.2.2)).map
          (fun member => (member.1, member.2.canonical)) := by
      rw [List.map_map, List.map_map]
      refine List.map_congr_left fun member hmem => ?_
      simp only [Function.comp_apply, (hsame member hmem).2]
    rw [hmap]
    exact hperm.symm.map _

theorem Shuffle.canonical_eq {a a' : Ty} (h : Shuffle a a') (ha : a.Distinct) :
    a'.Distinct ∧ a'.canonical = a.canonical := by
  induction h with
  | nat => exact ⟨.nat, rfl⟩
  | bool => exact ⟨.bool, rfl⟩
  | @arrow inputs output output' _ _ ihinputs ihoutput =>
      cases ha with
      | arrow hinputs houtput =>
          have hinput pair hpair := ihinputs pair hpair (hinputs _ (List.mem_map_of_mem hpair))
          have houtput := ihoutput houtput
          refine ⟨.arrow ?_ houtput.1, ?_⟩
          · intro t ht
            obtain ⟨pair, hpair, rfl⟩ := List.mem_map.mp ht
            exact (hinput pair hpair).1
          · rw [canonical, canonical, houtput.2, canonicalAll_eq_map, canonicalAll_eq_map,
              List.map_map, List.map_map]
            congr 1
            exact List.map_congr_left fun pair hpair => (hinput pair hpair).2
  | record _ hperm ih =>
      cases ha with
      | record hnodup hmembers =>
          obtain ⟨⟨hlisted, hdistinct⟩, hsame⟩ := canonicalMembers_shuffle hnodup
            (fun member hmem => ih member hmem (hmembers _ (List.mem_map_of_mem hmem))) hperm
          exact ⟨.record hlisted hdistinct, congrArg Ty.record hsame⟩
  | union _ hperm ih =>
      cases ha with
      | union hnodup hmembers =>
          obtain ⟨⟨hlisted, hdistinct⟩, hsame⟩ := canonicalMembers_shuffle hnodup
            (fun member hmem => ih member hmem (hmembers _ (List.mem_map_of_mem hmem))) hperm
          exact ⟨.union hlisted hdistinct, congrArg Ty.union hsame⟩

theorem readAll_toText {t : Ty} (h : t.WellFormed) :
    ∃ s, Sexp.readAll t.toText = .ok [s] ∧ ofSexp s = .ok t.canonical := by
  have hword : ∀ s ∈ [t.toSexp], s.OfWords := by simpa using toSexp_ofWords h
  obtain ⟨ss, hread, hss⟩ := Sexp.readAll_join (c := Byte.space) rfl hword
  obtain ⟨s, _, rfl, hs, hnil⟩ := List.map_eq_cons_iff.mp hss
  obtain rfl := List.map_eq_nil_iff.mp hnil
  refine ⟨s, ?_, readsBack_of_wellFormed h s hs⟩
  rw [toText_toSexp]
  exact hread

theorem canonical_eq_of_toText_eq {a b : Ty} (ha : a.WellFormed) (hb : b.WellFormed)
    (h : a.toText = b.toText) : a.canonical = b.canonical := by
  obtain ⟨s, hs, hreads⟩ := readAll_toText ha
  obtain ⟨s', hs', hreads'⟩ := readAll_toText hb
  rw [h, hs'] at hs
  cases hs
  rw [hreads'] at hreads
  exact (Except.ok.inj hreads).symm

theorem equality_is_sameness_of_text {a b : Ty} (ha : a.Arises) (hb : b.Arises) :
    (a.equal b = true ↔ a.toText = b.toText) ∧
    (∀ a' b', a.Shuffle a' → b.Shuffle b' → a'.equal b' = a.equal b) ∧
    a.equal a = true ∧ a.equal b = b.equal a ∧
    (∀ c, a.equal b = true → b.equal c = true → a.equal c = true) ∧
    (∃ s t, Sexp.readAll a.toText = .ok [s] ∧ ofSexp s = .ok t ∧ t.equal a = true) ∧
    ∀ members members',
      a = .record members ∧ b = .record members' ∨ a = .union members ∧ b = .union members' →
      (Members.missingFrom members members' = [] ∧ Members.missingFrom members' members = [] ↔
        ∀ name, name ∈ Members.names members ↔ name ∈ Members.names members') := by
  obtain ⟨hwellFormed, hordered⟩ := ha.readable
  obtain ⟨hwellFormed', hordered'⟩ := hb.readable
  have hdistinct := hordered.distinct
  have hdistinct' := hordered'.distinct
  have hequal : a.equal b = true ↔ a = b := by
    rw [equal_iff_canonical_eq hdistinct hdistinct', hordered.canonical_eq, hordered'.canonical_eq]
  have hself : a.equal a = true := (equal_iff_canonical_eq hdistinct hdistinct).mpr rfl
  refine ⟨⟨?_, ?_⟩, ?_, hself, ?_, ?_, ?_, ?_⟩
  · intro h
    rw [hequal.mp h]
  · intro htext
    have hcanonical := canonical_eq_of_toText_eq hwellFormed hwellFormed' htext
    exact (equal_iff_canonical_eq hdistinct hdistinct').mpr hcanonical
  · intro a' b' hshuffle hshuffle'
    obtain ⟨ha', hcanonical⟩ := hshuffle.canonical_eq hdistinct
    obtain ⟨hb', hcanonical'⟩ := hshuffle'.canonical_eq hdistinct'
    rw [Bool.eq_iff_iff, equal_iff_canonical_eq ha' hb', hcanonical, hcanonical',
      equal_iff_canonical_eq hdistinct hdistinct']
  · rw [Bool.eq_iff_iff, equal_iff_canonical_eq hdistinct hdistinct',
      equal_iff_canonical_eq hdistinct' hdistinct, eq_comm]
  · intro c hab hbc
    rw [hequal.mp hab]
    exact hbc
  · obtain ⟨s, hread, hs⟩ := readAll_toText hwellFormed
    rw [hordered.canonical_eq] at hs
    exact ⟨s, a, hread, hs, hself⟩
  · intro members members' _
    rw [Members.missingFrom_eq_nil_iff, Members.missingFrom_eq_nil_iff]
    exact ⟨fun h name => ⟨h.1 name, h.2 name⟩,
      fun h => ⟨fun name => (h name).mp, fun name => (h name).mpr⟩⟩

theorem equality_is_sameness_of_text_signature :
    ∃ a b : Ty, a.Arises ∧ b.Arises ∧ a.toText = utf8 "(-> (rec a Bool b Nat) Nat)" ∧
      a.equal b = true := by
  have hread : Arises (.arrow [.record [(utf8 "a", .bool), (utf8 "b", .nat)]] .nat) :=
    .read ⟨_, (rfl : Sexp.readAll (utf8 "(-> (rec b Nat a Bool) Nat)") = .ok _), _,
      List.mem_singleton_self _, .self⟩ rfl
  have hparsed : Expr.Parsed _ := .inl ⟨_, _,
    ⟨_, (rfl : Sexp.readAll (utf8 "(lambda r (rec a Bool b Nat) (field r b))") = .ok _), _,
      List.mem_singleton_self _, .self⟩, rfl⟩
  have hchecked : Arises (.arrow [.record [(utf8 "a", .bool), (utf8 "b", .nat)]] .nat) :=
    .checked hparsed (fun x u h => absurd h (by simp)) (rfl : Expr.infer Context.empty _ = .ok _)
  exact ⟨_, _, hread, hchecked, rfl, (equality_is_sameness_of_text hread hchecked).1.mpr rfl⟩

end Ty

end TypedSexp
