import TypedSexp.Proofs.Ty.Members
import TypedSexp.Run.Store

namespace TypedSexp

namespace Scope

variable {scope : Scope} {name : Name} {v : Value}

/-- The list of names and the map of values, which are changed apart from each other, go together. -/
structure Coherent (scope : Scope) : Prop where
  nodup : scope.names.Nodup
  ordered : Members.Ordered scope.values
  keys : ∀ name, name ∈ scope.names ↔ name ∈ Members.names scope.values

theorem owns_iff : scope.owns name = true ↔ name ∈ Members.names scope.values := by
  rw [owns, Option.isSome_iff_exists, Members.mem_names_iff]

theorem parent_add (scope : Scope) (name : Name) (v : Value) :
    (scope.add name v).parent = scope.parent := rfl

theorem parent_set (scope : Scope) (name : Name) (v : Value) :
    (scope.set name v).parent = scope.parent := rfl

theorem empty_coherent (parent : Option Nat) : (empty parent).Coherent where
  nodup := List.nodup_nil
  ordered := List.Pairwise.nil
  keys _ := Iff.rfl

theorem Coherent.add (h : scope.Coherent) (hname : scope.owns name = false) :
    (scope.add name v).Coherent where
  nodup := by
    have hfresh : name ∉ scope.names := by
      intro hmem
      simp [owns_iff.mpr ((h.keys name).mp hmem)] at hname
    refine List.nodup_append.mpr ⟨h.nodup, by simp, ?_⟩
    intro a ha b hb
    rintro rfl
    exact hfresh (List.mem_singleton.mp hb ▸ ha)
  ordered := Members.ordered_insert name v h.ordered
  keys other := by
    change other ∈ scope.names ++ [name] ↔ other ∈ Members.names (Members.insert name v _)
    rw [Members.mem_names_insert, List.mem_append, List.mem_singleton, h.keys, or_comm]

theorem Coherent.set (h : scope.Coherent) (hname : scope.owns name = true) :
    (scope.set name v).Coherent where
  nodup := h.nodup
  ordered := Members.ordered_insert name v h.ordered
  keys other := by
    change other ∈ scope.names ↔ other ∈ Members.names (Members.insert name v _)
    rw [Members.mem_names_insert, h.keys]
    constructor
    · exact .inr
    · rintro (rfl | hmem)
      · exact owns_iff.mp hname
      · exact hmem

theorem holding_eq (parent : Option Nat) (bindings : List (Name × Value)) :
    holding parent bindings = ⟨parent, Members.names bindings, Members.ofList bindings⟩ := by
  have hfoldl (scope : Scope) :
      bindings.foldl (fun scope binding => scope.add binding.1 binding.2) scope =
        ⟨scope.parent, scope.names ++ Members.names bindings,
          bindings.foldl (fun members entry => Members.insert entry.1 entry.2 members)
            scope.values⟩ := by
    induction bindings generalizing scope with
    | nil => simp [Members.names]
    | cons binding rest ih =>
        rw [List.foldl_cons, ih]
        simp [Scope.add, Members.names]
  exact (hfoldl (empty parent)).trans (by simp [empty, Members.ofList])

theorem holding_single (parent : Option Nat) (name : Name) (v : Value) :
    holding parent [(name, v)] = ⟨parent, [name], [(name, v)]⟩ := rfl

theorem holding_coherent (parent : Option Nat) {bindings : List (Name × Value)}
    (h : (Members.names bindings).Nodup) : (holding parent bindings).Coherent := by
  rw [holding_eq]
  refine ⟨h, Members.ordered_ofList bindings, fun name => ?_⟩
  rw [Members.mem_names_iff, Members.mem_names_iff, Members.lookup_ofList h]

theorem Coherent.mem_bindings_iff (h : scope.Coherent) :
    (name, v) ∈ scope.bindings ↔ scope.values.lookup name = some v := by
  rw [bindings, Members.mem_listed]
  refine and_iff_right_of_imp fun hlookup => (h.keys name).mpr ?_
  exact Members.mem_names_iff.mpr ⟨v, hlookup⟩

theorem Coherent.names_bindings (h : scope.Coherent) :
    Members.names scope.bindings = scope.names :=
  Members.names_listed fun name hname => (h.keys name).mp hname

end Scope

namespace Store

variable {s s' : Store} {id : Nat} {name : Name}

theorem owns_eq (s : Store) (id : Nat) (name : Name) :
    s.owns id name = ((s.values id).lookup name).isSome := by
  unfold owns values
  cases s.scope? id <;> simp [Scope.owns]

theorem owns_iff : s.owns id name = true ↔ name ∈ Members.names (s.values id) := by
  rw [owns_eq, Option.isSome_iff_exists, Members.mem_names_iff]

theorem scope?_eq_none_iff : s.scope? id = none ↔ s.size ≤ id := by
  simp [scope?, size]

theorem lt_size_of_scope? {scope : Scope} (h : s.scope? id = some scope) : id < s.size := by
  rcases Nat.lt_or_ge id s.size with hlt | hge
  · exact hlt
  · simp [scope?_eq_none_iff.mpr hge] at h

theorem exists_scope (h : id < s.size) : ∃ scope, s.scope? id = some scope := by
  cases hscope : s.scope? id with
  | none => exact absurd (scope?_eq_none_iff.mp hscope) (Nat.not_le_of_gt h)
  | some scope => exact ⟨scope, rfl⟩

theorem owner?_congr {id : Nat} (hbinds : ∀ i ≤ id, s'.owns i name = s.owns i name)
    (hparent : ∀ i ≤ id, s'.parent? i = s.parent? i) : s'.owner? name id = s.owner? name id := by
  induction id using Nat.strongRecOn with
  | ind id ih =>
      rw [owner?, owner?, hbinds id (Nat.le_refl id), hparent id (Nat.le_refl id)]
      cases s.parent? id with
      | none => rfl
      | some outer =>
          by_cases houter : outer < id
          · simp only [houter, if_true]
            rw [ih outer houter (fun i hi => hbinds i (by omega)) fun i hi => hparent i (by omega)]
          · simp only [houter, if_false]

theorem owner?_owns {owner : Nat} (h : s.owner? name id = some owner) :
    s.owns owner name = true := by
  induction id using Nat.strongRecOn with
  | ind id ih =>
      rw [owner?] at h
      split at h
      case isTrue howns =>
        cases h
        exact howns
      case isFalse =>
        split at h
        · simp at h
        case h_2 outer _ =>
          split at h
          case isTrue houter => exact ih outer houter h
          case isFalse => simp at h

theorem owner?_le {owner : Nat} (h : s.owner? name id = some owner) : owner ≤ id := by
  induction id using Nat.strongRecOn with
  | ind id ih =>
      rw [owner?] at h
      split at h
      · cases h
        exact Nat.le_refl _
      · split at h
        · simp at h
        case h_2 outer _ =>
          split at h
          case isTrue houter => exact Nat.le_of_lt (Nat.lt_of_le_of_lt (ih outer houter h) houter)
          case isFalse => simp at h

theorem owner?_of_owns (h : s.owns id name = true) : s.owner? name id = some id := by
  rw [owner?, if_pos h]

theorem lookup?_eq {owner : Nat} (h : s.owner? name id = some owner) :
    s.lookup? id name = (s.values owner).lookup name := by
  simp [lookup?, h]

theorem lookup?_eq_some_iff {v : Value} :
    s.lookup? id name = some v ↔
      ∃ owner, s.owner? name id = some owner ∧ (s.values owner).lookup name = some v := by
  simp [lookup?, Option.bind_eq_some_iff]

theorem lt_size_of_owner? {owner : Nat} (h : s.owner? name id = some owner) : id < s.size := by
  rcases Nat.lt_or_ge id s.size with hlt | hge
  · exact hlt
  · rw [owner?] at h
    simp [owns, parent?, scope?_eq_none_iff.mpr hge] at h

theorem lookup?_root {scope : Scope} (h : s.scope? id = some scope)
    (hparent : scope.parent = none) (name : Name) :
    s.lookup? id name = scope.values.lookup name := by
  rw [lookup?, owner?, owns_eq]
  have hvalues : s.values id = scope.values := by simp [values, h]
  have hnone : s.parent? id = none := by simp [parent?, h, hparent]
  simp only [hvalues, hnone]
  cases hname : scope.values.lookup name with
  | none => simp
  | some v => simp [hvalues, hname]

theorem lookup?_inner {outer : Nat} {scope : Scope} (h : s.scope? id = some scope)
    (hparent : scope.parent = some outer) (hlt : outer < id) (name : Name) :
    s.lookup? id name = (scope.values.lookup name).or (s.lookup? outer name) := by
  rw [lookup?, owner?, owns_eq]
  have hvalues : s.values id = scope.values := by simp [values, h]
  have houter : s.parent? id = some outer := by simp [parent?, h, hparent]
  simp only [hvalues, houter, hlt, if_true]
  cases hname : scope.values.lookup name with
  | none => simp [lookup?]
  | some v => simp [hvalues, hname]

structure Extends (s s' : Store) : Prop where
  size_le : s.size ≤ s'.size
  scope?_eq : ∀ id < s.size, s'.scope? id = s.scope? id

namespace Extends

theorem refl (s : Store) : s.Extends s := ⟨Nat.le_refl _, fun _ _ => rfl⟩

theorem trans {s₁ s₂ s₃ : Store} (h : s₁.Extends s₂) (h' : s₂.Extends s₃) : s₁.Extends s₃ where
  size_le := Nat.le_trans h.size_le h'.size_le
  scope?_eq id hid := by
    rw [h'.scope?_eq id (Nat.lt_of_lt_of_le hid h.size_le), h.scope?_eq id hid]

theorem newScope (s : Store) (parent : Option Nat) (bindings : List (Name × Value)) :
    s.Extends (s.newScope parent bindings).2 where
  size_le := by simp [Store.newScope, size]
  scope?_eq id hid := by
    simp only [Store.newScope, scope?]
    rw [Array.getElem?_push_lt hid, Array.getElem?_eq_getElem hid]

theorem names_eq (h : s.Extends s') (hid : id < s.size) : s'.names id = s.names id := by
  simp only [names, h.scope?_eq id hid]

theorem values_eq (h : s.Extends s') (hid : id < s.size) : s'.values id = s.values id := by
  simp only [values, h.scope?_eq id hid]

theorem owner?_eq (h : s.Extends s') (hid : id < s.size) :
    s'.owner? name id = s.owner? name id := by
  apply owner?_congr
  · intro i hi
    simp only [owns, h.scope?_eq i (by omega)]
  · intro i hi
    simp only [parent?, h.scope?_eq i (by omega)]

end Extends

theorem size_newScope (s : Store) (parent : Option Nat) (bindings : List (Name × Value)) :
    (s.newScope parent bindings).2.size = s.size + 1 := by
  simp [newScope, size]

theorem scope?_newScope_self (s : Store) (parent : Option Nat) (bindings : List (Name × Value)) :
    (s.newScope parent bindings).2.scope? s.size = some (.holding parent bindings) := by
  simp [newScope, scope?, size]

theorem scope?_newScope (s : Store) (parent : Option Nat) (bindings : List (Name × Value))
    (id : Nat) :
    (s.newScope parent bindings).2.scope? id =
      if id = s.size then some (.holding parent bindings) else s.scope? id := by
  simp only [newScope, scope?, size, Array.getElem?_push]
  rfl

theorem owner?_newScope {captured : Nat} (hcaptured : captured < s.size) (param : Name)
    (v : Value) (name : Name) :
    (s.newScope (some captured) [(param, v)]).2.owner? name s.size =
      if name = param then some s.size else s.owner? name captured := by
  have hself := scope?_newScope_self s (some captured) [(param, v)]
  rw [owner?]
  simp only [owns, parent?, hself, Option.map_some, Option.getD_some, Option.bind_some,
    Scope.holding_single, Scope.owns, Members.lookup_cons, List.lookup_nil]
  split
  · simp_all
  · simp_all [(Extends.newScope s (some captured) [(param, v)]).owner?_eq hcaptured]

theorem names_newScope_self (s : Store) (parent : Option Nat) (bindings : List (Name × Value)) :
    (s.newScope parent bindings).2.names s.size = Members.names bindings := by
  simp [names, scope?_newScope_self, Scope.holding_eq]

theorem values_newScope_self (s : Store) (parent : Option Nat) (bindings : List (Name × Value)) :
    (s.newScope parent bindings).2.values s.size = Members.ofList bindings := by
  simp [values, scope?_newScope_self, Scope.holding_eq]

section modify

variable (s) (id) {f : Scope → Scope} (hf : ∀ scope, (f scope).parent = scope.parent)

theorem size_modifyScope : (s.modifyScope id f).size = s.size := by
  simp [modifyScope, size]

theorem scope?_modifyScope (i : Nat) :
    (s.modifyScope id f).scope? i = if i = id then (s.scope? i).map f else s.scope? i := by
  simp only [modifyScope, scope?, Array.getElem?_modify]
  grind

include hf in
theorem parent?_modifyScope (i : Nat) : (s.modifyScope id f).parent? i = s.parent? i := by
  simp only [parent?, scope?_modifyScope]
  split
  · cases s.scope? i with
    | none => rfl
    | some scope => exact hf scope
  · rfl

theorem names_modifyScope_of_ne {i : Nat} (h : i ≠ id) :
    (s.modifyScope id f).names i = s.names i := by
  simp [names, scope?_modifyScope, h]

theorem values_modifyScope_of_ne {i : Nat} (h : i ≠ id) :
    (s.modifyScope id f).values i = s.values i := by
  simp [values, scope?_modifyScope, h]

end modify

section define

variable {range : Range} {v : Value}

theorem define_ok (h : s.define id range name v = .ok s') :
    s.owns id name = false ∧ s' = s.modifyScope id (·.add name v) := by
  unfold define at h
  split at h
  · simp at h
  case isFalse howns => exact ⟨by simpa using howns, by simpa using h.symm⟩

theorem size_define (h : s.define id range name v = .ok s') : s'.size = s.size := by
  rw [(define_ok h).2, size_modifyScope]

theorem names_define_of_ne (h : s.define id range name v = .ok s') {i : Nat} (hi : i ≠ id) :
    s'.names i = s.names i := by
  rw [(define_ok h).2, names_modifyScope_of_ne s id hi]

theorem names_define_self (hid : id < s.size) (h : s.define id range name v = .ok s') :
    s'.names id = s.names id ++ [name] := by
  obtain ⟨scope, hscope⟩ := exists_scope hid
  simp [(define_ok h).2, names, scope?_modifyScope, hscope, Scope.add]

theorem values_define_of_ne (h : s.define id range name v = .ok s') {i : Nat} (hi : i ≠ id) :
    s'.values i = s.values i := by
  rw [(define_ok h).2, values_modifyScope_of_ne s id hi]

theorem values_define_self (hid : id < s.size) (h : s.define id range name v = .ok s') :
    s'.values id = Members.insert name v (s.values id) := by
  obtain ⟨scope, hscope⟩ := exists_scope hid
  simp [(define_ok h).2, values, scope?_modifyScope, hscope, Scope.add]

theorem lookup_define (hid : id < s.size) (h : s.define id range name v = .ok s') (i : Nat)
    (other : Name) :
    (s'.values i).lookup other =
      if i = id ∧ other = name then some v else (s.values i).lookup other := by
  by_cases hi : i = id
  · subst hi
    simp [values_define_self hid h, Members.lookup_insert]
  · simp [values_define_of_ne h hi, hi]

theorem owns_define (hid : id < s.size) (h : s.define id range name v = .ok s') (i : Nat)
    (other : Name) : s'.owns i other = (decide (i = id ∧ other = name) || s.owns i other) := by
  rw [owns_eq, owns_eq, lookup_define hid h]
  split <;> simp_all

theorem parent?_define (h : s.define id range name v = .ok s') (i : Nat) :
    s'.parent? i = s.parent? i := by
  rw [(define_ok h).2, parent?_modifyScope s id fun scope => scope.parent_add name v]

theorem owner?_define_of_ne (hid : id < s.size) (h : s.define id range name v = .ok s')
    {other : Name} (hother : other ≠ name) (i : Nat) : s'.owner? other i = s.owner? other i := by
  apply owner?_congr
  · intro j _
    simp [owns_define hid h, hother]
  · exact fun j _ => parent?_define h j

theorem owner?_define_self (hid : id < s.size) (h : s.define id range name v = .ok s') (i : Nat) :
    s'.owner? name i = s.owner? name i ∨
      s'.owner? name i = some id ∧ s.owner? name i = s.owner? name id := by
  induction i using Nat.strongRecOn with
  | ind i ih =>
      by_cases hi : i = id
      · subst hi
        exact .inr ⟨owner?_of_owns (by simp [owns_define hid h]), rfl⟩
      · have howns : s'.owns i name = s.owns i name := by simp [owns_define hid h, hi]
        rw [owner?.eq_def s, owner?.eq_def s', howns, parent?_define h]
        split
        · exact .inl rfl
        · cases hparent : s.parent? i with
          | none => exact .inl rfl
          | some outer =>
              by_cases houter : outer < i
              · simpa [houter] using ih outer houter
              · simp [houter]

end define

section update

variable {v : Value}

theorem update_ok (h : s.update id name v = .ok s') :
    ∃ owner, s.owner? name id = some owner ∧ s' = s.modifyScope owner (·.set name v) := by
  unfold update at h
  split at h
  case h_1 owner howner => exact ⟨owner, howner, by simpa using h.symm⟩
  · simp at h

theorem size_update (h : s.update id name v = .ok s') : s'.size = s.size := by
  obtain ⟨owner, -, rfl⟩ := update_ok h
  rw [size_modifyScope]

theorem parent?_set (s : Store) (owner : Nat) (name : Name) (v : Value) (i : Nat) :
    (s.modifyScope owner (·.set name v)).parent? i = s.parent? i :=
  parent?_modifyScope s owner (fun scope => scope.parent_set name v) i

theorem parent?_update (h : s.update id name v = .ok s') (i : Nat) :
    s'.parent? i = s.parent? i := by
  obtain ⟨owner, -, rfl⟩ := update_ok h
  exact parent?_set s owner name v i

theorem names_set (s : Store) (owner : Nat) (name : Name) (v : Value) (i : Nat) :
    (s.modifyScope owner (·.set name v)).names i = s.names i := by
  by_cases hi : i = owner
  · simp only [names, scope?_modifyScope, hi, if_true, Option.map_map]
    rfl
  · exact names_modifyScope_of_ne s owner hi

theorem names_update (h : s.update id name v = .ok s') (i : Nat) : s'.names i = s.names i := by
  obtain ⟨owner, -, rfl⟩ := update_ok h
  exact names_set s owner name v i

theorem lt_size_of_owns (h : s.owns id name = true) : id < s.size := by
  cases hscope : s.scope? id with
  | none => simp [owns, hscope] at h
  | some scope => exact lt_size_of_scope? hscope

theorem lookup_set {owner : Nat} (howns : s.owns owner name = true) (i : Nat) (other : Name) :
    ((s.modifyScope owner (·.set name v)).values i).lookup other =
      if i = owner ∧ other = name then some v else (s.values i).lookup other := by
  by_cases hi : i = owner
  · obtain ⟨scope, hscope⟩ := exists_scope (lt_size_of_owns howns)
    simp [values, scope?_modifyScope, hi, hscope, Scope.set, Members.lookup_insert]
  · simp [values_modifyScope_of_ne s owner hi, hi]

theorem owns_set {owner : Nat} (howns : s.owns owner name = true) (i : Nat) (other : Name) :
    (s.modifyScope owner (·.set name v)).owns i other = s.owns i other := by
  rw [owns_eq, owns_eq, lookup_set howns]
  split
  case isTrue h =>
    rw [h.1, h.2, ← owns_eq, howns]
    rfl
  case isFalse => rfl

theorem owner?_set {owner : Nat} (howns : s.owns owner name = true) (i : Nat) (other : Name) :
    (s.modifyScope owner (·.set name v)).owner? other i = s.owner? other i :=
  owner?_congr (fun j _ => owns_set howns j other) fun j _ => parent?_set s owner name v j

end update

theorem lookup_values_of_mem_bindings {v : Value} (h : (name, v) ∈ s.bindings id) :
    (s.values id).lookup name = some v := by
  cases hscope : s.scope? id with
  | none => simp [bindings, hscope] at h
  | some scope =>
      simp only [bindings, values, hscope, Option.map_some, Option.getD_some] at h ⊢
      exact (Members.mem_listed.mp h).2

def Coherent (s : Store) : Prop :=
  ∀ id scope, s.scope? id = some scope → scope.Coherent

namespace Coherent

theorem names_bindings (h : s.Coherent) (id : Nat) :
    Members.names (s.bindings id) = s.names id := by
  unfold bindings names
  cases hscope : s.scope? id with
  | none => rfl
  | some scope => exact (h _ scope hscope).names_bindings

theorem nodup (h : s.Coherent) (id : Nat) : (s.names id).Nodup := by
  unfold names
  cases hscope : s.scope? id with
  | none => exact List.nodup_nil
  | some scope => exact (h _ scope hscope).nodup

theorem ordered (h : s.Coherent) (id : Nat) : Members.Ordered (s.values id) := by
  unfold values
  cases hscope : s.scope? id with
  | none => exact List.Pairwise.nil
  | some scope => exact (h _ scope hscope).ordered

theorem mem_names_iff (h : s.Coherent) :
    name ∈ s.names id ↔ name ∈ Members.names (s.values id) := by
  unfold names values
  cases hscope : s.scope? id with
  | none => exact Iff.rfl
  | some scope => exact (h _ scope hscope).keys name

theorem mem_bindings_iff (h : s.Coherent) {v : Value} :
    (name, v) ∈ s.bindings id ↔ (s.values id).lookup name = some v := by
  unfold bindings values
  cases hscope : s.scope? id with
  | none => simp
  | some scope => exact (h _ scope hscope).mem_bindings_iff

theorem newScope (h : s.Coherent) (parent : Option Nat) {bindings : List (Name × Value)}
    (hbindings : (Members.names bindings).Nodup) : (s.newScope parent bindings).2.Coherent := by
  intro id scope hscope
  rw [scope?_newScope] at hscope
  split at hscope
  · obtain rfl := Option.some.inj hscope
    exact Scope.holding_coherent parent hbindings
  · exact h _ scope hscope

theorem modifyScope (h : s.Coherent) {f : Scope → Scope}
    (hf : ∀ scope, s.scope? id = some scope → (f scope).Coherent) :
    (s.modifyScope id f).Coherent := by
  intro i scope hscope
  rw [scope?_modifyScope] at hscope
  split at hscope
  case isTrue heq =>
    subst heq
    obtain ⟨old, hold, rfl⟩ := Option.map_eq_some_iff.mp hscope
    exact hf old hold
  case isFalse => exact h _ scope hscope

theorem define (h : s.Coherent) {range : Range} {v : Value}
    (hdefine : s.define id range name v = .ok s') : s'.Coherent := by
  obtain ⟨howns, rfl⟩ := define_ok hdefine
  refine h.modifyScope fun scope hscope => (h _ scope hscope).add ?_
  simpa [owns, hscope] using howns

theorem update (h : s.Coherent) {v : Value} (hupdate : s.update id name v = .ok s') :
    s'.Coherent := by
  obtain ⟨owner, howner, rfl⟩ := update_ok hupdate
  refine h.modifyScope fun scope hscope => (h _ scope hscope).set ?_
  simpa [owns, hscope] using owner?_owns howner

end Coherent

theorem root_coherent : root.Coherent := by
  intro id scope h
  match id with
  | 0 =>
      cases h
      exact Scope.empty_coherent none
  | id + 1 => cases h

theorem initial_coherent : initial.Coherent := by
  intro id scope h
  match id with
  | 0 =>
      cases h
      exact Scope.holding_coherent none (by decide)
  | 1 =>
      cases h
      exact Scope.empty_coherent (some 0)
  | id + 2 => cases h

theorem values_initial :
    initial.values 0 = Members.ofList (Primitive.all.map fun p => (p.name, .prim p)) := rfl

end Store

end TypedSexp
