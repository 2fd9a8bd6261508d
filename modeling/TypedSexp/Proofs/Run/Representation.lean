import Mathlib.Logic.Relation
import TypedSexp.Proofs.Run.Writes

namespace TypedSexp

open Store (programScope)

namespace Store

variable {s s' s₁ s₂ : Store} {id : Nat} {name : Name} {entries new : List (Nat × Name)}

def namesIn (entries : List (Nat × Name)) (id : Nat) : List Name :=
  (entries.filter (·.1 = id)).map Prod.snd

theorem namesIn_append (entries new : List (Nat × Name)) (id : Nat) :
    namesIn (entries ++ new) id = namesIn entries id ++ namesIn new id := by
  simp [namesIn]

theorem namesIn_map (names : List Name) (i id : Nat) :
    namesIn (names.map (i, ·)) id = if i = id then names else [] := by
  by_cases hi : i = id <;> simp [namesIn, List.filter_map, Function.comp_def, hi]

inductive Edit (s : Store) : List (Nat × Name) → Store → Prop
  | scope {outer : Nat} (bindings : List (Name × Value)) :
      outer < s.size →
      Edit s ((Members.names bindings).map (s.size, ·)) (s.newScope (some outer) bindings).2
  | define {id : Nat} {range : Range} {name : Name} {v : Value} {s' : Store} :
      id < s.size → s.define id range name v = .ok s' → Edit s [(id, name)] s'
  | update {id : Nat} {name : Name} {v : Value} {s' : Store} :
      s.update id name v = .ok s' → Edit s [] s'

inductive Edits : Store → List (Nat × Name) → Store → Prop
  | refl {s : Store} : Edits s [] s
  | tail {s s₁ s₂ : Store} {entries new : List (Nat × Name)} :
      Edits s entries s₁ → Edit s₁ new s₂ → Edits s (entries ++ new) s₂

theorem Edit.edits (h : s.Edit new s') : s.Edits new s' := by
  simpa using Edits.refl.tail h

theorem Edits.trans (h : s.Edits entries s₁) (h' : s₁.Edits new s₂) :
    s.Edits (entries ++ new) s₂ := by
  induction h' with
  | refl => simpa using h
  | tail _ hedit ih =>
      rw [← List.append_assoc]
      exact ih.tail hedit

theorem names_of_ge (h : s.size ≤ id) : s.names id = [] := by
  simp [names, scope?_eq_none_iff.mpr h]

theorem names_newScope_of_ne (s : Store) (parent : Option Nat)
    (bindings : List (Name × Value)) {id : Nat} (h : id ≠ s.size) :
    (s.newScope parent bindings).2.names id = s.names id := by
  simp [names, scope?_newScope, h]

theorem Edit.names_eq (h : s.Edit new s') (id : Nat) :
    s'.names id = s.names id ++ namesIn new id := by
  cases h with
  | @scope outer bindings _ =>
      rw [namesIn_map]
      by_cases hid : id = s.size
      · subst hid
        rw [names_newScope_self, names_of_ge (Nat.le_refl _), if_pos rfl, List.nil_append]
      · rw [names_newScope_of_ne s _ _ hid, if_neg (Ne.symm hid), List.append_nil]
  | @define i range name v s' hi hdefine =>
      change _ = _ ++ namesIn ([name].map (i, ·)) id
      rw [namesIn_map]
      by_cases hid : i = id
      · subst hid
        rw [names_define_self hi hdefine, if_pos rfl]
      · rw [names_define_of_ne hdefine (Ne.symm hid), if_neg hid, List.append_nil]
  | update hupdate =>
      rw [names_update hupdate]
      simp [namesIn]

theorem Edits.names_eq (h : s.Edits new s') (id : Nat) :
    s'.names id = s.names id ++ namesIn new id := by
  induction h with
  | refl => simp [namesIn]
  | tail _ hedit ih => rw [hedit.names_eq, ih, namesIn_append, List.append_assoc]

structure Arranged (s : Store) : Prop where
  root : 0 < s.size
  parentless : ∀ {id : Nat}, id < s.size → (s.parent? id = none ↔ id = 0)

theorem Edit.arranged (h : s.Edit new s') (hs : s.Arranged) : s'.Arranged where
  root := by
    cases h with
    | scope =>
        rw [size_newScope]
        exact Nat.succ_pos _
    | define _ hdefine =>
        rw [size_define hdefine]
        exact hs.root
    | update hupdate =>
        rw [size_update hupdate]
        exact hs.root
  parentless {i} hi := by
    cases h with
    | @scope outer bindings _ =>
        have hroot := hs.root
        rw [size_newScope] at hi
        by_cases hlast : i = s.size
        · have hparent : (s.newScope (some outer) bindings).2.parent? i = some outer := by
            simp [parent?, scope?_newScope, hlast, Scope.holding_eq]
          rw [hparent]
          simp only [reduceCtorEq, false_iff]
          omega
        · have hparent : (s.newScope (some outer) bindings).2.parent? i = s.parent? i := by
            simp [parent?, scope?_newScope, hlast]
          rw [hparent]
          exact hs.parentless (by omega)
    | define _ hdefine =>
        rw [size_define hdefine] at hi
        rw [parent?_define hdefine]
        exact hs.parentless hi
    | update hupdate =>
        rw [size_update hupdate] at hi
        rw [parent?_update hupdate]
        exact hs.parentless hi

theorem Edits.arranged (h : s.Edits new s') (hs : s.Arranged) : s'.Arranged := by
  induction h with
  | refl => exact hs
  | tail _ hedit ih => exact hedit.arranged ih

theorem root_arranged : root.Arranged where
  root := by decide
  parentless {id} hid := by
    obtain rfl : id = 0 := by
      change id < 1 at hid
      omega
    exact iff_of_true rfl rfl

theorem initial_arranged : initial.Arranged where
  root := by decide
  parentless {id} hid := by
    match id with
    | 0 => exact iff_of_true rfl rfl
    | 1 => exact iff_of_false (by decide) (by decide)
    | id + 2 =>
        change id + 2 < 2 at hid
        omega

inductive Search (s : Store) (name : Name) : Nat → Option Nat → Prop
  | found {id : Nat} {scope : Scope} :
      s.scope? id = some scope → name ∈ Members.names scope.values → Search s name id (some id)
  | missing {id : Nat} {scope : Scope} :
      s.scope? id = some scope → name ∉ Members.names scope.values → scope.parent = none →
      Search s name id none
  | outwards {id outer : Nat} {scope : Scope} {result : Option Nat} :
      s.scope? id = some scope → name ∉ Members.names scope.values → scope.parent = some outer →
      Search s name outer result → Search s name id result

theorem Linked.search (hs : s.Linked) (hid : id < s.size) (name : Name) :
    s.Search name id (s.owner? name id) := by
  induction id using Nat.strongRecOn with
  | ind id ih =>
      obtain ⟨scope, hscope⟩ := exists_scope hid
      have hvalues : s.values id = scope.values := by simp [values, hscope]
      have hparent : s.parent? id = scope.parent := by simp [parent?, hscope]
      rw [owner?]
      by_cases hname : name ∈ Members.names scope.values
      · rw [if_pos (owns_iff.mpr (hvalues ▸ hname))]
        exact .found hscope hname
      · rw [if_neg fun howns => hname (hvalues ▸ owns_iff.mp howns)]
        cases houter : scope.parent with
        | none =>
            rw [hparent, houter]
            exact .missing hscope hname houter
        | some outer =>
            have hlt := hs.parent (hparent.trans houter)
            simp only [hparent, houter, hlt, if_true]
            exact .outwards hscope hname houter (ih outer hlt (Nat.lt_trans hlt hid))

end Store

def Activation.entries (first : Nat) : List Activation → List (Nat × Name)
  | [] => []
  | call :: rest => (first, call.param) :: entries (first + 1) rest

namespace Stmt

def declared : Stmt → List Name
  | .define _ name _ => [name]
  | _ => []

def entries (fuel id : Nat) (stmt : Stmt) (s : Store) : List (Nat × Name) :=
  Activation.entries s.size (stmt.value.activations fuel id s) ++
    match (stmt.exec fuel id).startingFrom s with
    | (.ok _, _) => stmt.declared.map (id, ·)
    | (.error _, _) => []

end Stmt

def Script.entries (fuel id : Nat) : Script → Store → List (Nat × Name)
  | [], _ => []
  | stmt :: rest, s =>
      stmt.entries fuel id s ++ match (stmt.exec fuel id).startingFrom s with
        | (.ok _, s') => entries fuel id rest s'
        | (.error _, _) => []

section edits

variable {s s' : Store} {id : Nat}

theorem Store.Grown.edits {calls : List Activation} (h : s.Grown calls s') :
    s.Edits (Activation.entries s.size calls) s' := by
  induction calls generalizing s with
  | nil =>
      obtain rfl : s' = s := by
        have hscopes := h.scopes
        rcases s with ⟨scopes⟩
        rcases s' with ⟨scopes'⟩
        simpa using hscopes
      exact .refl
  | cons call rest ih =>
      have hfirst := Edit.scope [(call.param, call.argument)] (h.captured 0 call rfl)
      have hrest : (s.newScope (some call.captured) [(call.param, call.argument)]).2.Grown rest
          s' := by
        constructor
        · simpa [newScope, Activation.scope, Scope.holding_single] using h.scopes
        · intro i next hnext
          have hlt := h.captured (i + 1) next (by simpa using hnext)
          rw [size_newScope]
          omega
      have hrest := ih hrest
      rw [size_newScope] at hrest
      exact hfirst.edits.trans hrest

theorem Stmt.Writes.edits {v : Value} {stmt : Stmt} (h : stmt.Writes id v s s')
    (hid : id < s.size) : s.Edits (stmt.declared.map (id, ·)) s' := by
  cases h with
  | @define range name value howns =>
      have hdefine : s.define id range name v = .ok (s.modifyScope id (·.add name v)) := by
        simp [Store.define, howns]
      exact (Store.Edit.define hid hdefine).edits
  | @assign range place name value owner howner =>
      rw [← Store.owner?_eq_find?_chain] at howner
      have hupdate : s.update id name v = .ok (s.modifyScope owner (·.set name v)) := by
        simp [Store.update, howner]
      exact (Store.Edit.update hupdate).edits
  | print => exact .refl

theorem Stmt.exec_edits (fuel : Nat) (stmt : Stmt) (hs : s.Linked) (hid : id < s.size) :
    s.Edits (stmt.entries fuel id s) ((stmt.exec fuel id).startingFrom s).2 := by
  have hgrown := stmt.value.eval_grows fuel hs hid
  have heffect := stmt.exec_effect fuel id s
  rw [entries]
  rcases hexec : (stmt.exec fuel id).startingFrom s with ⟨halt | line, s'⟩
  · obtain rfl := heffect.of_error hexec
    simpa using hgrown.edits
  · obtain ⟨v, s₁, hvalue, hwrites⟩ := heffect.of_ok hexec
    rw [hvalue] at hgrown
    have hle := (Store.Extends.of_scopes hgrown.scopes).size_le
    exact hgrown.edits.trans (hwrites.edits (Nat.lt_of_lt_of_le hid hle))

theorem Script.exec_edits (fuel : Nat) (script : Script) (hs : s.Linked) (hid : id < s.size) :
    s.Edits (script.entries fuel id s) ((script.exec fuel id).startingFrom s).2 := by
  induction script generalizing s with
  | nil => exact .refl
  | cons stmt rest ih =>
      have hstmt := stmt.exec_edits fuel hs hid
      have hhandles := stmt.exec_handles fuel hs hid
      rw [exec, Run.startingFrom_bind, entries]
      rcases hexec : (stmt.exec fuel id).startingFrom s with ⟨halt | line, s₁⟩
      · rw [hexec] at hstmt
        simpa using hstmt
      · rw [hexec] at hstmt
        obtain ⟨hle, hs₁, -⟩ := hhandles.of_ok hexec
        have hrest := hstmt.trans (ih hs₁ (Nat.lt_of_lt_of_le hid hle))
        simp only [Run.startingFrom_bind]
        rcases hexec' : (exec fuel id rest).startingFrom s₁ with ⟨halt | lines, s₂⟩
        · rwa [hexec'] at hrest
        · rwa [hexec'] at hrest

end edits

theorem Run.change_cases {f : Store → Except Diagnostic Store} {s store : Store}
    {result : Except Halt Unit} (h : (Run.change f).startingFrom s = (result, store)) :
    f s = .ok store ∧ result = .ok () ∨
      ∃ d, f s = .error d ∧ result = .error (.fault d) ∧ store = s := by
  rw [Run.startingFrom_change] at h
  cases hf : f s with
  | ok s' =>
      simp only [hf, Prod.mk.injEq] at h
      obtain ⟨rfl, rfl⟩ := h
      exact .inl ⟨rfl, rfl⟩
  | error d =>
      simp only [hf, Prod.mk.injEq] at h
      obtain ⟨rfl, rfl⟩ := h
      exact .inr ⟨d, rfl, rfl, rfl⟩

/-- A store in use through any of its scopes, with the values that evaluation in it has given and
the bindings made in it, oldest first. -/
structure Usage where
  store : Store
  values : List Value
  entries : List (Nat × Name)

namespace Usage

def empty : Usage := ⟨Store.root, [], []⟩

def initial : Usage := ⟨Store.initial, [], Primitive.all.map fun p => (0, p.name)⟩

/-- One use of a store. It goes through a scope `h` that the store has, however the user came by its
number: as a new scope, as the one around another, or from a function. -/
inductive Step : Usage → Usage → Prop
  | child {u : Usage} {h : Nat} :
      h < u.store.size → Step u ⟨(u.store.newScope (some h) []).2, u.values, u.entries⟩
  | extend {u : Usage} {h : Nat} {name : Name} {v : Value} :
      h < u.store.size → v ∈ u.values →
      Step u ⟨(u.store.newScope (some h) [(name, v)]).2, u.values,
        u.entries ++ [(u.store.size, name)]⟩
  | define {u : Usage} {h : Nat} {range : Range} {name : Name} {v : Value}
      {result : Except Halt Unit} {store : Store} :
      h < u.store.size → v ∈ u.values →
      (Run.change (·.define h range name v)).startingFrom u.store = (result, store) →
      Step u ⟨store, u.values, u.entries ++ result.toOption.toList.map fun _ => (h, name)⟩
  | update {u : Usage} {h : Nat} {name : Name} {v : Value} {result : Except Halt Unit}
      {store : Store} :
      h < u.store.size → v ∈ u.values →
      (Run.change (·.update h name v)).startingFrom u.store = (result, store) →
      Step u ⟨store, u.values, u.entries⟩
  | evaluate {u : Usage} {h fuel : Nat} {e : Expr} {result : Except Halt Value} {store : Store} :
      h < u.store.size → (e.eval fuel h).startingFrom u.store = (result, store) →
      Step u ⟨store, result.toOption.toList ++ u.values,
        u.entries ++ Activation.entries u.store.size (e.activations fuel h u.store)⟩
  | execute {u : Usage} {h fuel : Nat} {script : Script} {result : Except Halt (List Text)}
      {store : Store} :
      h < u.store.size → (script.exec fuel h).startingFrom u.store = (result, store) →
      Step u ⟨store, u.values, u.entries ++ script.entries fuel h u.store⟩

abbrev Steps : Usage → Usage → Prop := Relation.ReflTransGen Step

def Reachable (u : Usage) : Prop := Steps empty u ∨ Steps initial u

structure Valid (u : Usage) : Prop where
  linked : u.store.Linked
  values : ∀ v ∈ u.values, v.Within u.store.size

theorem empty_valid : empty.Valid where
  linked := Store.root_linked
  values := by simp [empty]

theorem initial_valid : initial.Valid where
  linked := Store.initial_sound.toLinked
  values := by simp [initial]

variable {u u' : Usage}

theorem Step.valid (hstep : Step u u') (hu : u.Valid) : u'.Valid := by
  have hlater {store : Store} (hle : u.store.size ≤ store.size) :
      ∀ v ∈ u.values, v.Within store.size := by
    intro v hv
    exact (hu.values v hv).mono hle
  cases hstep with
  | child hh => exact ⟨hu.linked.newScope hh (by simp) List.nodup_nil,
      hlater (Store.Extends.newScope ..).size_le⟩
  | extend hh hv =>
      exact ⟨hu.linked.newScope hh (by simpa using hu.values _ hv) (by simp [Members.names]),
        hlater (Store.Extends.newScope ..).size_le⟩
  | @define h range name v result store hh hv hresult =>
      rcases Run.change_cases hresult with ⟨hdefine, rfl⟩ | ⟨d, hdefine, rfl, rfl⟩
      · exact ⟨hu.linked.define (hu.values v hv) hdefine,
          hlater (Nat.le_of_eq (Store.size_define hdefine).symm)⟩
      · exact ⟨hu.linked, hu.values⟩
  | @update h name v result store hh hv hresult =>
      rcases Run.change_cases hresult with ⟨hupdate, rfl⟩ | ⟨d, hupdate, rfl, rfl⟩
      · exact ⟨hu.linked.update (hu.values v hv) hupdate,
          hlater (Nat.le_of_eq (Store.size_update hupdate).symm)⟩
      · exact ⟨hu.linked, hu.values⟩
  | @evaluate h fuel e result store hh hresult =>
      have hhandles := e.eval_handles fuel hu.linked hh
      cases result with
      | error halt =>
          obtain ⟨hle, hlinked⟩ := hhandles.of_error hresult
          exact ⟨hlinked, hlater hle⟩
      | ok v =>
          obtain ⟨hle, hlinked, hv⟩ := hhandles.of_ok hresult
          exact ⟨hlinked, List.forall_mem_cons.mpr ⟨hv, hlater hle⟩⟩
  | @execute h fuel script result store hh hresult =>
      have hhandles := script.exec_handles fuel hu.linked hh
      cases result with
      | error halt =>
          obtain ⟨hle, hlinked⟩ := hhandles.of_error hresult
          exact ⟨hlinked, hlater hle⟩
      | ok lines =>
          obtain ⟨hle, hlinked, -⟩ := hhandles.of_ok hresult
          exact ⟨hlinked, hlater hle⟩

theorem Step.edits (hstep : Step u u') (hu : u.Valid) :
    ∃ new, u'.entries = u.entries ++ new ∧ u.store.Edits new u'.store := by
  cases hstep with
  | child hh =>
      have hedit := Store.Edit.scope [] hh
      exact ⟨[], by simp, hedit.edits⟩
  | @extend h name v hh _ =>
      have hedit := Store.Edit.scope [(name, v)] hh
      exact ⟨_, rfl, hedit.edits⟩
  | @define h range name v result store hh _ hresult =>
      refine ⟨_, rfl, ?_⟩
      rcases Run.change_cases hresult with ⟨hdefine, rfl⟩ | ⟨d, hdefine, rfl, rfl⟩
      · exact (Store.Edit.define hh hdefine).edits
      · exact .refl
  | @update h name v result store _ _ hresult =>
      refine ⟨[], by simp, ?_⟩
      rcases Run.change_cases hresult with ⟨hupdate, rfl⟩ | ⟨d, hupdate, rfl, rfl⟩
      · exact (Store.Edit.update hupdate).edits
      · exact .refl
  | @evaluate h fuel e result store hh hresult =>
      have hgrown := e.eval_grows fuel hu.linked hh
      rw [hresult] at hgrown
      exact ⟨_, rfl, hgrown.edits⟩
  | @execute h fuel script result store hh hresult =>
      have hedits := script.exec_edits fuel hu.linked hh
      rw [hresult] at hedits
      exact ⟨_, rfl, hedits⟩

theorem Steps.valid_and_edits (hsteps : Steps u u') (hu : u.Valid) :
    u'.Valid ∧ ∃ new, u'.entries = u.entries ++ new ∧ u.store.Edits new u'.store := by
  induction hsteps with
  | refl => exact ⟨hu, [], by simp, .refl⟩
  | tail _ hstep ih =>
      obtain ⟨hvalid, new, hentries, hedits⟩ := ih
      obtain ⟨new', hentries', hedits'⟩ := hstep.edits hvalid
      refine ⟨hstep.valid hvalid, new ++ new', ?_, hedits.trans hedits'⟩
      rw [hentries', hentries, List.append_assoc]

def InOrder (u : Usage) : Prop := ∀ id, u.store.names id = Store.namesIn u.entries id

theorem empty_inOrder : empty.InOrder := by
  intro id
  match id with
  | 0 => rfl
  | id + 1 => rfl

theorem initial_inOrder : initial.InOrder := by
  intro id
  match id with
  | 0 => rfl
  | 1 => rfl
  | id + 2 =>
      simp only [initial, Store.namesIn]
      rfl

theorem Reachable.layout (hu : u.Reachable) : u.Valid ∧ u.store.Arranged ∧ u.InOrder := by
  have hgeneral {start : Usage} (hvalid : start.Valid) (harranged : start.store.Arranged)
      (horder : start.InOrder) (hsteps : Steps start u) :
      u.Valid ∧ u.store.Arranged ∧ u.InOrder := by
    obtain ⟨hvalid', new, hentries, hedits⟩ := Steps.valid_and_edits hsteps hvalid
    refine ⟨hvalid', hedits.arranged harranged, ?_⟩
    intro id
    rw [hedits.names_eq, horder, hentries, Store.namesIn_append]
  rcases hu with hsteps | hsteps
  · exact hgeneral empty_valid Store.root_arranged empty_inOrder hsteps
  · exact hgeneral initial_valid Store.initial_arranged initial_inOrder hsteps

theorem layout_is_kept (hu : u.Reachable) :
    u.store.Arranged ∧ u.store.Linked ∧
    (∀ id, (u.store.names id).Nodup ∧ Members.Ordered (u.store.values id) ∧
      ∀ name, name ∈ u.store.names id ↔ name ∈ Members.names (u.store.values id)) ∧
    (∀ id, Members.names (u.store.bindings id) = u.store.names id ∧
      ∀ name v, (name, v) ∈ u.store.bindings id ↔ (u.store.values id).lookup name = some v) ∧
    u.InOrder ∧
    (∀ id < u.store.size, ∀ name, u.store.Search name id (u.store.owner? name id)) ∧
    ∀ u', Steps u u' → ∀ id, u.store.names id <+: u'.store.names id := by
  obtain ⟨hvalid, harranged, horder⟩ := hu.layout
  have hcoherent := hvalid.linked.coherent
  refine ⟨harranged, hvalid.linked, ?_, ?_, horder, ?_, ?_⟩
  · intro id
    exact ⟨hcoherent.nodup id, hcoherent.ordered id, fun name => hcoherent.mem_names_iff⟩
  · intro id
    exact ⟨hcoherent.names_bindings id, fun name v => hcoherent.mem_bindings_iff⟩
  · intro id hid name
    exact hvalid.linked.search hid name
  · intro u' hsteps id
    obtain ⟨-, new, -, hedits⟩ := Steps.valid_and_edits hsteps hvalid
    rw [hedits.names_eq]
    exact List.prefix_append _ _

theorem layout_is_kept_call :
    ∃ u : Usage, u.Reachable ∧ u.store.size = 3 ∧
      u.store.names 1 = [utf8 "f", utf8 "g"] ∧ u.store.names 2 = [utf8 "x"] ∧
      u.store.Arranged ∧ u.store.Linked ∧ u.store.Search (utf8 "f") 2 (some 1) := by
  let script : Script :=
    [.define Range.none (utf8 "f")
        (.lambda Range.none (utf8 "x") .nat (.var Range.none (utf8 "x"))),
      .define Range.none (utf8 "g")
        (.apply Range.none (.var Range.none (utf8 "f")) [.num Range.none 5])]
  have hreachable : Reachable ⟨((script.exec 2 programScope).startingFrom Store.initial).2, [],
      initial.entries ++ script.entries 2 programScope Store.initial⟩ :=
    .inr (.single (.execute (by decide) rfl))
  obtain ⟨harranged, hlinked, -, -, horder, hsearch, -⟩ := layout_is_kept hreachable
  refine ⟨_, hreachable, rfl, ?_, ?_, harranged, hlinked, hsearch 2 (by decide) (utf8 "f")⟩
  · exact (horder 1).trans rfl
  · exact (horder 2).trans rfl

end Usage

end TypedSexp
