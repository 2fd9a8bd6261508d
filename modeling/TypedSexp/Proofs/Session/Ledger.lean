import TypedSexp.Proofs.Session.History

namespace TypedSexp

open Store (programScope)

namespace Store

structure Defines (s : Store) (names : List Name) : Prop where
  lt_size : programScope < s.size
  listed : s.names programScope = names
  coherent : ∀ scope, s.scope? programScope = some scope → scope.Coherent

variable {s s' : Store} {range : Range} {name : Name} {v : Value} {names : List Name}

theorem Defines.of_extends (h : s.Defines names) (hs : s.Extends s') : s'.Defines names where
  lt_size := Nat.lt_of_lt_of_le h.lt_size hs.size_le
  listed := (hs.names_eq h.lt_size).trans h.listed
  coherent scope hscope := h.coherent scope (hs.scope?_eq _ h.lt_size ▸ hscope)

theorem Defines.mem_iff (h : s.Defines names) :
    name ∈ names ↔ s.owns programScope name = true := by
  obtain ⟨scope, hscope⟩ := exists_scope h.lt_size
  have hkeys := (h.coherent scope hscope).keys name
  have hnames : s.names programScope = scope.names := by simp [Store.names, hscope]
  have howns : s.owns programScope name = scope.owns name := by simp [owns, hscope]
  rw [howns, Scope.owns_iff, ← hkeys, ← hnames, h.listed]

theorem Defines.names_bindings (h : s.Defines names) :
    Members.names (s.bindings programScope) = names := by
  obtain ⟨scope, hscope⟩ := exists_scope h.lt_size
  have hbindings : s.bindings programScope = scope.bindings := by simp [bindings, hscope]
  have hnames : s.names programScope = scope.names := by simp [Store.names, hscope]
  rw [hbindings, (h.coherent scope hscope).names_bindings, ← hnames, h.listed]

theorem Defines.define (h : s.Defines names)
    (hdefine : s.define programScope range name v = .ok s') :
    s'.Defines (names ++ [name]) ∧ name ∉ names := by
  have howns := (define_ok hdefine).1
  refine ⟨⟨?_, ?_, fun scope hscope => ?_⟩, ?_⟩
  · rw [size_define hdefine]
    exact h.lt_size
  · rw [names_define_self h.lt_size hdefine, h.listed]
  · rw [(define_ok hdefine).2, scope?_modifyScope, if_pos rfl] at hscope
    obtain ⟨old, hold, rfl⟩ := Option.map_eq_some_iff.mp hscope
    exact (h.coherent old hold).add (by simpa [owns, hold] using howns)
  · rw [h.mem_iff, howns]
    exact Bool.false_ne_true

theorem Defines.update (h : s.Defines names) {id : Nat} (hupdate : s.update id name v = .ok s') :
    s'.Defines names := by
  have hlisted := (names_update hupdate programScope).trans h.listed
  obtain ⟨owner, howner, rfl⟩ := update_ok hupdate
  refine ⟨?_, hlisted, fun scope hscope => ?_⟩
  · rw [size_modifyScope]
    exact h.lt_size
  · rw [scope?_modifyScope] at hscope
    split at hscope
    case isTrue heq =>
      obtain ⟨old, hold, rfl⟩ := Option.map_eq_some_iff.mp hscope
      refine (h.coherent old hold).set ?_
      simpa [owns, ← heq, hold] using owner?_owns howner
    case isFalse => exact h.coherent scope hscope

end Store

theorem Stmt.check_ok {stmt : Stmt} {Γ Δ : Context} (h : stmt.check Γ = .ok Δ) :
    (∃ d t, stmt.definition? Γ = some d ∧ d.value.infer d.context = .ok t ∧
      Δ = Γ.extend d.name t) ∨ stmt.definition? Γ = none ∧ Δ = Γ := by
  cases stmt with
  | define range name value =>
      obtain ⟨t, ht, rfl⟩ := check_define_ok h
      exact .inl ⟨⟨Γ, name, value⟩, t, rfl, ht, rfl⟩
  | assign range target value =>
      simp only [check, Except.bind_eq_ok_iff] at h
      obtain ⟨found, -, h⟩ := h
      split at h
      · split at h
        · split at h
          · cases h
            exact .inr ⟨rfl, rfl⟩
          · simp [Expr.mismatch] at h
        · simp at h
      · simp at h
  | print range value =>
      obtain ⟨t, -, rfl⟩ := check_print_ok h
      exact .inr ⟨rfl, rfl⟩

theorem Stmt.exec_defines (stmt : Stmt) (fuel : Nat) (Γ : Context) {s : Store}
    {names : List Name} (h : s.Defines names) :
    Run.Ensures (stmt.exec fuel programScope) s
      (fun _ s' => s'.Defines (names ++ (stmt.definition? Γ).toList.map Definition.name) ∧
        ∀ d ∈ stmt.definition? Γ, d.name ∉ names)
      fun _ s' => s'.Defines names := by
  have heval (value : Expr) : Run.Ensures (value.eval fuel programScope) s
      (fun _ s' => s'.Defines names) fun _ s' => s'.Defines names :=
    (value.eval_keeps fuel programScope s).mono (fun _ _ => h.of_extends) fun _ _ => h.of_extends
  cases stmt with
  | define range name value =>
      simp only [exec, Run.ensures_bind, Run.ensures_change, Run.ensures_pure]
      refine (heval value).imp fun v s' hs' => ?_
      cases hdefine : s'.define programScope range name v with
      | error d => exact hs'
      | ok s'' => simpa [definition?] using hs'.define hdefine
  | assign range target value =>
      simp only [exec, Run.ensures_bind]
      refine (heval value).imp fun v s' hs' => ?_
      split
      case h_1 targetRange name =>
        simp only [Run.ensures_bind, Run.ensures_get]
        split
        · simp only [Run.ensures_bind, Run.ensures_change, Run.ensures_pure]
          cases hupdate : s'.update programScope name v with
          | error d => exact hs'
          | ok s'' => simpa [definition?] using hs'.update hupdate
        · exact hs'
      case h_2 => exact hs'
  | print range value =>
      simp only [exec, Run.ensures_bind, Run.ensures_pure]
      refine (heval value).imp fun v s' hs' => ?_
      simpa [definition?] using hs'

namespace Session

structure Recorded (made : List Definition) (s : Session) : Prop where
  checking : s.checking = true
  defines : s.store.Defines (made.map Definition.name)
  distinct : (made.map Definition.name).Nodup
  bound : ∀ x, (∃ t, s.context.lookup? x = some t) ↔
    (∃ p : Primitive, x = p.name) ∨ x ∈ made.map Definition.name
  typed : ∀ d ∈ made, ∃ t, d.value.infer d.context = .ok t ∧ s.context.lookup? d.name = some t

theorem recorded_fresh : Recorded [] fresh where
  checking := rfl
  defines := ⟨by decide, rfl, Store.initial_coherent programScope⟩
  distinct := List.nodup_nil
  bound x := by
    constructor
    · rintro ⟨t, ht⟩
      obtain ⟨p, hp, -⟩ := Context.primitive_of_lookup?_initial ht
      exact .inl ⟨p, hp⟩
    · rintro (⟨p, rfl⟩ | hx)
      · exact ⟨p.signature, Context.lookup?_initial p⟩
      · simp at hx
  typed := by simp

theorem Recorded.define {made : List Definition} {s : Session} (h : Recorded made s)
    {d : Definition} {t : Ty} {store : Store}
    (hdefines : store.Defines (made.map Definition.name ++ [d.name]))
    (hfresh : d.name ∉ made.map Definition.name) (ht : d.value.infer d.context = .ok t) :
    Recorded (made ++ [d]) { s with store := store, context := s.context.extend d.name t } := by
  constructor
  case checking => exact h.checking
  case defines => simpa using hdefines
  case distinct =>
    rw [List.map_append, List.nodup_append]
    refine ⟨h.distinct, by simp, fun a ha b hb => ?_⟩
    rintro rfl
    exact hfresh (by simpa [List.mem_singleton.mp hb] using ha)
  case bound =>
    intro x
    simp only [Context.lookup?_extend, List.map_append, List.mem_append]
    by_cases hx : x = d.name
    · simp [hx]
    · simpa [hx] using h.bound x
  case typed =>
    intro d' hd'
    rcases List.mem_append.mp hd' with hd' | hd'
    · obtain ⟨u, hu, hlookup⟩ := h.typed d' hd'
      have hne : d'.name ≠ d.name := by
        intro heq
        exact hfresh (heq ▸ List.mem_map_of_mem hd')
      exact ⟨u, hu, by rw [Context.lookup?_extend, if_neg hne, hlookup]⟩
    · obtain rfl := List.mem_singleton.mp hd'
      exact ⟨t, ht, by rw [Context.lookup?_extend, if_pos rfl]⟩

theorem Recorded.of_defines {made : List Definition} {s : Session} (h : Recorded made s)
    {store : Store} (hdefines : store.Defines (made.map Definition.name)) :
    Recorded made { s with store := store } :=
  ⟨h.checking, hdefines, h.distinct, h.bound, h.typed⟩

theorem recorded_invariant : Invariant Recorded where
  checking h := h.checking
  frame h hs := h.of_defines (h.defines.of_extends hs)
  exec {made s stmt Δ} fuel h _ hcheck := by
    refine (stmt.exec_defines fuel s.context h.defines).mono ?_ ?_
    · rintro - store ⟨hdefines, hfresh⟩
      rcases Stmt.check_ok hcheck with ⟨d, t, hd, ht, rfl⟩ | ⟨hd, rfl⟩
      · rw [hd] at hdefines ⊢
        exact h.define (by simpa using hdefines) (hfresh d hd) ht
      · rw [hd] at hdefines ⊢
        simpa using h.of_defines (by simpa using hdefines)
    · rintro - store hdefines
      exact h.of_defines hdefines

theorem context_agrees_with_bindings (calls : List Call) :
    (∀ x, (∃ t, (fresh.after calls).context.lookup? x = some t) ↔
      (∃ p : Primitive, x = p.name) ∨ ∃ v, (x, v) ∈ (fresh.after calls).store.bindings programScope) ∧
    (((fresh.after calls).store.bindings programScope).map Prod.fst =
      (fresh.ledger calls).map Definition.name) ∧
    ((fresh.ledger calls).map Definition.name).Nodup ∧
    (∀ d ∈ fresh.ledger calls, ∃ t, d.value.infer d.context = .ok t ∧
      (fresh.after calls).context.lookup? d.name = some t) ∧
    ∀ binding ∈ (fresh.after calls).bindings, ∃ t, binding.type = some t := by
  have h := recorded_invariant.after recorded_fresh calls
  have hnames : ((fresh.after calls).store.bindings programScope).map Prod.fst =
      (fresh.ledger calls).map Definition.name := h.defines.names_bindings
  refine ⟨fun x => ?_, hnames, h.distinct, h.typed, ?_⟩
  · rw [h.bound, ← hnames, List.mem_map]
    simp
  · intro binding hbinding
    obtain ⟨⟨x, v⟩, hmem, rfl⟩ := List.mem_map.mp hbinding
    have hx : x ∈ (fresh.ledger calls).map Definition.name :=
      hnames ▸ List.mem_map_of_mem hmem
    obtain ⟨t, ht⟩ := (h.bound x).mpr (.inr hx)
    exact ⟨t, by simp [h.checking, ht]⟩

end Session

end TypedSexp
