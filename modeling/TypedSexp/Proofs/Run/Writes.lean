import TypedSexp.Proofs.Run.Handles

namespace TypedSexp

namespace Store

variable {s s' s₁ s₂ : Store} {id : Nat} {name : Name}

def chain (s : Store) (id : Nat) : List Nat :=
  id :: match s.parent? id with
    | none => []
    | some outer => if outer < id then s.chain outer else []
termination_by id

theorem mem_chain_self (s : Store) (id : Nat) : id ∈ s.chain id := by
  rw [chain]
  exact List.mem_cons_self

theorem chain_of_parent {outer : Nat} (h : s.parent? id = some outer) (hlt : outer < id) :
    s.chain id = id :: s.chain outer := by
  rw [chain, h]
  simp only [hlt, if_true]

theorem owner?_eq_find?_chain (s : Store) (name : Name) (id : Nat) :
    s.owner? name id = (s.chain id).find? (s.owns · name) := by
  induction id using Nat.strongRecOn with
  | ind id ih =>
      rw [owner?, chain, List.find?_cons]
      cases s.owns id name with
      | true => rfl
      | false =>
          simp only [Bool.false_eq_true, if_false]
          cases s.parent? id with
          | none => rfl
          | some outer =>
              by_cases houter : outer < id
              · simp only [houter, if_true, ih outer houter]
              · simp [houter]

theorem le_of_mem_chain {i : Nat} (h : i ∈ s.chain id) : i ≤ id := by
  induction id using Nat.strongRecOn with
  | ind id ih =>
      rw [chain] at h
      rcases List.mem_cons.mp h with rfl | hmem
      · exact Nat.le_refl _
      · cases hparent : s.parent? id with
        | none => simp [hparent] at hmem
        | some outer =>
            by_cases houter : outer < id
            · simp only [hparent, houter, if_true] at hmem
              exact Nat.le_of_lt (Nat.lt_of_le_of_lt (ih outer houter hmem) houter)
            · simp [hparent, houter] at hmem

theorem chain_congr (h : ∀ i ≤ id, s'.parent? i = s.parent? i) : s'.chain id = s.chain id := by
  induction id using Nat.strongRecOn with
  | ind id ih =>
      rw [chain, chain, h id (Nat.le_refl id)]
      cases s.parent? id with
      | none => rfl
      | some outer =>
          by_cases houter : outer < id
          · simp only [houter, if_true]
            rw [ih outer houter fun i hi => h i (by omega)]
          · simp only [houter, if_false]

theorem Extends.chain_eq (h : s.Extends s') {i : Nat} (hi : i < s.size) :
    s'.chain i = s.chain i := by
  refine chain_congr fun j hj => ?_
  simp only [parent?, h.scope?_eq j (Nat.lt_of_le_of_lt hj hi)]

theorem chain_newScope {captured : Nat} (hcaptured : captured < s.size)
    (bindings : List (Name × Value)) :
    (s.newScope (some captured) bindings).2.chain s.size = s.size :: s.chain captured := by
  have hparent : (s.newScope (some captured) bindings).2.parent? s.size = some captured := by
    simp [parent?, scope?_newScope_self, Scope.holding_eq]
  have hextends := Extends.newScope s (some captured) bindings
  rw [chain_of_parent hparent hcaptured, hextends.chain_eq hcaptured]

theorem mem_chain_of_owner? {owner : Nat} (h : s.owner? name id = some owner) :
    owner ∈ s.chain id := by
  rw [owner?_eq_find?_chain] at h
  exact List.mem_of_find?_eq_some h

structure Grown (s : Store) (calls : List Activation) (s' : Store) : Prop where
  scopes : s'.scopes = s.scopes ++ (calls.map Activation.scope).toArray
  captured : ∀ i call, calls[i]? = some call → call.captured < s.size + i

/-- How a store changes while a program runs in scope `id`: the scopes of the calls are new and hold
what they were made with, bindings are added to scope `id` alone, and a binding of the chain has
another value only if its name is among those `assigned`. -/
structure Course (id : Nat) (assigned : List Name) (s : Store) (calls : List Activation)
    (s' : Store) : Prop where
  size : s'.size = s.size + calls.length
  made : ∀ i call, calls[i]? = some call → s'.scope? (s.size + i) = some call.scope
  parent : ∀ i < s.size, s'.parent? i = s.parent? i
  offChain : ∀ i < s.size, i ∉ s.chain id → s'.scope? i = s.scope? i
  names : ∀ i < s.size, i ≠ id → s'.names i = s.names i
  ownNames : s.names id <+: s'.names id
  values : ∀ i < s.size, ∀ name ∉ assigned, ∀ v, (s.values i).lookup name = some v →
    (s'.values i).lookup name = some v

theorem Course.of_scopes (hid : id < s.size) {calls : List Activation}
    (h : s'.scopes = s.scopes ++ (calls.map Activation.scope).toArray) :
    s.Course id [] calls s' := by
  have hkeeps := Extends.of_scopes h
  exact {
    size := size_of_scopes h
    made := fun i call hcall => scope?_of_scopes h hcall
    parent := fun i hi => by simp only [parent?, hkeeps.scope?_eq i hi]
    offChain := fun i hi _ => hkeeps.scope?_eq i hi
    names := fun i hi _ => hkeeps.names_eq hi
    ownNames := by simp only [hkeeps.names_eq hid, List.prefix_rfl]
    values := fun i hi name _ v hv => by rw [hkeeps.values_eq hi, hv] }

theorem Course.define (hid : id < s.size) {range : Range} {v : Value}
    (h : s.define id range name v = .ok s') : s.Course id [] [] s' where
  size := size_define h
  made := by simp
  parent i _ := parent?_define h i
  offChain i _ hchain := by
    have hne : i ≠ id := fun heq => hchain (heq ▸ s.mem_chain_self id)
    rw [(define_ok h).2, scope?_modifyScope, if_neg hne]
  names i _ hne := names_define_of_ne h hne
  ownNames := by simp [names_define_self hid h]
  values i _ other _ w hw := by
    rw [lookup_define hid h]
    split
    case isTrue heq =>
      obtain ⟨rfl, rfl⟩ := heq
      have howns := (define_ok h).1
      simp [owns_eq, hw] at howns
    case isFalse => exact hw

theorem Course.update {v : Value} (h : s.update id name v = .ok s') :
    s.Course id [name] [] s' := by
  have hnames := names_update h
  obtain ⟨owner, howner, rfl⟩ := update_ok h
  have howns := owner?_owns howner
  exact {
    size := size_modifyScope s owner
    made := by simp
    parent := fun i _ => parent?_set s owner name v i
    offChain := by
      intro i _ hchain
      have hne : i ≠ owner := fun heq => hchain (heq ▸ mem_chain_of_owner? howner)
      rw [scope?_modifyScope, if_neg hne]
    names := fun i _ _ => hnames i
    ownNames := by simp only [hnames id, List.prefix_rfl]
    values := by
      intro i _ other hother w hw
      rw [lookup_set howns, if_neg (by simp_all), hw] }

theorem Course.size_le {assigned : List Name} {calls : List Activation}
    (h : s.Course id assigned calls s') : s.size ≤ s'.size := by
  rw [h.size]
  exact Nat.le_add_right _ _

theorem Course.mono {assigned assigned' : List Name} {calls : List Activation}
    (h : s.Course id assigned calls s') (hsub : assigned ⊆ assigned') :
    s.Course id assigned' calls s' :=
  { h with values := fun i hi name hname => h.values i hi name fun hmem => hname (hsub hmem) }

theorem Course.chain_eq {assigned : List Name} {calls : List Activation}
    (h : s.Course id assigned calls s') {i : Nat} (hi : i < s.size) : s'.chain i = s.chain i :=
  chain_congr fun j hj => h.parent j (Nat.lt_of_le_of_lt hj hi)

theorem Course.scope?_eq {assigned : List Name} {calls : List Activation}
    (h : s.Course id assigned calls s') {i : Nat} (hlt : id < i) (hi : i < s.size) :
    s'.scope? i = s.scope? i :=
  h.offChain i hi fun hmem => Nat.not_le_of_gt hlt (le_of_mem_chain hmem)

theorem Course.trans {assigned assigned' : List Name} {calls calls' : List Activation}
    (hid : id < s.size) (h : s.Course id assigned calls s₁)
    (h' : s₁.Course id assigned' calls' s₂) :
    s.Course id (assigned ++ assigned') (calls ++ calls') s₂ := by
  have hle := h.size_le
  exact {
    size := by rw [h'.size, h.size, List.length_append, Nat.add_assoc]
    made := by
      intro i call hcall
      rcases Nat.lt_or_ge i calls.length with hi | hi
      -- A scope made in the first part has a number above `id`, so the second part cannot reach it.
      · rw [List.getElem?_append_left hi] at hcall
        rw [h'.scope?_eq (by omega) (by rw [h.size]; omega), h.made i call hcall]
      · rw [List.getElem?_append_right hi] at hcall
        have hmade := h'.made _ call hcall
        rwa [h.size, Nat.add_assoc, Nat.add_sub_of_le hi] at hmade
    parent := fun i hi => (h'.parent i (Nat.lt_of_lt_of_le hi hle)).trans (h.parent i hi)
    offChain := by
      intro i hi hchain
      have hchain' : i ∉ s₁.chain id := by rwa [h.chain_eq hid]
      rw [h'.offChain i (Nat.lt_of_lt_of_le hi hle) hchain', h.offChain i hi hchain]
    names := fun i hi hne =>
      (h'.names i (Nat.lt_of_lt_of_le hi hle) hne).trans (h.names i hi hne)
    ownNames := h.ownNames.trans h'.ownNames
    values := by
      intro i hi name hname v hv
      rw [List.mem_append, not_or] at hname
      have hv₁ := h.values i hi name hname.1 v hv
      exact h'.values i (Nat.lt_of_lt_of_le hi hle) name hname.2 v hv₁ }

end Store

theorem Expr.eval_grows (fuel : Nat) {scope : Nat} (e : Expr) {s : Store} (hs : s.Linked)
    (hscope : scope < s.size) :
    s.Grown (e.activations fuel scope s) ((e.eval fuel scope).startingFrom s).2 where
  scopes := e.eval_appends fuel scope s
  captured i call hcall := by
    have hmade := Store.scope?_of_scopes (e.eval_appends fuel scope s) hcall
    exact (e.eval_handles fuel hs hscope).linked.parent
      (by simp [Store.parent?, hmade, Activation.scope])

namespace Stmt

inductive Writes (id : Nat) (v : Value) (s : Store) : Stmt → Store → Prop
  | define {range : Range} {name : Name} {value : Expr} :
      s.owns id name = false →
      Writes id v s (.define range name value) (s.modifyScope id (·.add name v))
  | assign {range place : Range} {name : Name} {value : Expr} {owner : Nat} :
      (s.chain id).find? (s.owns · name) = some owner →
      Writes id v s (.assign range (.var place name) value)
        (s.modifyScope owner (·.set name v))
  | print {range : Range} {value : Expr} : Writes id v s (.print range value) s

def assigned : Stmt → List Name
  | .assign _ (.var _ name) _ => [name]
  | _ => []

theorem exec_effect (fuel id : Nat) (stmt : Stmt) (s : Store) :
    Run.Ensures (stmt.exec fuel id) s
      (fun _ s' => ∃ v s₁, (stmt.value.eval fuel id).startingFrom s = (.ok v, s₁) ∧
        stmt.Writes id v s₁ s')
      fun _ s' => s' = ((stmt.value.eval fuel id).startingFrom s).2 := by
  rcases hresult : (stmt.value.eval fuel id).startingFrom s with ⟨halt | v, s₁⟩
  · cases stmt <;>
    · simp only [value] at hresult
      rw [exec, Run.ensures_bind, Run.Ensures, hresult]
  · cases stmt with
    | define range name value =>
        simp only [Stmt.value] at hresult
        rw [exec, Run.ensures_bind, Run.Ensures, hresult]
        simp only [Run.ensures_bind, Run.ensures_change, Run.ensures_pure]
        cases hdefine : s₁.define id range name v with
        | error d => trivial
        | ok s₂ =>
            obtain ⟨howns, rfl⟩ := Store.define_ok hdefine
            exact ⟨v, s₁, rfl, .define howns⟩
    | assign range target value =>
        simp only [Stmt.value] at hresult
        rw [exec, Run.ensures_bind, Run.Ensures, hresult]
        cases target with
        | var place name =>
            simp only [Run.ensures_bind, Run.ensures_get]
            split
            · simp only [Run.ensures_bind, Run.ensures_change, Run.ensures_pure]
              cases hupdate : s₁.update id name v with
              | error d => trivial
              | ok s₂ =>
                  obtain ⟨owner, howner, rfl⟩ := Store.update_ok hupdate
                  rw [Store.owner?_eq_find?_chain] at howner
                  exact ⟨v, s₁, rfl, .assign howner⟩
            · rfl
        | _ => rfl
    | print range value =>
        simp only [Stmt.value] at hresult
        rw [exec, Run.ensures_bind, Run.Ensures, hresult]
        exact ⟨v, s₁, rfl, .print⟩

theorem Writes.course {id : Nat} {v : Value} {s s' : Store} {stmt : Stmt}
    (h : stmt.Writes id v s s') (hid : id < s.size) : s.Course id stmt.assigned [] s' := by
  cases h with
  | @define range name value howns =>
      have hdefine : s.define id range name v = .ok (s.modifyScope id (·.add name v)) := by
        simp [Store.define, howns]
      exact .define hid hdefine
  | @assign range place name value owner howner =>
      rw [← Store.owner?_eq_find?_chain] at howner
      have hupdate : s.update id name v = .ok (s.modifyScope owner (·.set name v)) := by
        simp [Store.update, howner]
      exact .update hupdate
  | print => exact .of_scopes hid (by simp)

theorem exec_course (fuel : Nat) (stmt : Stmt) {id : Nat} {s : Store} (hid : id < s.size) :
    s.Course id stmt.assigned (stmt.value.activations fuel id s)
      ((stmt.exec fuel id).startingFrom s).2 := by
  have heval := Store.Course.of_scopes hid (stmt.value.eval_appends fuel id s)
  have heffect := stmt.exec_effect fuel id s
  rcases hexec : (stmt.exec fuel id).startingFrom s with ⟨halt | line, s'⟩
  · obtain rfl := heffect.of_error hexec
    exact heval.mono (List.nil_subset _)
  · obtain ⟨v, s₁, hvalue, hwrites⟩ := heffect.of_ok hexec
    rw [hvalue] at heval
    have hwrite := hwrites.course (Nat.lt_of_lt_of_le hid heval.size_le)
    simpa using heval.trans hid hwrite

end Stmt

namespace Script

def activations (fuel id : Nat) : Script → Store → List Activation
  | [], _ => []
  | stmt :: rest, s =>
      stmt.value.activations fuel id s ++
        (stmt.exec fuel id).followedBy s fun _ s' => activations fuel id rest s'

def assigned (script : Script) : List Name := script.flatMap Stmt.assigned

theorem exec_course (fuel : Nat) (script : Script) {id : Nat} {s : Store} (hid : id < s.size) :
    s.Course id script.assigned (script.activations fuel id s)
      ((script.exec fuel id).startingFrom s).2 := by
  induction script generalizing s with
  | nil => exact .of_scopes hid (by simp [exec, activations, Run.startingFrom_pure])
  | cons stmt rest ih =>
      have hstmt := stmt.exec_course fuel hid
      rw [exec, Run.startingFrom_bind, activations, Run.followedBy]
      rcases hexec : (stmt.exec fuel id).startingFrom s with ⟨halt | line, s₁⟩
      · rw [hexec] at hstmt
        have hsub : stmt.assigned ⊆ assigned (stmt :: rest) := List.subset_append_left _ _
        simpa using hstmt.mono hsub
      · rw [hexec] at hstmt
        have hrest := hstmt.trans hid (ih (Nat.lt_of_lt_of_le hid hstmt.size_le))
        simp only [Run.startingFrom_bind]
        rcases hexec' : (exec fuel id rest).startingFrom s₁ with ⟨halt | lines, s₂⟩
        · rwa [hexec'] at hrest
        · rwa [hexec'] at hrest

end Script

end TypedSexp
