import TypedSexp.Proofs.Run.Frame

namespace TypedSexp

open Store (programScope)

namespace Value

@[elab_as_elim]
theorem induct {motive : Value → Prop}
    (num : ∀ n, motive (.num n))
    (bool : ∀ b, motive (.bool b))
    (prim : ∀ p, motive (.prim p))
    (closure : ∀ param body scope, motive (.closure param body scope))
    (record : ∀ fields, (∀ field ∈ fields, motive field.2) → motive (.record fields))
    (union : ∀ variant payload, motive payload → motive (.union variant payload))
    (v : Value) : motive v :=
  @Value.rec motive (fun fields => ∀ field ∈ fields, motive field.2) (fun field => motive field.2)
    num bool prim closure record union (by simp)
    (fun _ _ hhead htail => List.forall_mem_cons.mpr ⟨hhead, htail⟩) (fun _ _ h => h) v

inductive Within (n : Nat) : Value → Prop
  | num {k : UInt64} : Within n (.num k)
  | bool {b : Bool} : Within n (.bool b)
  | prim {p : Primitive} : Within n (.prim p)
  | closure {param : Name} {body : Expr} {scope : Nat} :
      scope < n → Within n (.closure param body scope)
  | record {fields : List (Name × Value)} :
      (∀ field ∈ fields, Within n field.2) → Within n (.record fields)
  | union {variant : Name} {payload : Value} : Within n payload → Within n (.union variant payload)

theorem Within.mono {n m : Nat} (hle : n ≤ m) {v : Value} (h : v.Within n) : v.Within m := by
  induction h with
  | num => exact .num
  | bool => exact .bool
  | prim => exact .prim
  | closure hscope => exact .closure (Nat.lt_of_lt_of_le hscope hle)
  | record _ ih => exact .record ih
  | union _ ih => exact .union ih

theorem Within.of_mem_record {n : Nat} {fields : List (Name × Value)}
    (h : (Value.record fields).Within n) {field : Name × Value} (hmem : field ∈ fields) :
    field.2.Within n := by
  cases h with
  | record hfields => exact hfields field hmem

theorem Within.ofFields {n : Nat} {fields : List (Name × Value)}
    (h : ∀ field ∈ fields, field.2.Within n) : (Value.ofFields fields).Within n :=
  .record fun field hmem => h field (Members.mem_of_mem_listed hmem)

theorem Within.payload {n : Nat} {variant : Name} {payload : Value}
    (h : (Value.union variant payload).Within n) : payload.Within n := by
  cases h with
  | union hpayload => exact hpayload

end Value

namespace Store

structure Linked (s : Store) : Prop where
  parent : ∀ {id outer : Nat}, s.parent? id = some outer → outer < id
  handle : ∀ {id : Nat} {binding : Name × Value}, binding ∈ s.values id →
    binding.2.Within s.size
  coherent : s.Coherent

structure Sound (s : Store) : Prop extends Linked s where
  program : programScope < s.size

variable {s s' : Store} {id : Nat} {name : Name} {v : Value} {range : Range}

theorem root_linked : root.Linked where
  parent {id outer} h := by
    match id with
    | 0 => cases h
    | id + 1 => cases h
  handle {id binding} h := by
    match id with
    | 0 => cases h
    | id + 1 => cases h
  coherent := root_coherent

theorem initial_sound : initial.Sound where
  program := by decide
  parent {id outer} h := by
    match id with
    | 0 => cases h
    | 1 =>
        cases h
        decide
    | id + 2 => cases h
  handle {id binding} h := by
    match id with
    | 0 =>
        rw [values_initial] at h
        obtain ⟨p, -, rfl⟩ := List.mem_map.mp (Members.mem_of_mem_ofList h)
        exact .prim
    | 1 => cases h
    | id + 2 => cases h
  coherent := initial_coherent

theorem Linked.lookup? (h : s.Linked) (hlookup : s.lookup? id name = some v) : v.Within s.size := by
  obtain ⟨owner, -, hv⟩ := lookup?_eq_some_iff.mp hlookup
  exact h.handle (Members.mem_of_lookup hv)

theorem lt_size_of_mem_values {binding : Name × Value} (h : binding ∈ s.values id) :
    id < s.size := by
  rcases Nat.lt_or_ge id s.size with hlt | hge
  · exact hlt
  · simp [values, scope?_eq_none_iff.mpr hge] at h

theorem Linked.newScope (h : s.Linked) {captured : Nat} (hcaptured : captured < s.size)
    {bindings : List (Name × Value)} (hbindings : ∀ binding ∈ bindings, binding.2.Within s.size)
    (hnodup : (Members.names bindings).Nodup) :
    (s.newScope (some captured) bindings).2.Linked := by
  have hsize := size_newScope s (some captured) bindings
  constructor
  case parent =>
    intro id outer houter
    simp only [parent?, scope?_newScope] at houter
    split at houter
    case isTrue hid =>
      obtain rfl : captured = outer := by simpa [Scope.holding_eq] using houter
      omega
    case isFalse => exact h.parent houter
  case handle =>
    intro id binding hmem
    rw [hsize]
    by_cases hid : id = s.size
    · subst hid
      rw [values_newScope_self] at hmem
      exact (hbindings binding (Members.mem_of_mem_ofList hmem)).mono (Nat.le_succ _)
    · simp only [values, scope?_newScope, if_neg hid] at hmem
      exact (h.handle hmem).mono (Nat.le_succ _)
  case coherent => exact h.coherent.newScope _ hnodup

theorem mem_values_define {binding : Name × Value} (h : s.define id range name v = .ok s') {i : Nat}
    (hmem : binding ∈ s'.values i) : binding = (name, v) ∨ binding ∈ s.values i := by
  by_cases hi : i = id
  · subst hi
    have hlt := lt_size_of_mem_values hmem
    rw [size_define h] at hlt
    rw [values_define_self hlt h] at hmem
    exact Members.mem_insert hmem
  · rw [values_define_of_ne h hi] at hmem
    exact .inr hmem

theorem mem_values_update {binding : Name × Value} (h : s.update id name v = .ok s') {i : Nat}
    (hmem : binding ∈ s'.values i) : binding = (name, v) ∨ binding ∈ s.values i := by
  obtain ⟨owner, -, rfl⟩ := update_ok h
  by_cases hi : i = owner
  · subst hi
    have hlt := lt_size_of_mem_values hmem
    rw [size_modifyScope] at hlt
    obtain ⟨scope, hscope⟩ := exists_scope hlt
    simp only [values, scope?_modifyScope, hscope, if_true, Option.map_some, Option.getD_some,
      Scope.set] at hmem ⊢
    exact Members.mem_insert hmem
  · rw [values_modifyScope_of_ne s owner hi] at hmem
    exact .inr hmem

theorem Linked.define (h : s.Linked) (hv : v.Within s.size)
    (hdefine : s.define id range name v = .ok s') : s'.Linked where
  parent houter := by
    rw [parent?_define hdefine] at houter
    exact h.parent houter
  handle hmem := by
    rw [size_define hdefine]
    rcases mem_values_define hdefine hmem with rfl | hold
    · exact hv
    · exact h.handle hold
  coherent := h.coherent.define hdefine

theorem Linked.update (h : s.Linked) (hv : v.Within s.size)
    (hupdate : s.update id name v = .ok s') : s'.Linked where
  parent houter := by
    rw [parent?_update hupdate] at houter
    exact h.parent houter
  handle hmem := by
    rw [size_update hupdate]
    rcases mem_values_update hupdate hmem with rfl | hold
    · exact hv
    · exact h.handle hold
  coherent := h.coherent.update hupdate

end Store

namespace Value

def Constant : Value → Prop
  | .num _ => True
  | .bool _ => True
  | _ => False

theorem Constant.within {v : Value} (h : v.Constant) (n : Nat) : v.Within n := by
  cases v with
  | num k => exact .num
  | bool b => exact .bool
  | _ => exact absurd h (by simp [Constant])

end Value

namespace Primitive

def Computes (x : Except Diagnostic Value) : Prop :=
  x.Ensures Value.Constant fun d => d.range = Range.none

theorem onNumbers_computes (p : Primitive) {f : UInt64 → UInt64 → Except Diagnostic Value}
    (hf : ∀ a b, Computes (f a b)) (vs : List Value) : Computes (p.onNumbers f vs) := by
  unfold onNumbers
  split
  · exact hf _ _
  · rfl
  · rfl

theorem onBooleans_computes (p : Primitive) (f : Bool → Bool → Bool) (vs : List Value) :
    Computes (p.onBooleans f vs) := by
  unfold onBooleans
  split
  · trivial
  · rfl
  · rfl

theorem bounded_computes (p : Primitive) (a b spilled result : UInt64) :
    Computes (p.bounded a b spilled result) := by
  unfold bounded
  split
  · trivial
  · rfl

theorem apply_computes (p : Primitive) (vs : List Value) : Computes (p.apply vs) := by
  cases p with
  | add => exact onNumbers_computes _ (fun a b => bounded_computes _ a b _ _) vs
  | mul => exact onNumbers_computes _ (fun a b => bounded_computes _ a b _ _) vs
  | sub =>
      refine onNumbers_computes _ (fun a b => ?_) vs
      trivial
  | equal =>
      refine onNumbers_computes _ (fun a b => ?_) vs
      trivial
  | less =>
      refine onNumbers_computes _ (fun a b => ?_) vs
      trivial
  | and => exact onBooleans_computes _ _ vs
  | or => exact onBooleans_computes _ _ vs
  | isZero =>
      simp only [apply]
      split
      · trivial
      · rfl
      · rfl
  | not =>
      simp only [apply]
      split
      · trivial
      · rfl
      · rfl

end Primitive

namespace Run

variable {α β : Type} {s : Store}

def Handles (x : Run α) (s : Store) (P : Nat → α → Prop) : Prop :=
  Ensures x s (fun a s' => s.size ≤ s'.size ∧ s'.Linked ∧ P s'.size a)
    fun _ s' => s.size ≤ s'.size ∧ s'.Linked

theorem Handles.after {x : Run α} {P : Nat → α → Prop} {s₁ : Store} (hx : Handles x s₁ P)
    (hle : s.size ≤ s₁.size) :
    Ensures x s₁ (fun a s' => s.size ≤ s'.size ∧ s'.Linked ∧ P s'.size a)
      fun _ s' => s.size ≤ s'.size ∧ s'.Linked :=
  hx.mono (fun _ _ h => ⟨Nat.le_trans hle h.1, h.2⟩) fun _ _ h => ⟨Nat.le_trans hle h.1, h.2⟩

theorem Handles.linked {x : Run α} {P : Nat → α → Prop} (hx : Handles x s P) :
    (x.startingFrom s).2.Linked := by
  rcases hresult : x.startingFrom s with ⟨halt | a, s'⟩
  · exact (hx.of_error hresult).2
  · exact (hx.of_ok hresult).2.1

theorem Handles.bind {x : Run α} {f : α → Run β} {P : Nat → α → Prop} {Q : Nat → β → Prop}
    (hx : Handles x s P)
    (hf : ∀ a s', s.size ≤ s'.size → s'.Linked → P s'.size a → Handles (f a) s' Q) :
    Handles (x >>= f) s Q := by
  rw [Handles, ensures_bind]
  exact hx.imp fun a s' ⟨hle, hlinked, ha⟩ => (hf a s' hle hlinked ha).after hle

theorem Handles.pure {P : Nat → α → Prop} (hs : s.Linked) {a : α} (ha : P s.size a) :
    Handles (Pure.pure a) s P := ⟨Nat.le_refl _, hs, ha⟩

theorem Handles.fault {P : Nat → α → Prop} (hs : s.Linked) (range : Range) (cause : Cause) :
    Handles (Run.fault range cause) s P := ⟨Nat.le_refl _, hs⟩

theorem Handles.mapM {f : α → Run β} {as : List α} {P : Nat → β → Prop} (hs : s.Linked)
    (hmono : ∀ {n m : Nat} {b : β}, n ≤ m → P n b → P m b)
    (h : ∀ a ∈ as, ∀ s' : Store, s.size ≤ s'.size → s'.Linked → Handles (f a) s' P) :
    Handles (as.mapM f) s fun n bs => ∀ b ∈ bs, P n b := by
  induction as generalizing s with
  | nil => exact .pure hs (by simp)
  | cons a rest ih =>
      obtain ⟨ha, hrest⟩ := List.forall_mem_cons.mp h
      rw [List.mapM_cons]
      refine (ha s (Nat.le_refl _) hs).bind fun b s₁ hle₁ hs₁ hb => ?_
      have hrest₁ := fun a hmem s' hle => hrest a hmem s' (Nat.le_trans hle₁ hle)
      refine (ih hs₁ hrest₁).bind fun bs s₂ hle₂ hs₂ hbs => ?_
      exact .pure hs₂ (List.forall_mem_cons.mpr ⟨hmono hle₂ hb, hbs⟩)

end Run

open Run (Handles)

namespace Expr

theorem projectFrom_handles (range : Range) (name : Name) {v : Value} {s : Store} (hs : s.Linked)
    (hv : v.Within s.size) :
    Handles (projectFrom range name v) s fun n w => w.Within n := by
  unfold projectFrom
  split
  case h_1 fields =>
    split
    case h_1 w hw => exact .pure hs (hv.of_mem_record (Members.mem_of_lookup hw))
    case h_2 => exact .fault hs _ _
  case h_2 variant payload =>
    split
    · exact .pure hs hv.payload
    · exact .fault hs _ _
  case h_3 => exact .fault hs _ _

theorem eval_handles (fuel : Nat) {scope : Nat} (e : Expr) {s : Store} (hs : s.Linked)
    (hscope : scope < s.size) :
    Handles (e.eval fuel scope) s fun n v => v.Within n := by
  induction fuel generalizing scope e s with
  | zero => exact ⟨Nat.le_refl _, hs⟩
  | succ fuel ih =>
      cases e with
      | var range name =>
          simp only [eval, Handles, Run.ensures_bind, Run.ensures_get]
          cases hlookup : s.lookup? scope name with
          | some v => exact Handles.pure hs (hs.lookup? hlookup)
          | none => exact Handles.fault hs _ _
      | num range n => exact .pure hs .num
      | bool range b => exact .pure hs .bool
      | lambda range param paramType body => exact .pure hs (.closure hscope)
      | apply range head args =>
          refine (ih head hs hscope).bind fun v s₁ hle₁ hs₁ hv => ?_
          have hscope₁ := Nat.lt_of_lt_of_le hscope hle₁
          cases v with
          | closure param body captured =>
              rcases args with _ | ⟨arg, _ | ⟨second, rest⟩⟩
              · exact .fault hs₁ _ _
              · refine (ih arg hs₁ hscope₁).bind fun w s₂ hle₂ hs₂ hw => ?_
                have hcaptured : captured < s₂.size := by
                  cases hv with
                  | closure h => exact Nat.lt_of_lt_of_le h hle₂
                have hinner : s₂.size < (s₂.newScope (some captured) [(param, w)]).2.size := by
                  rw [Store.size_newScope]
                  exact Nat.lt_succ_self _
                rw [Handles, Run.ensures_bind, Run.ensures_modifyGet]
                have hbinding : ∀ binding ∈ [(param, w)], binding.2.Within s₂.size := by
                  simpa using hw
                exact (ih body (hs₂.newScope hcaptured hbinding (by simp [Members.names])) hinner).after (Nat.le_of_lt hinner)
              · exact .fault hs₁ _ _
          | prim p =>
              have harg (arg : Expr) (_ : arg ∈ args) (s' : Store) (hle : s₁.size ≤ s'.size)
                  (hs' : s'.Linked) : Handles (eval fuel scope arg) s' fun n v => v.Within n :=
                ih arg hs' (Nat.lt_of_lt_of_le hscope₁ hle)
              have hargs := Handles.mapM hs₁ (fun hle hb => hb.mono hle) harg
              refine hargs.bind fun vs s₂ _ hs₂ _ => ?_
              rw [Handles, Run.ensures_ofExcept]
              exact (p.apply_computes vs).mono
                (fun w hw => ⟨Nat.le_refl _, hs₂, hw.within _⟩) fun _ _ => ⟨Nat.le_refl _, hs₂⟩
          | _ => exact .fault hs₁ _ _
      | cond range guard thenBranch elseBranch =>
          refine (ih guard hs hscope).bind fun v s₁ hle₁ hs₁ _ => ?_
          have hscope₁ := Nat.lt_of_lt_of_le hscope hle₁
          cases v with
          | bool b =>
              cases b with
              | true => exact ih thenBranch hs₁ hscope₁
              | false => exact ih elseBranch hs₁ hscope₁
          | _ => exact .fault hs₁ _ _
      | record range fields =>
          have hfield (field : Name × Expr) (_ : field ∈ fields) (s' : Store)
              (hle : s.size ≤ s'.size) (hs' : s'.Linked) :
              Handles (do return (field.1, ← eval fuel scope field.2)) s'
                fun n entry => entry.2.Within n := by
            refine (ih field.2 hs' (Nat.lt_of_lt_of_le hscope hle)).bind ?_
            exact fun v s'' _ hs'' hv => .pure hs'' hv
          have hfields := Handles.mapM hs (fun hle hb => hb.mono hle) hfield
          exact hfields.bind fun vs s₁ _ hs₁ hvs => .pure hs₁ (.ofFields hvs)
      | project range target name =>
          refine (ih target hs hscope).bind fun v s₁ _ hs₁ hv => ?_
          exact projectFrom_handles range name hs₁ hv
      | inject range variant payload =>
          exact (ih payload hs hscope).bind fun v s₁ _ hs₁ hv => .pure hs₁ (.union hv)

end Expr

theorem Stmt.exec_handles (fuel : Nat) (stmt : Stmt) {id : Nat} {s : Store} (hs : s.Linked)
    (hid : id < s.size) : Handles (stmt.exec fuel id) s fun _ _ => True := by
  cases stmt with
  | define range name value =>
      refine (value.eval_handles fuel hs hid).bind fun v s₁ hle hs₁ hv => ?_
      simp only [Handles, Run.ensures_bind, Run.ensures_change, Run.ensures_pure]
      cases hdefine : s₁.define id range name v with
      | error d => exact ⟨Nat.le_refl _, hs₁⟩
      | ok s₂ =>
          have hsize := Store.size_define hdefine
          exact ⟨Nat.le_of_eq hsize.symm, hs₁.define hv hdefine, trivial⟩
  | assign range target value =>
      refine (value.eval_handles fuel hs hid).bind fun v s₁ hle hs₁ hv => ?_
      cases target with
      | var targetRange name =>
          simp only [Handles, Run.ensures_bind, Run.ensures_get]
          split
          · simp only [Run.ensures_bind, Run.ensures_change, Run.ensures_pure]
            cases hupdate : s₁.update id name v with
            | error d => exact ⟨Nat.le_refl _, hs₁⟩
            | ok s₂ =>
                have hsize := Store.size_update hupdate
                exact ⟨Nat.le_of_eq hsize.symm, hs₁.update hv hupdate, trivial⟩
          · exact ⟨Nat.le_refl _, hs₁⟩
      | _ => exact ⟨Nat.le_refl _, hs₁⟩
  | print range value =>
      refine (value.eval_handles fuel hs hid).bind fun v s₁ hle hs₁ hv => ?_
      exact .pure hs₁ trivial

theorem Script.exec_handles (fuel : Nat) (script : Script) {id : Nat} {s : Store} (hs : s.Linked)
    (hid : id < s.size) : Handles (script.exec fuel id) s fun _ _ => True := by
  induction script generalizing s with
  | nil => exact .pure hs trivial
  | cons stmt rest ih =>
      refine (stmt.exec_handles fuel hs hid).bind fun line s₁ hle hs₁ _ => ?_
      refine (ih hs₁ (Nat.lt_of_lt_of_le hid hle)).bind fun lines s₂ _ hs₂ _ => ?_
      exact .pure hs₂ trivial

theorem Store.Sound.grow {s s' : Store} (hs : s.Sound) (hle : s.size ≤ s'.size)
    (h : s'.Linked) : s'.Sound :=
  ⟨h, Nat.lt_of_lt_of_le hs.program hle⟩

theorem Stmt.exec_sound (fuel : Nat) (stmt : Stmt) {s : Store} (hs : s.Sound) :
    Run.Ensures (stmt.exec fuel programScope) s (fun _ s' => s'.Sound) fun _ s' => s'.Sound :=
  (stmt.exec_handles fuel hs.toLinked hs.program).mono (fun _ _ h => hs.grow h.1 h.2.1)
    fun _ _ h => hs.grow h.1 h.2

end TypedSexp
