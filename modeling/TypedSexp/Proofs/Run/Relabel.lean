import TypedSexp.Proofs.Expr.Relabel
import TypedSexp.Proofs.Run.Handles

namespace TypedSexp

open Store (programScope)

structure Relabeling where
  scope : Nat → Nat
  place : Range → Range
  type : Ty → Ty
  scope_lt : ∀ {i j : Nat}, i < j → scope i < scope j
  place_none : place Range.none = Range.none

theorem Relabeling.scope_lt_iff (g : Relabeling) {i j : Nat} : g.scope i < g.scope j ↔ i < j := by
  refine ⟨fun h => ?_, g.scope_lt⟩
  rcases Nat.lt_trichotomy i j with hlt | rfl | hgt
  · exact hlt
  · exact absurd h (Nat.lt_irrefl _)
  · exact absurd h (Nat.lt_asymm (g.scope_lt hgt))

theorem Relabeling.scope_inj (g : Relabeling) {i j : Nat} (h : g.scope i = g.scope j) : i = j := by
  rcases Nat.lt_trichotomy i j with hlt | rfl | hgt
  · exact absurd h (Nat.ne_of_lt (g.scope_lt hlt))
  · rfl
  · exact absurd h (Nat.ne_of_gt (g.scope_lt hgt))

def Halt.relocate (f : Range → Range) : Halt → Halt
  | .fault d => .fault (d.relocate f)
  | .outOfFuel => .outOfFuel

theorem Halt.relocate_id (halt : Halt) : halt.relocate id = halt := by
  cases halt <;> rfl

namespace Value

mutual

def relabel (g : Relabeling) : Value → Value
  | .num n => .num n
  | .bool b => .bool b
  | .prim p => .prim p
  | .closure param body scope => .closure param (body.relabel g.place g.type) (g.scope scope)
  | .record fields => .record (relabelFields g fields)
  | .union variant payload => .union variant (relabel g payload)

def relabelFields (g : Relabeling) : List (Name × Value) → List (Name × Value)
  | [] => []
  | (name, v) :: rest => (name, relabel g v) :: relabelFields g rest

end

variable (g : Relabeling)

theorem relabelFields_eq_map (fields : List (Name × Value)) :
    relabelFields g fields = fields.map fun field => (field.1, field.2.relabel g) := by
  induction fields with
  | nil => rfl
  | cons field rest ih => simp [relabelFields, ih]

theorem lookup_relabelFields (fields : List (Name × Value)) (name : Name) :
    (relabelFields g fields).lookup name = (fields.lookup name).map (relabel g) := by
  rw [relabelFields_eq_map, Members.lookup_map]

theorem relabelFields_insert (name : Name) (v : Value) (fields : List (Name × Value)) :
    Members.insert name (v.relabel g) (relabelFields g fields) =
      relabelFields g (Members.insert name v fields) := by
  rw [relabelFields_eq_map, relabelFields_eq_map, Members.insert_map]

theorem relabel_ofFields (fields : List (Name × Value)) :
    (Value.ofFields fields).relabel g =
      .ofFields (fields.map fun field => (field.1, field.2.relabel g)) := by
  simp only [ofFields, relabel, relabelFields_eq_map, Members.names_map, Members.ofList_map,
    Members.listed_map]

theorem toTextFields_relabel {fields : List (Name × Value)}
    (h : ∀ field ∈ fields, (field.2.relabel g).toText = field.2.toText) :
    toTextFields (relabelFields g fields) = toTextFields fields := by
  induction fields with
  | nil => rfl
  | cons field rest ih =>
      obtain ⟨hfield, hrest⟩ := List.forall_mem_cons.mp h
      cases rest with
      | nil => simp only [relabelFields, toTextFields, hfield]
      | cons second rest =>
          have ih := ih hrest
          simp only [relabelFields] at ih
          simp only [relabelFields, toTextFields, hfield, ih]

theorem toText_relabel (v : Value) : (v.relabel g).toText = v.toText := by
  induction v using Value.induct with
  | num => rfl
  | bool => rfl
  | prim => rfl
  | closure => rfl
  | record fields ih => simp only [relabel, toText, toTextFields_relabel g ih]
  | union variant payload ih => simp only [relabel, toText, ih]

theorem Constant.relabel {v : Value} (h : v.Constant) : v.relabel g = v := by
  cases v with
  | num n => rfl
  | bool b => rfl
  | _ => exact absurd h (by simp [Constant])

end Value

def Scope.relabel (g : Relabeling) (scope : Scope) : Scope :=
  ⟨scope.parent.map g.scope, scope.names, Value.relabelFields g scope.values⟩

theorem Scope.set_relabel (g : Relabeling) (scope : Scope) (name : Name) (v : Value) :
    (scope.relabel g).set name (v.relabel g) = (scope.set name v).relabel g := by
  simp only [relabel, set, Value.relabelFields_insert]

theorem Scope.add_relabel (g : Relabeling) (scope : Scope) (name : Name) (v : Value) :
    (scope.relabel g).add name (v.relabel g) = (scope.add name v).relabel g := by
  simp only [relabel, add, Value.relabelFields_insert]

theorem Scope.bindings_relabel (g : Relabeling) (scope : Scope) :
    (scope.relabel g).bindings = Value.relabelFields g scope.bindings := by
  simp only [relabel, bindings, Value.relabelFields_eq_map, Members.listed_map]

namespace Relabeling

/-- The second store holds the relabelled scopes of the first one. It may hold others, but new
scopes get corresponding numbers in both. -/
structure Maps (g : Relabeling) (s t : Store) : Prop where
  size : ∀ k, g.scope (s.size + k) = t.size + k
  scope? : ∀ id, t.scope? (g.scope id) = (s.scope? id).map (Scope.relabel g)

namespace Maps

variable {g : Relabeling} {s t : Store} {id : Nat} {name : Name} {v : Value}

theorem bindings (h : g.Maps s t) (id : Nat) :
    t.bindings (g.scope id) = Value.relabelFields g (s.bindings id) := by
  simp only [Store.bindings, h.scope?]
  cases s.scope? id with
  | none => rfl
  | some scope => exact scope.bindings_relabel g

theorem values (h : g.Maps s t) (id : Nat) :
    t.values (g.scope id) = Value.relabelFields g (s.values id) := by
  simp only [Store.values, h.scope?]
  cases s.scope? id <;> rfl

theorem owns (h : g.Maps s t) (id : Nat) (name : Name) :
    t.owns (g.scope id) name = s.owns id name := by
  rw [Store.owns_eq, Store.owns_eq, h.values, Value.lookup_relabelFields, Option.isSome_map]

theorem parent? (h : g.Maps s t) (id : Nat) :
    t.parent? (g.scope id) = (s.parent? id).map g.scope := by
  simp only [Store.parent?, h.scope?]
  cases s.scope? id <;> rfl

theorem owner? (h : g.Maps s t) (name : Name) (id : Nat) :
    t.owner? name (g.scope id) = (s.owner? name id).map g.scope := by
  induction id using Nat.strongRecOn with
  | ind id ih =>
      rw [Store.owner?.eq_def t, Store.owner?.eq_def s, h.owns, h.parent?]
      split
      · rfl
      · cases s.parent? id with
        | none => rfl
        | some outer =>
            simp only [Option.map_some, g.scope_lt_iff]
            split
            case isTrue houter => exact ih outer houter
            case isFalse => rfl

theorem lookup? (h : g.Maps s t) (id : Nat) (name : Name) :
    t.lookup? (g.scope id) name = (s.lookup? id name).map (Value.relabel g) := by
  simp only [Store.lookup?, h.owner?, Option.bind_eq_bind]
  cases s.owner? name id with
  | none => rfl
  | some owner =>
      simp only [Option.map_some, Option.bind_some, h.values, Value.lookup_relabelFields]

theorem newScope (h : g.Maps s t) (captured : Nat) (name : Name) (v : Value) :
    g.Maps (s.newScope (some captured) [(name, v)]).2
      (t.newScope (some (g.scope captured)) [(name, v.relabel g)]).2 where
  size k := by
    have hsize := h.size (1 + k)
    rw [Store.size_newScope, Store.size_newScope]
    rwa [← Nat.add_assoc, ← Nat.add_assoc] at hsize
  scope? id := by
    have hsize : g.scope s.size = t.size := h.size 0
    rw [Store.scope?_newScope, Store.scope?_newScope]
    by_cases hid : id = s.size
    · simp [hid, hsize, Scope.holding_single, Scope.relabel, Value.relabelFields]
    · have hne : g.scope id ≠ t.size := fun heq => hid (g.scope_inj (heq.trans hsize.symm))
      simp [hid, hne, h.scope?]

theorem modifyScope (h : g.Maps s t) {f f' : Scope → Scope}
    (hf : ∀ scope, f' (scope.relabel g) = (f scope).relabel g) (id : Nat) :
    g.Maps (s.modifyScope id f) (t.modifyScope (g.scope id) f') where
  size k := by
    rw [Store.size_modifyScope, Store.size_modifyScope]
    exact h.size k
  scope? i := by
    rw [Store.scope?_modifyScope, Store.scope?_modifyScope, h.scope?]
    by_cases hi : i = id
    · subst hi
      cases s.scope? i with
      | none => simp
      | some scope => simp [hf]
    · have hne : g.scope i ≠ g.scope id := fun heq => hi (g.scope_inj heq)
      simp [hi, hne]

theorem define (h : g.Maps s t) (id : Nat) (range : Range) (name : Name) (v : Value) :
    (s.define id range name v).Ensures
      (fun s' => ∃ t', t.define (g.scope id) (g.place range) name (v.relabel g) = .ok t' ∧
        g.Maps s' t')
      fun d => t.define (g.scope id) (g.place range) name (v.relabel g) =
        .error (d.relocate g.place) := by
  unfold Store.define
  rw [h.owns]
  split
  · rfl
  · exact ⟨_, rfl, h.modifyScope (fun scope => scope.add_relabel g name v) id⟩

theorem update (h : g.Maps s t) (id : Nat) (name : Name) (v : Value) :
    (s.update id name v).Ensures
      (fun s' => ∃ t', t.update (g.scope id) name (v.relabel g) = .ok t' ∧ g.Maps s' t')
      fun d => t.update (g.scope id) name (v.relabel g) = .error (d.relocate g.place) := by
  unfold Store.update
  rw [h.owner?]
  cases s.owner? name id with
  | none => simp [Diagnostic.relocate, g.place_none]
  | some owner => exact ⟨_, rfl, h.modifyScope (fun scope => scope.set_relabel g name v) owner⟩

end Maps

end Relabeling

namespace Primitive

variable (p : Primitive) (g : Relabeling) (vs : List Value)

theorem onNumbers_relabel (f : UInt64 → UInt64 → Except Diagnostic Value) :
    p.onNumbers f (vs.map (Value.relabel g)) = p.onNumbers f vs := by
  rcases vs with _ | ⟨a, _ | ⟨b, _ | ⟨c, rest⟩⟩⟩
  · rfl
  · simp [onNumbers]
  · have ha := a.toText_relabel g
    have hb := b.toText_relabel g
    cases a <;> cases b <;> simp_all [onNumbers, Value.relabel]
  · simp [onNumbers]

theorem onBooleans_relabel (f : Bool → Bool → Bool) :
    p.onBooleans f (vs.map (Value.relabel g)) = p.onBooleans f vs := by
  rcases vs with _ | ⟨a, _ | ⟨b, _ | ⟨c, rest⟩⟩⟩
  · rfl
  · simp [onBooleans]
  · have ha := a.toText_relabel g
    have hb := b.toText_relabel g
    cases a <;> cases b <;> simp_all [onBooleans, Value.relabel]
  · simp [onBooleans]

theorem apply_relabel : p.apply (vs.map (Value.relabel g)) = p.apply vs := by
  cases p with
  | isZero =>
      rcases vs with _ | ⟨a, _ | ⟨b, rest⟩⟩
      · rfl
      · have ha := a.toText_relabel g
        cases a <;> simp_all [apply, Value.relabel]
      · simp [apply]
  | not =>
      rcases vs with _ | ⟨a, _ | ⟨b, rest⟩⟩
      · rfl
      · have ha := a.toText_relabel g
        cases a <;> simp_all [apply, Value.relabel]
      · simp [apply]
  | and => exact onBooleans_relabel _ g vs _
  | or => exact onBooleans_relabel _ g vs _
  | _ => exact onNumbers_relabel _ g vs _

end Primitive

namespace Run

variable {α α' β β' : Type} {g : Relabeling} {s t : Store}

def Mirrors (g : Relabeling) (f : α → β) (x : Run α) (y : Run β) (s t : Store) : Prop :=
  Ensures x s (fun a s' => ∃ t', y.startingFrom t = (.ok (f a), t') ∧ g.Maps s' t')
    fun halt s' => ∃ t', y.startingFrom t = (.error (halt.relocate g.place), t') ∧ g.Maps s' t'

theorem Mirrors.pure (h : g.Maps s t) (f : α → β) (a : α) :
    Mirrors g f (Pure.pure a) (Pure.pure (f a)) s t := ⟨t, rfl, h⟩

theorem Mirrors.fault (h : g.Maps s t) (f : α → β) (range : Range) {cause cause' : Cause}
    (hcause : cause' = cause) :
    Mirrors g f (Run.fault range cause) (Run.fault (g.place range) cause') s t := by
  subst hcause
  exact ⟨t, rfl, h⟩

theorem Mirrors.bind {f : α → α'} {f' : β → β'} {x : Run α} {y : Run α'} {k : α → Run β}
    {k' : α' → Run β'} (hxy : Mirrors g f x y s t)
    (hk : ∀ a s' t', g.Maps s' t' → Mirrors g f' (k a) (k' (f a)) s' t') :
    Mirrors g f' (x >>= k) (y >>= k') s t := by
  rw [Mirrors, ensures_bind]
  refine hxy.mono ?_ ?_
  · rintro a s' ⟨t', hy, hmaps⟩
    rw [startingFrom_bind, hy]
    exact hk a s' t' hmaps
  · rintro halt s' ⟨t', hy, hmaps⟩
    exact ⟨t', by rw [startingFrom_bind, hy], hmaps⟩

theorem Mirrors.mapM {f : α → α'} {k : β → β'} {x : α → Run β} {y : α' → Run β'} {as : List α}
    (h : g.Maps s t) (hxy : ∀ a ∈ as, ∀ s t, g.Maps s t → Mirrors g k (x a) (y (f a)) s t) :
    Mirrors g (List.map k) (as.mapM x) ((as.map f).mapM y) s t := by
  induction as generalizing s t with
  | nil => exact .pure h _ []
  | cons a rest ih =>
      obtain ⟨ha, hrest⟩ := List.forall_mem_cons.mp hxy
      rw [List.map_cons, List.mapM_cons, List.mapM_cons]
      refine (ha s t h).bind fun b s₁ t₁ h₁ => ?_
      exact (ih h₁ hrest).bind fun bs s₂ t₂ h₂ => .pure h₂ _ _

theorem Mirrors.get_bind {f : β → β'} {k : Store → Run β} {k' : Store → Run β'}
    (hk : Mirrors g f (k s) (k' t) s t) : Mirrors g f (get >>= k) (get >>= k') s t := hk

theorem Mirrors.newScope (h : g.Maps s t) (captured : Nat) (name : Name) (v : Value) :
    Mirrors g g.scope (modifyGet (·.newScope (some captured) [(name, v)]) : Run Nat)
      (modifyGet (·.newScope (some (g.scope captured)) [(name, v.relabel g)])) s t := by
  refine ⟨_, ?_, h.newScope captured name v⟩
  have hsize : g.scope s.size = t.size := h.size 0
  change _ = (Except.ok (g.scope s.size), _)
  rw [hsize]
  rfl

theorem Mirrors.ofExcept (h : g.Maps s t) {f : α → β} {x : Except Diagnostic α}
    {y : Except Diagnostic β} (hxy : y = x.relocate g.place f) :
    Mirrors g f (Run.ofExcept x) (Run.ofExcept y) s t := by
  subst hxy
  cases x <;> exact ⟨t, rfl, h⟩

theorem Mirrors.change {f f' : Store → Except Diagnostic Store} (h : g.Maps s t)
    (hf : (f s).Ensures (fun s' => ∃ t', f' t = .ok t' ∧ g.Maps s' t')
      fun d => f' t = .error (d.relocate g.place)) :
    Mirrors g id (Run.change f) (Run.change f') s t := by
  rw [Mirrors, ensures_change]
  refine hf.mono ?_ ?_
  · rintro s' ⟨t', ht', hmaps⟩
    exact ⟨t', by rw [startingFrom_change, ht'], hmaps⟩
  · intro d hd
    exact ⟨t, by rw [startingFrom_change, hd]; rfl, h⟩

end Run

open Run (Mirrors)

namespace Expr

variable {g : Relabeling} {s t : Store}

theorem projectFrom_mirrors (h : g.Maps s t) (range : Range) (name : Name) (v : Value) :
    Mirrors g (Value.relabel g) (projectFrom range name v)
      (projectFrom (g.place range) name (v.relabel g)) s t := by
  have htext := v.toText_relabel g
  cases v with
  | record fields =>
      simp only [projectFrom, Value.relabel, Value.lookup_relabelFields]
      cases fields.lookup name with
      | none => exact .fault h _ _ (congrArg (Cause.missingMember name · false .runtime) htext)
      | some w => exact .pure h _ w
  | union variant payload =>
      simp only [projectFrom, Value.relabel]
      split
      · exact .pure h _ payload
      · exact .fault h _ _ rfl
  | _ => exact .fault h _ _ (congrArg (Cause.notProjectable · name .runtime) htext)

theorem apply_relocate (p : Primitive) (g : Relabeling) (vs : List Value) :
    p.apply (vs.map (Value.relabel g)) = (p.apply vs).relocate g.place (Value.relabel g) := by
  have hcomputes := p.apply_computes vs
  rw [p.apply_relabel]
  cases happly : p.apply vs with
  | ok v =>
      rw [happly] at hcomputes
      have hv : v.relabel g = v := Value.Constant.relabel g hcomputes
      simp only [Except.relocate, hv]
  | error d =>
      rw [happly] at hcomputes
      have hrange : d.range = Range.none := hcomputes
      obtain ⟨range, cause⟩ := d
      simp only at hrange
      simp only [Except.relocate, Diagnostic.relocate, hrange, g.place_none]

theorem eval_mirrors (fuel scope : Nat) (e : Expr) (h : g.Maps s t) :
    Mirrors g (Value.relabel g) (e.eval fuel scope)
      ((e.relabel g.place g.type).eval fuel (g.scope scope)) s t := by
  induction fuel generalizing scope e s t with
  | zero => exact ⟨t, rfl, h⟩
  | succ fuel ih =>
      cases e with
      | var range name =>
          refine Mirrors.get_bind ?_
          rw [h.lookup?]
          cases s.lookup? scope name with
          | some v => exact .pure h _ v
          | none => exact .fault h _ _ rfl
      | num range n => exact .pure h _ _
      | bool range b => exact .pure h _ _
      | lambda range param paramType body => exact .pure h _ _
      | apply range head args =>
          rw [relabel, relabelAll_eq_map]
          refine (ih scope head h).bind fun v s₁ t₁ h₁ => ?_
          have htext := v.toText_relabel g
          cases v with
          | closure param body captured =>
              rcases args with _ | ⟨arg, _ | ⟨second, rest⟩⟩
              · exact .fault h₁ _ _ rfl
              · refine (ih scope arg h₁).bind fun w s₂ t₂ h₂ => ?_
                refine (Mirrors.newScope h₂ captured param w).bind fun inner s₃ t₃ h₃ => ?_
                exact ih inner body h₃
              · have hlength : (rest.map (relabel g.place g.type)).length = rest.length :=
                  List.length_map _
                exact .fault h₁ _ _
                  (congrArg (fun n : Nat => Cause.arityMismatch 1 (n + 1 + 1 : Nat) .runtime) hlength)
          | prim p =>
              refine (Mirrors.mapM h₁ fun arg _ s t h => ih scope arg h).bind fun vs s₂ t₂ h₂ => ?_
              exact .ofExcept h₂ (apply_relocate p g vs)
          | _ => exact .fault h₁ _ _ (congrArg (Cause.notAFunction · .runtime) htext)
      | cond range guard thenBranch elseBranch =>
          refine (ih scope guard h).bind fun v s₁ t₁ h₁ => ?_
          have htext := v.toText_relabel g
          cases v with
          | bool b =>
              cases b with
              | true => exact ih scope thenBranch h₁
              | false => exact ih scope elseBranch h₁
          | _ =>
              rw [range_relabel]
              exact .fault h₁ _ _ (congrArg Cause.notABoolean htext)
      | record range fields =>
          rw [relabel, relabelFields_eq_map]
          have hfields := Mirrors.mapM
            (f := fun field : Name × Expr => (field.1, field.2.relabel g.place g.type))
            (k := fun entry : Name × Value => (entry.1, entry.2.relabel g))
            (x := fun field => do return (field.1, ← eval fuel scope field.2))
            (y := fun field => do return (field.1, ← eval fuel (g.scope scope) field.2))
            h fun field (_ : field ∈ fields) s t h =>
              (ih scope field.2 h).bind fun v s₁ t₁ h₁ => .pure h₁ _ _
          refine hfields.bind fun vs s₁ t₁ h₁ => ?_
          rw [← Value.relabel_ofFields]
          exact .pure h₁ (Value.relabel g) (.ofFields vs)
      | project range target name =>
          exact (ih scope target h).bind fun v s₁ t₁ h₁ => projectFrom_mirrors h₁ range name v
      | inject range variant payload =>
          exact (ih scope payload h).bind fun v s₁ t₁ h₁ => .pure h₁ _ _

end Expr

variable {g : Relabeling} {s t : Store}

/-- The message about a target that is no variable spells it out, so its text must stay as it is. -/
theorem Stmt.exec_mirrors_of_text (fuel scope : Nat) (stmt : Stmt)
    (htext : ∀ range target value, stmt = .assign range target value →
      (target.relabel g.place g.type).toText = target.toText)
    (h : g.Maps s t) :
    Mirrors g id (stmt.exec fuel scope) ((stmt.relabel g.place g.type).exec fuel (g.scope scope))
      s t := by
  cases stmt with
  | define range name value =>
      refine (value.eval_mirrors fuel scope h).bind fun v s₁ t₁ h₁ => ?_
      refine (Mirrors.change h₁ (h₁.define scope range name v)).bind fun _ s₂ t₂ h₂ => ?_
      exact .pure h₂ id none
  | assign range target value =>
      refine (value.eval_mirrors fuel scope h).bind fun v s₁ t₁ h₁ => ?_
      have htext := htext range target value rfl
      cases target with
      | var targetRange name =>
          refine Mirrors.get_bind ?_
          have hhas : t₁.has (g.scope scope) name = s₁.has scope name := by
            simp only [Store.has, h₁.owner?, Option.isSome_map]
          rw [hhas]
          split
          · refine (Mirrors.change h₁ (h₁.update scope name v)).bind fun _ s₂ t₂ h₂ => ?_
            exact .pure h₂ id none
          · exact .fault h₁ _ _ rfl
      | _ => exact .fault h₁ _ _ (congrArg (Cause.invalidTarget · .runtime) htext)
  | print range value =>
      refine (value.eval_mirrors fuel scope h).bind fun v s₁ t₁ h₁ => ?_
      rw [v.toText_relabel g]
      exact .pure h₁ id _

theorem Stmt.exec_mirrors (htype : g.type = id) (fuel scope : Nat) (stmt : Stmt)
    (h : g.Maps s t) :
    Mirrors g id (stmt.exec fuel scope) ((stmt.relabel g.place id).exec fuel (g.scope scope))
      s t := by
  have htext (target : Expr) : (target.relabel g.place g.type).toText = target.toText := by
    rw [htype, target.toText_relabel]
  rw [← htype]
  exact stmt.exec_mirrors_of_text fuel scope (fun _ target _ _ => htext target) h

theorem Script.exec_mirrors (htype : g.type = id) (fuel scope : Nat) (script : Script)
    (h : g.Maps s t) :
    Mirrors g id (script.exec fuel scope)
      (Script.exec fuel (g.scope scope) (script.map (Stmt.relabel g.place id))) s t := by
  induction script generalizing s t with
  | nil => exact .pure h id []
  | cons stmt rest ih =>
      refine (stmt.exec_mirrors htype fuel scope h).bind fun line s₁ t₁ h₁ => ?_
      exact (ih h₁).bind fun lines s₂ t₂ h₂ => .pure h₂ id _

end TypedSexp
