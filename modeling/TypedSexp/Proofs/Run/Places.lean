import TypedSexp.Proofs.Expr.Places
import TypedSexp.Proofs.Run.Handles

namespace TypedSexp

open Store (programScope)

namespace Expr

structure Sited (V W : Range → Prop) (e : Expr) : Prop where
  places : ∀ r, e.HasPlace r → W r
  bodies : ∀ range param paramType body, PartOf (.lambda range param paramType body) e →
    ∀ r, body.HasPlace r → V r

variable {V W : Range → Prop} {e : Expr}

theorem Sited.range (h : e.Sited V W) : W e.range := h.places _ e.hasPlace_range

theorem Sited.child (h : e.Sited V W) {c : Expr} (hchild : c ∈ e.children) : c.Sited V W where
  places r hr := h.places r (hr.inside hchild)
  bodies range param paramType body hpart :=
    h.bodies range param paramType body (.inside hchild hpart)

theorem PartOf.hasPlace {part : Expr} (hpart : PartOf part e) {r : Range} (hr : part.HasPlace r) :
    e.HasPlace r := by
  induction hpart with
  | self => exact hr
  | inside hchild _ ih => exact ih.inside hchild

theorem sited_of_places (hVW : ∀ r, V r → W r) (h : ∀ r, e.HasPlace r → V r) : e.Sited V W where
  places r hr := hVW r (h r hr)
  bodies range param paramType body hpart r hr :=
    h r (hpart.hasPlace (hr.inside (e := .lambda range param paramType body) (by simp [children])))

end Expr

namespace Value

inductive BodiesIn (V : Range → Prop) : Value → Prop
  | num {n : UInt64} : BodiesIn V (.num n)
  | bool {b : Bool} : BodiesIn V (.bool b)
  | prim {p : Primitive} : BodiesIn V (.prim p)
  | closure {param : Name} {body : Expr} {scope : Nat} :
      (∀ r, body.HasPlace r → V r) → BodiesIn V (.closure param body scope)
  | record {fields : List (Name × Value)} :
      (∀ field ∈ fields, BodiesIn V field.2) → BodiesIn V (.record fields)
  | union {variant : Name} {payload : Value} :
      BodiesIn V payload → BodiesIn V (.union variant payload)

variable {V : Range → Prop}

theorem BodiesIn.ofFields {fields : List (Name × Value)}
    (h : ∀ field ∈ fields, field.2.BodiesIn V) : (Value.ofFields fields).BodiesIn V :=
  .record fun field hmem => h field (Members.mem_of_mem_listed hmem)

theorem BodiesIn.of_mem_record {fields : List (Name × Value)}
    (h : (Value.record fields).BodiesIn V) {field : Name × Value} (hmem : field ∈ fields) :
    field.2.BodiesIn V := by
  cases h with
  | record hfields => exact hfields field hmem

theorem BodiesIn.payload {variant : Name} {payload : Value}
    (h : (Value.union variant payload).BodiesIn V) : payload.BodiesIn V := by
  cases h with
  | union hpayload => exact hpayload

theorem Constant.bodiesIn {v : Value} (h : v.Constant) : v.BodiesIn V := by
  cases v with
  | num n => exact .num
  | bool b => exact .bool
  | _ => exact absurd h (by simp [Constant])

end Value

namespace Store

def BodiesIn (V : Range → Prop) (s : Store) : Prop :=
  ∀ id, ∀ binding ∈ s.values id, binding.2.BodiesIn V

variable {V : Range → Prop} {s s' : Store} {id : Nat} {name : Name} {v : Value} {range : Range}

theorem initial_bodiesIn : initial.BodiesIn V := by
  intro id binding h
  match id with
  | 0 =>
      rw [values_initial] at h
      obtain ⟨p, -, rfl⟩ := List.mem_map.mp (Members.mem_of_mem_ofList h)
      exact .prim
  | 1 => cases h
  | id + 2 => cases h

theorem BodiesIn.lookup? (h : s.BodiesIn V) (hlookup : s.lookup? id name = some v) :
    v.BodiesIn V := by
  obtain ⟨owner, -, hv⟩ := lookup?_eq_some_iff.mp hlookup
  exact h owner _ (Members.mem_of_lookup hv)

theorem BodiesIn.newScope (h : s.BodiesIn V) (captured : Nat) (name : Name)
    (hv : v.BodiesIn V) : (s.newScope (some captured) [(name, v)]).2.BodiesIn V := by
  intro id binding hmem
  by_cases hid : id = s.size
  · subst hid
    rw [values_newScope_self] at hmem
    obtain rfl := List.mem_singleton.mp (Members.mem_of_mem_ofList hmem)
    exact hv
  · simp only [values, scope?_newScope, if_neg hid] at hmem
    exact h id binding hmem

theorem BodiesIn.define (h : s.BodiesIn V) (hv : v.BodiesIn V)
    (hdefine : s.define id range name v = .ok s') : s'.BodiesIn V := by
  intro i binding hmem
  rcases mem_values_define hdefine hmem with rfl | hold
  · exact hv
  · exact h i binding hold

theorem BodiesIn.update (h : s.BodiesIn V) (hv : v.BodiesIn V)
    (hupdate : s.update id name v = .ok s') : s'.BodiesIn V := by
  intro i binding hmem
  rcases mem_values_update hupdate hmem with rfl | hold
  · exact hv
  · exact h i binding hold

end Store

namespace Diagnostic

def IsMisuse (d : Diagnostic) : Prop := ∃ name misuse, d.cause = .primitiveMisuse name misuse

structure RunsInto (W : Range → Prop) (d : Diagnostic) : Prop where
  stage : d.cause.stage = .runtime
  place : (d.IsMisuse ∧ d.range = Range.none) ∨ (¬d.IsMisuse ∧ W d.range)

end Diagnostic

namespace Primitive

variable {p : Primitive} {d : Diagnostic}

theorem misuse_of_bounded {a b spilled result : UInt64}
    (h : p.bounded a b spilled result = .error d) : d.IsMisuse := by
  unfold bounded at h
  split at h
  · cases h
  · cases h
    exact ⟨_, _, rfl⟩

theorem misuse_of_onNumbers {f : UInt64 → UInt64 → Except Diagnostic Value} {vs : List Value}
    (h : p.onNumbers f vs = .error d) (hf : ∀ a b, f a b = .error d → d.IsMisuse) :
    d.IsMisuse := by
  unfold onNumbers at h
  split at h
  · exact hf _ _ h
  · cases h
    exact ⟨_, _, rfl⟩
  · cases h
    exact ⟨_, _, rfl⟩

theorem misuse_of_onBooleans {f : Bool → Bool → Bool} {vs : List Value}
    (h : p.onBooleans f vs = .error d) : d.IsMisuse := by
  unfold onBooleans at h
  split at h
  · cases h
  · cases h
    exact ⟨_, _, rfl⟩
  · cases h
    exact ⟨_, _, rfl⟩

theorem misuse_of_apply {vs : List Value} (h : p.apply vs = .error d) : d.IsMisuse := by
  cases p with
  | add => exact misuse_of_onNumbers h fun a b => misuse_of_bounded
  | mul => exact misuse_of_onNumbers h fun a b => misuse_of_bounded
  | sub => exact misuse_of_onNumbers h fun a b hab => nomatch hab
  | equal => exact misuse_of_onNumbers h fun a b hab => nomatch hab
  | less => exact misuse_of_onNumbers h fun a b hab => nomatch hab
  | and => exact misuse_of_onBooleans h
  | or => exact misuse_of_onBooleans h
  | isZero =>
      simp only [apply] at h
      split at h
      · cases h
      · cases h
        exact ⟨_, _, rfl⟩
      · cases h
        exact ⟨_, _, rfl⟩
  | not =>
      simp only [apply] at h
      split at h
      · cases h
      · cases h
        exact ⟨_, _, rfl⟩
      · cases h
        exact ⟨_, _, rfl⟩

end Primitive

theorem Diagnostic.IsMisuse.runsInto {W : Range → Prop} {d : Diagnostic} (h : d.IsMisuse)
    (hrange : d.range = Range.none) : d.RunsInto W := by
  obtain ⟨name, misuse, hcause⟩ := h
  exact ⟨by rw [hcause]; rfl, .inl ⟨⟨name, misuse, hcause⟩, hrange⟩⟩

namespace Run

variable {α β : Type} {V W : Range → Prop} {s : Store}

def StopsIn (W : Range → Prop) : Halt → Prop
  | .fault d => d.RunsInto W
  | .outOfFuel => True

def Traces (V W : Range → Prop) (x : Run α) (s : Store) (P : α → Prop) : Prop :=
  Ensures x s (fun a s' => s'.BodiesIn V ∧ P a) fun halt s' => s'.BodiesIn V ∧ StopsIn W halt

theorem Traces.pure {P : α → Prop} (hs : s.BodiesIn V) {a : α} (ha : P a) :
    Traces V W (Pure.pure a) s P := ⟨hs, ha⟩

theorem Traces.fault {P : α → Prop} (hs : s.BodiesIn V) {range : Range} (hrange : W range)
    {cause : Cause} (hstage : cause.stage = .runtime)
    (hcause : ∀ name misuse, cause ≠ .primitiveMisuse name misuse) :
    Traces V W (Run.fault range cause) s P :=
  ⟨hs, hstage, .inr ⟨fun ⟨name, misuse, h⟩ => hcause name misuse h, hrange⟩⟩

theorem Traces.bind {x : Run α} {f : α → Run β} {P : α → Prop} {Q : β → Prop}
    (hx : Traces V W x s P) (hf : ∀ a s', s'.BodiesIn V → P a → Traces V W (f a) s' Q) :
    Traces V W (x >>= f) s Q := by
  rw [Traces, ensures_bind]
  exact hx.imp fun a s' ⟨hs', ha⟩ => hf a s' hs' ha

theorem Traces.mapM {f : α → Run β} {as : List α} {P : β → Prop} (hs : s.BodiesIn V)
    (h : ∀ a ∈ as, ∀ s' : Store, s'.BodiesIn V → Traces V W (f a) s' P) :
    Traces V W (as.mapM f) s fun bs => ∀ b ∈ bs, P b := by
  induction as generalizing s with
  | nil => exact .pure hs (by simp)
  | cons a rest ih =>
      obtain ⟨ha, hrest⟩ := List.forall_mem_cons.mp h
      rw [List.mapM_cons]
      refine (ha s hs).bind fun b s₁ hs₁ hb => ?_
      refine (ih hs₁ hrest).bind fun bs s₂ hs₂ hbs => ?_
      exact .pure hs₂ (List.forall_mem_cons.mpr ⟨hb, hbs⟩)

end Run

open Run (Traces)

namespace Expr

variable {V W : Range → Prop} {s : Store}

theorem projectFrom_traces {range : Range} (hrange : W range) (name : Name) {v : Value}
    (hs : s.BodiesIn V) (hv : v.BodiesIn V) :
    Traces V W (projectFrom range name v) s fun w => w.BodiesIn V := by
  unfold projectFrom
  split
  case h_1 fields =>
    split
    case h_1 w hw => exact .pure hs (hv.of_mem_record (Members.mem_of_lookup hw))
    case h_2 => exact .fault hs hrange rfl (by simp)
  case h_2 variant payload =>
    split
    · exact .pure hs hv.payload
    · exact .fault hs hrange rfl (by simp)
  case h_3 => exact .fault hs hrange rfl (by simp)

theorem eval_traces (hVW : ∀ r, V r → W r) (fuel scope : Nat) {e : Expr} (he : e.Sited V W)
    (hs : s.BodiesIn V) : Traces V W (e.eval fuel scope) s fun v => v.BodiesIn V := by
  induction fuel generalizing scope e s with
  | zero => exact ⟨hs, trivial⟩
  | succ fuel ih =>
      have hrange : W e.range := he.range
      cases e with
      | var range name =>
          simp only [eval, Traces, Run.ensures_bind, Run.ensures_get]
          cases hlookup : s.lookup? scope name with
          | some v => exact Traces.pure hs (hs.lookup? hlookup)
          | none => exact Traces.fault hs hrange rfl (by simp)
      | num range n => exact .pure hs .num
      | bool range b => exact .pure hs .bool
      | lambda range param paramType body =>
          exact .pure hs (.closure (he.bodies range param paramType body .self))
      | apply range head args =>
          have harg (arg : Expr) (harg : arg ∈ args) : arg.Sited V W :=
            he.child (by simp [children, harg])
          refine (ih scope (he.child (c := head) (by simp [children])) hs).bind
            fun v s₁ hs₁ hv => ?_
          cases v with
          | closure param body captured =>
              rcases args with _ | ⟨arg, _ | ⟨second, rest⟩⟩
              · exact .fault hs₁ hrange rfl (by simp)
              · refine (ih scope (harg arg (by simp)) hs₁).bind fun w s₂ hs₂ hw => ?_
                -- the body brings its own places along, wherever it is called from
                have hbody : body.Sited V W := by
                  cases hv with
                  | closure hbody => exact sited_of_places hVW hbody
                rw [Traces, Run.ensures_bind, Run.ensures_modifyGet]
                exact ih s₂.size hbody (hs₂.newScope captured param hw)
              · exact .fault hs₁ hrange rfl (by simp)
          | prim p =>
              have hargs := Traces.mapM hs₁ fun arg hmem s' hs' => ih scope (harg arg hmem) hs'
              refine hargs.bind fun vs s₂ hs₂ _ => ?_
              rw [Traces, Run.ensures_ofExcept]
              have hcomputes := p.apply_computes vs
              cases happly : p.apply vs with
              | ok v => exact ⟨hs₂, (hcomputes.of_ok happly).bodiesIn⟩
              | error d =>
                  exact ⟨hs₂, (Primitive.misuse_of_apply happly).runsInto
                    (hcomputes.of_error happly)⟩
          | _ => exact .fault hs₁ hrange rfl (by simp)
      | cond range guard thenBranch elseBranch =>
          have hguard := he.child (c := guard) (by simp [children])
          refine (ih scope hguard hs).bind fun v s₁ hs₁ _ => ?_
          cases v with
          | bool b =>
              cases b with
              | true => exact ih scope (he.child (by simp [children])) hs₁
              | false => exact ih scope (he.child (by simp [children])) hs₁
          | _ => exact .fault hs₁ hguard.range rfl (by simp)
      | record range fields =>
          have hfields := Traces.mapM
            (f := fun field : Name × Expr => do return (field.1, ← eval fuel scope field.2))
            (P := fun entry : Name × Value => entry.2.BodiesIn V) hs
            fun field hfield s' hs' =>
              (ih scope (he.child (List.mem_map_of_mem hfield)) hs').bind
                fun v s'' hs'' hv => .pure hs'' hv
          exact hfields.bind fun vs s₁ hs₁ hvs => .pure hs₁ (.ofFields hvs)
      | project range target name =>
          refine (ih scope (he.child (by simp [children])) hs).bind fun v s₁ hs₁ hv => ?_
          exact projectFrom_traces hrange name hs₁ hv
      | inject range variant payload =>
          refine (ih scope (he.child (by simp [children])) hs).bind fun v s₁ hs₁ hv => ?_
          exact .pure hs₁ (.union hv)

end Expr

structure Stmt.Sited (V W : Range → Prop) (stmt : Stmt) : Prop where
  range : W stmt.range
  children : ∀ e ∈ stmt.children, e.Sited V W

theorem Stmt.exec_traces {V W : Range → Prop} (hVW : ∀ r, V r → W r) (fuel : Nat) {stmt : Stmt}
    (hstmt : stmt.Sited V W) {s : Store} (hs : s.BodiesIn V) :
    Traces V W (stmt.exec fuel programScope) s fun _ => True := by
  have hrange : W stmt.range := hstmt.range
  have heval {e : Expr} (he : e ∈ stmt.children) :=
    Expr.eval_traces hVW fuel programScope (hstmt.children e he) hs
  cases stmt with
  | define range name value =>
      refine (heval (e := value) (by simp [Stmt.children])).bind fun v s₁ hs₁ hv => ?_
      simp only [Traces, Run.ensures_bind, Run.ensures_change, Run.ensures_pure]
      cases hdefine : s₁.define programScope range name v with
      | error d =>
          have hd : d = ⟨range, .redefinition name⟩ := by
            unfold Store.define at hdefine
            split at hdefine
            · cases hdefine
              rfl
            · cases hdefine
          subst hd
          exact ⟨hs₁, rfl, .inr ⟨by simp [Diagnostic.IsMisuse], hrange⟩⟩
      | ok s₂ => exact ⟨hs₁.define hv hdefine, trivial⟩
  | assign range target value =>
      refine (heval (e := value) (by simp [Stmt.children])).bind fun v s₁ hs₁ hv => ?_
      have htarget : W target.range := (hstmt.children target (by simp [Stmt.children])).range
      cases target with
      | var targetRange name =>
          simp only [Traces, Run.ensures_bind, Run.ensures_get]
          split
          case isTrue hhas =>
            simp only [Run.ensures_bind, Run.ensures_change, Run.ensures_pure]
            cases hupdate : s₁.update programScope name v with
            | error d =>
                -- an assignment to a name that is bound cannot fail
                unfold Store.update at hupdate
                rw [Store.has] at hhas
                cases howner : s₁.owner? name programScope with
                | none => simp [howner] at hhas
                | some owner => simp [howner] at hupdate
            | ok s₂ => exact ⟨hs₁.update hv hupdate, trivial⟩
          case isFalse => exact Traces.fault hs₁ htarget rfl (by simp)
      | _ => exact .fault hs₁ htarget rfl (by simp)
  | print range value =>
      refine (heval (e := value) (by simp [Stmt.children])).bind fun v s₁ hs₁ _ => ?_
      exact .pure hs₁ trivial

end TypedSexp
