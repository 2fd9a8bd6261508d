import TypedSexp.Proofs.Run.Fuel
import TypedSexp.Proofs.Typing.Soundness

/-!
Checked expressions terminate. There is no measure that gets smaller, as a call evaluates the body
of a function that may come from anywhere. What carries the induction is a property of values that
is defined along their types: a function has it when every call of it, in any later store, ends with
a value that has it.
-/

namespace TypedSexp

namespace Store

structure Grows (s s' : Store) : Prop where
  size_le : s.size ≤ s'.size
  lookup? : ∀ {id : Nat} {name : Name} {v : Value},
    s.lookup? id name = some v → s'.lookup? id name = some v

variable {s s' s'' : Store}

theorem Grows.trans (h : s.Grows s') (h' : s'.Grows s'') : s.Grows s'' :=
  ⟨Nat.le_trans h.size_le h'.size_le, fun hv => h'.lookup? (h.lookup? hv)⟩

theorem Extends.grows (h : s.Extends s') : s.Grows s' where
  size_le := h.size_le
  lookup? {id name v} hv := by
    obtain ⟨owner, howner, hlookup⟩ := lookup?_eq_some_iff.mp hv
    have hid := lt_size_of_owner? howner
    have hlt : owner < s.size := Nat.lt_of_le_of_lt (owner?_le howner) hid
    exact lookup?_eq_some_iff.mpr ⟨owner, (h.owner?_eq hid).trans howner, by rwa [h.values_eq hlt]⟩

theorem lookup?_newScope {captured : Nat} (hcaptured : captured < s.size) (param : Name)
    (v : Value) (name : Name) :
    (s.newScope (some captured) [(param, v)]).2.lookup? s.size name =
      if name = param then some v else s.lookup? captured name := by
  have howner := owner?_newScope hcaptured param v name
  split
  case isTrue hname =>
    rw [if_pos hname] at howner
    rw [lookup?_eq howner, values_newScope_self, hname]
    exact List.lookup_cons_self
  case isFalse hname =>
    rw [if_neg hname] at howner
    rw [lookup?, howner, lookup?]
    cases hcap : s.owner? name captured with
    | none => rfl
    | some owner =>
        have hlt : owner < s.size := Nat.lt_of_le_of_lt (owner?_le hcap) hcaptured
        have hext := Extends.newScope s (some captured) [(param, v)]
        simp only [Option.bind_eq_bind, Option.bind_some, hext.values_eq hlt]

end Store

def Halt.IsOverflow : Halt → Prop
  | .fault d => d.IsOverflow
  | .outOfFuel => False

namespace Run

variable {α β : Type} {s : Store}

def Settles (x : Nat → Run α) (s : Store) (Q : α → Store → Prop) (E : Halt → Store → Prop) : Prop :=
  ∃ least, (∀ fuel ≥ least, (x fuel).startingFrom s = (x least).startingFrom s) ∧
    Ensures (x least) s Q E

section settles

variable {Q : α → Store → Prop} {Q' : β → Store → Prop} {E : Halt → Store → Prop}

theorem Settles.const {x : Run α} (h : Ensures x s Q E) : Settles (fun _ => x) s Q E :=
  ⟨0, fun _ _ => rfl, h⟩

theorem Settles.succ {x : Nat → Run α} (h : Settles (fun fuel => x (fuel + 1)) s Q E) :
    Settles x s Q E := by
  obtain ⟨least, hleast, hx⟩ := h
  refine ⟨least + 1, fun fuel hfuel => ?_, hx⟩
  obtain ⟨fuel, rfl⟩ : ∃ n, fuel = n + 1 := ⟨fuel - 1, by omega⟩
  exact hleast fuel (by omega)

theorem Settles.bind {x : Nat → Run α} {f : Nat → α → Run β} (hx : Settles x s Q E)
    (hf : ∀ a s', Q a s' → Settles (fun fuel => f fuel a) s' Q' E) :
    Settles (fun fuel => x fuel >>= f fuel) s Q' E := by
  obtain ⟨least, hleast, hx⟩ := hx
  rcases hresult : (x least).startingFrom s with ⟨halt | a, s'⟩
  · refine ⟨least, fun fuel hfuel => ?_, ?_⟩
    · rw [startingFrom_bind, startingFrom_bind, hleast fuel hfuel, hresult]
    · rw [ensures_bind]
      simp only [Ensures, hresult]
      exact hx.of_error hresult
  · obtain ⟨least', hleast', hf⟩ := hf a s' (hx.of_ok hresult)
    have hbind (fuel : Nat) (hfuel : fuel ≥ max least least') :
        (x fuel >>= f fuel).startingFrom s = (f least' a).startingFrom s' := by
      rw [startingFrom_bind, hleast fuel (by omega), hresult]
      exact hleast' fuel (by omega)
    refine ⟨max least least', fun fuel hfuel => ?_, ?_⟩
    · rw [hbind fuel hfuel, hbind _ (Nat.le_refl _)]
    · simpa only [Ensures, hbind _ (Nat.le_refl _)] using hf

theorem Settles.mono {x : Nat → Run α} {Q' : α → Store → Prop} {E' : Halt → Store → Prop}
    (h : Settles x s Q E) (hQ : ∀ a s', Q a s' → Q' a s')
    (hE : ∀ halt s', E halt s' → E' halt s') : Settles x s Q' E' := by
  obtain ⟨least, hleast, hx⟩ := h
  exact ⟨least, hleast, hx.mono hQ hE⟩

theorem Settles.imp {x : Nat → Run α} {Q' : α → Store → Prop} (h : Settles x s Q E)
    (hQ : ∀ a s', Q a s' → Q' a s') : Settles x s Q' E :=
  h.mono hQ fun _ _ he => he

end settles

def Terminates (x : Nat → Run α) (s : Store) (P : Store → α → Prop) : Prop :=
  Settles x s (fun a s' => s.Extends s' ∧ P s' a) fun halt _ => halt.IsOverflow

section terminates

variable {P : Store → α → Prop} {P' : Store → β → Prop}

theorem Terminates.pure {a : α} (h : P s a) : Terminates (fun _ => Pure.pure a) s P :=
  .const ⟨.refl s, h⟩

theorem Terminates.bind {x : Nat → Run α} {f : Nat → α → Run β} (hx : Terminates x s P)
    (hf : ∀ a s', s.Extends s' → P s' a → Terminates (fun fuel => f fuel a) s' P') :
    Terminates (fun fuel => x fuel >>= f fuel) s P' := by
  refine Settles.bind hx fun a s' ⟨hext, ha⟩ => ?_
  exact (hf a s' hext ha).imp fun b s'' ⟨hext', hb⟩ => ⟨hext.trans hext', hb⟩

theorem Terminates.ofExcept {x : Except Diagnostic α}
    (h : x.Ensures (P s) Diagnostic.IsOverflow) : Terminates (fun _ => Run.ofExcept x) s P := by
  refine .const ?_
  rw [ensures_ofExcept]
  exact h.mono (fun a ha => ⟨.refl s, ha⟩) fun d hd => hd

theorem Terminates.newScope {captured : Nat} {bindings : List (Name × Value)}
    {k : Nat → Nat → Run α}
    (h : Terminates (fun fuel => k fuel s.size) (s.newScope (some captured) bindings).2 P) :
    Terminates (fun fuel => modifyGet (·.newScope (some captured) bindings) >>= k fuel) s P := by
  have hext := Store.Extends.newScope s (some captured) bindings
  have hnew : Settles (fun _ => (modifyGet (·.newScope (some captured) bindings) : Run Nat)) s
      (fun inner s' => inner = s.size ∧ s' = (s.newScope (some captured) bindings).2)
      fun halt _ => halt.IsOverflow := .const ⟨rfl, rfl⟩
  refine Settles.bind hnew ?_
  rintro inner s' ⟨rfl, rfl⟩
  exact h.imp fun a s'' ⟨hext', ha⟩ => ⟨hext.trans hext', ha⟩

end terminates

end Run

open Run (Terminates)

namespace Value

mutual

/-- A value of the type that evaluation in later stores can rely on: a call of a function ends. -/
def Reducible : Ty → Store → Value → Prop
  | .nat, _, v => ∃ n, v = .num n
  | .bool, _, v => ∃ b, v = .bool b
  | .arrow inputs output, s, v =>
      (∃ p, v = .prim p ∧ .arrow inputs output = p.signature) ∨
      ∃ param body scope, v = .closure param body scope ∧ inputs.length = 1 ∧
        ∀ s' arg, s.Grows s' → ReducibleAll inputs s' [arg] →
          Terminates
            (fun fuel => do
              let inner ← modifyGet (·.newScope (some scope) [(param, arg)])
              body.eval fuel inner)
            s' fun s'' w => Reducible output s'' w
  | .record members, s, v => ∃ fields, v = .record fields ∧ ReducibleMembers members s fields
  | .union members, _, v => members = [] ∧ ∃ variant payload, v = .union variant payload

def ReducibleAll : List Ty → Store → List Value → Prop
  | [], _, vs => vs = []
  | t :: rest, s, vs => ∃ v ws, vs = v :: ws ∧ Reducible t s v ∧ ReducibleAll rest s ws

def ReducibleMembers : List (Name × Ty) → Store → List (Name × Value) → Prop
  | [], _, _ => True
  | (name, t) :: rest, s, fields =>
      (∃ v, fields.lookup name = some v ∧ Reducible t s v) ∧ ReducibleMembers rest s fields

end

variable {s s' : Store}

theorem Reducible.mono (h : s.Grows s') {t : Ty} {v : Value} (hv : Reducible t s v) :
    Reducible t s' v := by
  induction t using Ty.induct generalizing v with
  | nat =>
      rw [Reducible] at hv ⊢
      exact hv
  | bool =>
      rw [Reducible] at hv ⊢
      exact hv
  | arrow inputs output _ _ =>
      rw [Reducible] at hv ⊢
      rcases hv with hprim | ⟨param, body, scope, rfl, hlength, hcall⟩
      · exact .inl hprim
      · exact .inr ⟨param, body, scope, rfl, hlength,
          fun s'' arg h' harg => hcall s'' arg (h.trans h') harg⟩
  | record members ih =>
      rw [Reducible] at hv ⊢
      obtain ⟨fields, rfl, hmembers⟩ := hv
      refine ⟨fields, rfl, ?_⟩
      induction members with
      | nil => trivial
      | cons member rest ihrest =>
          obtain ⟨hmember, hrest⟩ := List.forall_mem_cons.mp ih
          rw [ReducibleMembers] at hmembers ⊢
          obtain ⟨⟨w, hw, hreducible⟩, hmembers⟩ := hmembers
          exact ⟨⟨w, hw, hmember hreducible⟩, ihrest hrest hmembers⟩
  | union members _ =>
      rw [Reducible] at hv ⊢
      exact hv

theorem ReducibleMembers.lookup {members : List (Name × Ty)} {fields : List (Name × Value)}
    (h : ReducibleMembers members s fields) {name : Name} {t : Ty}
    (ht : members.lookup name = some t) :
    ∃ v, fields.lookup name = some v ∧ Reducible t s v := by
  induction members with
  | nil => simp at ht
  | cons member rest ih =>
      obtain ⟨other, u⟩ := member
      rw [ReducibleMembers] at h
      rw [Members.lookup_cons] at ht
      split at ht
      case isTrue hname =>
        cases ht
        rw [hname]
        exact h.1
      case isFalse => exact ih h.2 ht

theorem reducibleMembers_of_forall {members : List (Name × Ty)} {fields : List (Name × Value)}
    (h : ∀ member ∈ members, ∃ v, fields.lookup member.1 = some v ∧ Reducible member.2 s v) :
    ReducibleMembers members s fields := by
  induction members with
  | nil => trivial
  | cons member rest ih =>
      obtain ⟨hmember, hrest⟩ := List.forall_mem_cons.mp h
      exact ⟨hmember, ih hrest⟩

theorem reducible_iff_hasType {t : Ty} (ht : t = .nat ∨ t = .bool) (W : Typing) {v : Value} :
    Reducible t s v ↔ v.HasType W t := by
  rcases ht with rfl | rfl
  · rw [Reducible]
    constructor
    · rintro ⟨n, rfl⟩
      exact .num
    · exact fun h => h.nat_inv
  · rw [Reducible]
    constructor
    · rintro ⟨b, rfl⟩
      exact .bool
    · exact fun h => h.bool_inv

theorem ReducibleAll.haveTypes {inputs : List Ty} (hinputs : ∀ t ∈ inputs, t = .nat ∨ t = .bool)
    (W : Typing) {vs : List Value} (h : ReducibleAll inputs s vs) : AllHaveTypes W vs inputs := by
  induction inputs generalizing vs with
  | nil =>
      obtain rfl : vs = [] := h
      exact .nil
  | cons t rest ih =>
      obtain ⟨ht, hrest⟩ := List.forall_mem_cons.mp hinputs
      obtain ⟨v, ws, rfl, hv, hws⟩ := h
      exact .cons ((reducible_iff_hasType ht W).mp hv) (ih hrest hws)

end Value

open Value (Reducible ReducibleAll ReducibleMembers)

theorem Primitive.apply_reducible (p : Primitive) {inputs : List Ty} {output : Ty} {s : Store}
    {vs : List Value} (hsignature : .arrow inputs output = p.signature)
    (h : ReducibleAll inputs s vs) :
    (p.apply vs).Ensures (Reducible output s) Diagnostic.IsOverflow := by
  have hbase : (∀ t ∈ inputs, t = .nat ∨ t = .bool) ∧ (output = .nat ∨ output = .bool) := by
    cases p <;> cases hsignature <;> simp
  have hsound := p.apply_sound hsignature (h.haveTypes hbase.1 fun _ => none)
  exact hsound.imp fun v hv => (Value.reducible_iff_hasType hbase.2 _).mpr hv

namespace Store

structure Realizes (s : Store) (scope : Nat) (Γ : Context) : Prop where
  lt_size : scope < s.size
  ordered : Γ.Ordered
  binds : ∀ {x : Name} {t : Ty}, Γ.lookup? x = some t →
    ∃ v, s.lookup? scope x = some v ∧ Reducible t s v

variable {s s' : Store} {scope : Nat} {Γ : Context}

theorem Realizes.mono (h : s.Realizes scope Γ) (hgrows : s.Grows s') : s'.Realizes scope Γ where
  lt_size := Nat.lt_of_lt_of_le h.lt_size hgrows.size_le
  ordered := h.ordered
  binds hx := by
    obtain ⟨v, hlookup, hv⟩ := h.binds hx
    exact ⟨v, hgrows.lookup? hlookup, hv.mono hgrows⟩

theorem Realizes.newScope (h : s.Realizes scope Γ) (param : Name) {t : Ty} (ht : t.Ordered)
    {arg : Value} (harg : Reducible t s arg) :
    (s.newScope (some scope) [(param, arg)]).2.Realizes s.size (Γ.extend param t) where
  lt_size := by
    rw [size_newScope]
    omega
  ordered := h.ordered.extend param ht
  binds {x u} hx := by
    have hgrows := (Extends.newScope s (some scope) [(param, arg)]).grows
    rw [Context.lookup?_extend] at hx
    rw [lookup?_newScope h.lt_size]
    split at hx
    case isTrue hname =>
      cases hx
      exact ⟨arg, if_pos hname, harg.mono hgrows⟩
    case isFalse hname =>
      obtain ⟨v, hlookup, hv⟩ := h.binds hx
      exact ⟨v, by rw [if_neg hname, hlookup], hv.mono hgrows⟩

end Store

namespace Expr

variable {s : Store} {scope : Nat} {Γ : Context}

def Normalizes (e : Expr) : Prop :=
  ∀ {Γ : Context} {t : Ty} {s : Store} {scope : Nat}, s.Realizes scope Γ → e.infer Γ = .ok t →
    Terminates (fun fuel => e.eval fuel scope) s fun s' v => Reducible t s' v

theorem all_terminate {args : List Expr} (hargs : ∀ e ∈ args, e.Normalizes) {types : List Ty}
    (hΓ : s.Realizes scope Γ) (htypes : inferAll Γ args = .ok types) :
    Terminates (fun fuel => args.mapM (eval fuel scope)) s fun s' vs => ReducibleAll types s' vs := by
  induction args generalizing s types with
  | nil =>
      cases htypes
      exact .pure rfl
  | cons e rest ih =>
      obtain ⟨he, hrest⟩ := List.forall_mem_cons.mp hargs
      simp only [inferAll, Except.bind_eq_ok_iff, Except.pure_eq_ok_iff] at htypes
      obtain ⟨t, ht, types, htypes, rfl⟩ := htypes
      simp only [List.mapM_cons]
      refine (he hΓ ht).bind fun v s₁ h₁ hv => ?_
      refine (ih hrest (hΓ.mono h₁.grows) htypes).bind fun vs s₂ h₂ hvs => ?_
      exact .pure ⟨v, vs, rfl, hv.mono h₂.grows, hvs⟩

theorem fields_terminate {fields : List (Name × Expr)}
    (hfields : ∀ field ∈ fields, field.2.Normalizes) {entries : List (Name × Ty)}
    (hΓ : s.Realizes scope Γ) (hentries : inferFields Γ fields = .ok entries) :
    Terminates
      (fun fuel => fields.mapM fun field => do return (field.1, ← eval fuel scope field.2)) s
      fun s' vs => Members.names vs = Members.names fields ∧
        Members.names entries = Members.names fields ∧
        ∀ entry ∈ entries, ∃ v, (entry.1, v) ∈ vs ∧ Reducible entry.2 s' v := by
  induction fields generalizing s entries with
  | nil =>
      cases hentries
      exact .pure ⟨rfl, rfl, by simp⟩
  | cons field rest ih =>
      obtain ⟨hfield, hrest⟩ := List.forall_mem_cons.mp hfields
      simp only [inferFields, Except.bind_eq_ok_iff, Except.pure_eq_ok_iff] at hentries
      obtain ⟨t, ht, entries, hentries, rfl⟩ := hentries
      simp only [List.mapM_cons, bind_assoc, pure_bind]
      refine (hfield hΓ ht).bind fun v s₁ h₁ hv => ?_
      refine (ih hrest (hΓ.mono h₁.grows) hentries).bind fun vs s₂ h₂ hvs => ?_
      obtain ⟨hnames, hentryNames, hvs⟩ := hvs
      refine .pure ⟨?_, ?_, ?_⟩
      · simpa [Members.names] using hnames
      · simpa [Members.names] using hentryNames
      · refine List.forall_mem_cons.mpr ⟨⟨v, by simp, hv.mono h₂.grows⟩, fun entry hentry => ?_⟩
        obtain ⟨w, hmem, hw⟩ := hvs entry hentry
        exact ⟨w, List.mem_cons_of_mem _ hmem, hw⟩

theorem normalizes_lambda {range : Range} {param : Name} {paramType : Ty} {body : Expr}
    (htype : paramType.Ordered) (hbody : body.Normalizes) :
    (Expr.lambda range param paramType body).Normalizes := by
  intro Γ t s scope hΓ ht
  simp only [infer, Except.bind_eq_ok_iff, Except.pure_eq_ok_iff] at ht
  obtain ⟨output, houtput, rfl⟩ := ht
  refine Run.Settles.succ (Terminates.pure ?_)
  rw [Reducible]
  refine .inr ⟨param, body, scope, rfl, rfl, fun s' arg hgrows harg => ?_⟩
  obtain ⟨_, _, heq, harg, -⟩ := harg
  cases heq
  exact .newScope (hbody ((hΓ.mono hgrows).newScope param htype harg) houtput)

theorem normalizes_apply {range : Range} {head : Expr} {args : List Expr} (hhead : head.Regular)
    (hargs : ∀ arg ∈ args, arg.Regular) (ihhead : head.Normalizes)
    (ihargs : ∀ arg ∈ args, arg.Normalizes) : (Expr.apply range head args).Normalizes := by
  intro Γ t s scope hΓ ht
  obtain ⟨inputs, hheadType, hinputs⟩ := infer_apply_ok hhead hargs hΓ.ordered ht
  refine Run.Settles.succ ?_
  simp only [eval]
  refine Terminates.bind (ihhead hΓ hheadType) fun f s₁ h₁ hf => ?_
  rw [Reducible] at hf
  rcases hf with ⟨p, rfl, hsignature⟩ | ⟨param, body, captured, rfl, hlength, hcall⟩
  · refine (all_terminate ihargs (hΓ.mono h₁.grows) hinputs).bind fun vs s₂ _ hvs => ?_
    exact .ofExcept (p.apply_reducible hsignature hvs)
  · have hcount := (inferAll_ok hargs hΓ.ordered hinputs).1
    obtain ⟨arg, rfl⟩ := List.length_eq_one_iff.mp (hcount.symm.trans hlength)
    simp only [inferAll, Except.bind_eq_ok_iff, Except.pure_eq_ok_iff] at hinputs
    obtain ⟨input, hinput, _, hnil, rfl⟩ := hinputs
    cases hnil
    refine (ihargs arg (by simp) (hΓ.mono h₁.grows) hinput).bind fun v s₂ h₂ hv => ?_
    exact hcall s₂ v h₂.grows ⟨v, [], rfl, hv, rfl⟩

theorem normalizes_record {range : Range} {fields : List (Name × Expr)}
    (hnodup : (Members.names fields).Nodup) (ih : ∀ field ∈ fields, field.2.Normalizes) :
    (Expr.record range fields).Normalizes := by
  intro Γ t s scope hΓ ht
  simp only [infer, Except.bind_eq_ok_iff, Except.pure_eq_ok_iff] at ht
  obtain ⟨entries, hentries, rfl⟩ := ht
  refine Run.Settles.succ ?_
  simp only [eval]
  refine Terminates.bind (fields_terminate ih hΓ hentries) fun vs s₁ h₁ hvs => ?_
  obtain ⟨hnames, -, hvs⟩ := hvs
  refine .pure ?_
  rw [Value.ofFields_of_nodup (hnames ▸ hnodup), Reducible]
  refine ⟨vs, rfl, Value.reducibleMembers_of_forall fun member hmember => ?_⟩
  obtain ⟨v, hmem, hv⟩ := hvs member (Members.mem_of_mem_ofList hmember)
  exact ⟨v, Members.lookup_of_mem (hnames ▸ hnodup) hmem, hv⟩

theorem normalizes_project {range : Range} {target : Expr} {name : Name}
    (ih : target.Normalizes) : (Expr.project range target name).Normalizes := by
  intro Γ t s scope hΓ ht
  refine Run.Settles.succ ?_
  simp only [eval]
  rcases infer_project_ok ht with ⟨members, htype, hmember⟩ | ⟨members, htype, hmember⟩
  · refine Terminates.bind (ih hΓ htype) fun v s₁ h₁ hv => ?_
    rw [Reducible] at hv
    obtain ⟨fields, rfl, hmembers⟩ := hv
    obtain ⟨w, hlookup, hw⟩ := hmembers.lookup hmember
    simp only [projectFrom, hlookup]
    exact .pure hw
  · refine Terminates.bind (ih hΓ htype) fun v s₁ h₁ hv => ?_
    rw [Reducible] at hv
    simp [hv.1] at hmember

/-- The induction is on the expression: what a call runs is covered by the value of its head. -/
theorem normalizes_of_regular {e : Expr} (he : e.Regular) : e.Normalizes := by
  induction he with
  | @var range name =>
      intro Γ t s scope hΓ ht
      simp only [infer] at ht
      split at ht
      case h_1 u hu =>
        cases ht
        obtain ⟨v, hlookup, hv⟩ := hΓ.binds hu
        refine Run.Settles.succ ?_
        simp only [eval]
        refine .const ?_
        simp only [Run.ensures_bind, Run.ensures_get, hlookup]
        exact ⟨.refl s, hv⟩
      case h_2 => simp at ht
  | @num range n =>
      intro Γ t s scope hΓ ht
      cases ht
      exact Run.Settles.succ (Terminates.pure ⟨n, rfl⟩)
  | @bool range b =>
      intro Γ t s scope hΓ ht
      cases ht
      exact Run.Settles.succ (Terminates.pure ⟨b, rfl⟩)
  | lambda htype _ ih => exact normalizes_lambda htype ih
  | apply hhead hargs ihhead ihargs => exact normalizes_apply hhead hargs ihhead ihargs
  | cond hguard hthen helse ihguard ihthen ihelse =>
      intro Γ t s scope hΓ ht
      obtain ⟨hguardType, hthenType, helseType⟩ := infer_cond_ok hguard hthen helse hΓ.ordered ht
      refine Run.Settles.succ ?_
      simp only [eval]
      refine Terminates.bind (ihguard hΓ hguardType) fun v s₁ h₁ hv => ?_
      obtain ⟨b, rfl⟩ := hv
      cases b with
      | true => exact ihthen (hΓ.mono h₁.grows) hthenType
      | false => exact ihelse (hΓ.mono h₁.grows) helseType
  | record hnodup _ ih => exact normalizes_record hnodup ih
  | project _ ih => exact normalizes_project ih
  | @inject range variant payload _ ih =>
      intro Γ t s scope hΓ ht
      simp only [infer, Except.bind_eq_ok_iff, Except.pure_eq_ok_iff] at ht
      obtain ⟨payloadType, hpayload, rfl⟩ := ht
      refine Run.Settles.succ ?_
      simp only [eval]
      refine Terminates.bind (ih hΓ hpayload) fun v s₁ h₁ hv => ?_
      exact .pure ⟨rfl, variant, v, rfl⟩

end Expr

end TypedSexp
