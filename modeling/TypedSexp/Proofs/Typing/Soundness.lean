import TypedSexp.Proofs.Run.Frame
import TypedSexp.Proofs.Typing.Values

namespace TypedSexp

def Diagnostic.IsOverflow (d : Diagnostic) : Prop :=
  ∃ p a b, (p = Primitive.add ∨ p = Primitive.mul) ∧
    d.cause = .primitiveMisuse p.name (.overflow a b)

inductive Halt.IsBenign : Halt → Prop
  | outOfFuel : IsBenign .outOfFuel
  | overflow {d : Diagnostic} : d.IsOverflow → IsBenign (.fault d)

namespace Value

variable {W : Typing}

inductive AllHaveTypes (W : Typing) : List Value → List Ty → Prop
  | nil : AllHaveTypes W [] []
  | cons {v : Value} {t : Ty} {vs : List Value} {ts : List Ty} :
      v.HasType W t → AllHaveTypes W vs ts → AllHaveTypes W (v :: vs) (t :: ts)

theorem HasType.nat_inv {v : Value} (h : v.HasType W .nat) : ∃ n, v = .num n := by
  cases h with
  | num => exact ⟨_, rfl⟩
  | @prim p _ hsignature => cases p <;> simp [Primitive.signature] at hsignature

theorem HasType.bool_inv {v : Value} (h : v.HasType W .bool) : ∃ b, v = .bool b := by
  cases h with
  | bool => exact ⟨_, rfl⟩
  | @prim p _ hsignature => cases p <;> simp [Primitive.signature] at hsignature

theorem HasType.record_inv {v : Value} {members : List (Name × Ty)} {name : Name} {t : Ty}
    (h : v.HasType W (.record members)) (ht : members.lookup name = some t) :
    ∃ fields w, v = .record fields ∧ fields.lookup name = some w ∧ w.HasType W t := by
  cases h with
  | @prim p _ hsignature => cases p <;> simp [Primitive.signature] at hsignature
  | @record fields _ hnodup hnames hfields =>
      have hmem : name ∈ Members.names fields := (hnames name).mpr ⟨t, ht⟩
      obtain ⟨⟨_, w⟩, hfield, rfl⟩ := List.mem_map.mp hmem
      exact ⟨fields, w, rfl, Members.lookup_of_mem hnodup hfield, hfields _ w t hfield ht⟩

theorem HasType.union_inv {v : Value} {members : List (Name × Ty)}
    (h : v.HasType W (.union members)) : members = [] := by
  cases h with
  | @prim p _ hsignature => cases p <;> simp [Primitive.signature] at hsignature
  | union => rfl

theorem AllHaveTypes.one {vs : List Value} {t : Ty} (h : AllHaveTypes W vs [t]) :
    ∃ v, vs = [v] ∧ v.HasType W t := by
  cases h with
  | cons hv hnil =>
      cases hnil
      exact ⟨_, rfl, hv⟩

theorem AllHaveTypes.two {vs : List Value} {t u : Ty} (h : AllHaveTypes W vs [t, u]) :
    ∃ v w, vs = [v, w] ∧ v.HasType W t ∧ w.HasType W u := by
  cases h with
  | cons hv hrest =>
      obtain ⟨w, rfl, hw⟩ := hrest.one
      exact ⟨_, w, rfl, hv, hw⟩

end Value

namespace Primitive

open Value (AllHaveTypes)

variable {W : Typing} {vs : List Value}

theorem onNumbers_ensures {p : Primitive} {f : UInt64 → UInt64 → Except Diagnostic Value}
    {P : Value → Prop} {E : Diagnostic → Prop} (h : AllHaveTypes W vs [.nat, .nat])
    (hf : ∀ a b, (f a b).Ensures P E) : (p.onNumbers f vs).Ensures P E := by
  obtain ⟨v, w, rfl, hv, hw⟩ := h.two
  obtain ⟨a, rfl⟩ := hv.nat_inv
  obtain ⟨b, rfl⟩ := hw.nat_inv
  exact hf a b

theorem onBooleans_ensures {p : Primitive} {f : Bool → Bool → Bool} {E : Diagnostic → Prop}
    (h : AllHaveTypes W vs [.bool, .bool]) :
    (p.onBooleans f vs).Ensures (Value.HasType W · .bool) E := by
  obtain ⟨v, w, rfl, hv, hw⟩ := h.two
  obtain ⟨a, rfl⟩ := hv.bool_inv
  obtain ⟨b, rfl⟩ := hw.bool_inv
  exact .bool

theorem bounded_ensures {p : Primitive} (hp : p = .add ∨ p = .mul)
    (a b spilled result : UInt64) :
    (p.bounded a b spilled result).Ensures (Value.HasType W · .nat) Diagnostic.IsOverflow := by
  unfold bounded
  split
  · exact .num
  · exact ⟨p, a, b, hp, rfl⟩

theorem apply_sound (p : Primitive) {inputs : List Ty} {output : Ty}
    (hsignature : .arrow inputs output = p.signature) (h : AllHaveTypes W vs inputs) :
    (p.apply vs).Ensures (Value.HasType W · output) Diagnostic.IsOverflow := by
  cases p with
  | add =>
      cases hsignature
      exact onNumbers_ensures h fun a b => bounded_ensures (.inl rfl) a b _ _
  | mul =>
      cases hsignature
      exact onNumbers_ensures h fun a b => bounded_ensures (.inr rfl) a b _ _
  | sub =>
      cases hsignature
      exact onNumbers_ensures h fun a b => .num
  | equal =>
      cases hsignature
      exact onNumbers_ensures h fun a b => .bool
  | less =>
      cases hsignature
      exact onNumbers_ensures h fun a b => .bool
  | and =>
      cases hsignature
      exact onBooleans_ensures h
  | or =>
      cases hsignature
      exact onBooleans_ensures h
  | isZero =>
      cases hsignature
      obtain ⟨v, rfl, hv⟩ := h.one
      obtain ⟨n, rfl⟩ := hv.nat_inv
      exact .bool
  | not =>
      cases hsignature
      obtain ⟨v, rfl, hv⟩ := h.one
      obtain ⟨b, rfl⟩ := hv.bool_inv
      exact .bool

end Primitive

namespace Run

variable {α β : Type} {C : Name → Bool} {W : Typing} {s : Store}

def Yields (C : Name → Bool) (W : Typing) (s : Store) (x : Run α) (P : Typing → α → Prop) : Prop :=
  Ensures x s (fun a s' => ∃ W', W.Extends W' ∧ s.Extends s' ∧ s'.Typed C W' ∧ P W' a)
    fun halt _ => halt.IsBenign

theorem Yields.bind {x : Run α} {f : α → Run β} {P : Typing → α → Prop} {Q : Typing → β → Prop}
    (hx : Yields C W s x P)
    (hf : ∀ a W' s', W.Extends W' → s.Extends s' → s'.Typed C W' → P W' a →
      Yields C W' s' (f a) Q) : Yields C W s (x >>= f) Q := by
  rw [Yields, ensures_bind]
  refine hx.imp fun a s' ⟨W', hW, hs, htyped, ha⟩ => ?_
  refine (hf a W' s' hW hs htyped ha).imp fun b s'' ⟨W'', hW', hs', htyped', hb⟩ => ?_
  exact ⟨W'', hW.trans hW', hs.trans hs', htyped', hb⟩

theorem Yields.pure {a : α} {P : Typing → α → Prop} (htyped : s.Typed C W) (ha : P W a) :
    Yields C W s (Pure.pure a) P :=
  ⟨W, .refl W, .refl s, htyped, ha⟩

theorem Yields.ofExcept {x : Except Diagnostic α} {P : Typing → α → Prop} (htyped : s.Typed C W)
    (hx : x.Ensures (P W) Diagnostic.IsOverflow) : Yields C W s (Run.ofExcept x) P := by
  rw [Yields, ensures_ofExcept]
  exact hx.mono (fun a ha => ⟨W, .refl W, .refl s, htyped, ha⟩) fun _ hd => .overflow hd

end Run

/-- A scope in which an expression that was checked in `Γ` may be evaluated: it sees `Γ`, and the
names that functions made by the expression take from it are known of the scope. -/
structure Expr.Supported (W : Typing) (s : Store) (scope : Nat) (Γ : Context) (e : Expr) :
    Prop where
  sees : s.Sees (fun _ => true) W scope Γ
  captured : ∃ Δ, W scope = some Δ ∧
    ∀ x t, e.captures x = true → Γ.lookup? x = some t → Δ.lookup? x = some t

namespace Expr

open Run (Yields)

open Value (AllHaveTypes)

variable {C : Name → Bool} {W W' : Typing} {s s' : Store} {scope : Nat} {Γ : Context} {e : Expr}

theorem Supported.mono (h : Supported W s scope Γ e) (hW : W.Extends W') (hs : s.Extends s') :
    Supported W' s' scope Γ e := by
  obtain ⟨Δ, hΔ, hcaptured⟩ := h.captured
  exact ⟨h.sees.of_grows hW.grows hs, Δ, hW scope Δ hΔ, hcaptured⟩

theorem Supported.part (h : Supported W s scope Γ e) (e' : Expr)
    (hpart : ∀ x, e'.captures x = true → e.captures x = true) : Supported W s scope Γ e' := by
  obtain ⟨Δ, hΔ, hcaptured⟩ := h.captured
  exact ⟨h.sees, Δ, hΔ, fun x t hx => hcaptured x t (hpart x hx)⟩

theorem supported_of_typed (h : s.Typed C W) (hΓ : W scope = some Γ) (e : Expr) :
    Supported W s scope Γ e where
  sees := (h.sees hΓ).mono (fun _ _ => rfl) (.refl W) (.refl s)
  captured := ⟨Γ, hΓ, fun _ _ _ ht => ht⟩

theorem capturesAny_of_mem {x : Name} {args : List Expr} (hmem : e ∈ args)
    (h : e.captures x = true) : capturesAny x args = true := by
  induction args with
  | nil => simp at hmem
  | cons first rest ih =>
      rcases List.mem_cons.mp hmem with rfl | hmem
      · simp [capturesAny, h]
      · simp [capturesAny, ih hmem]

theorem capturesField_of_mem {x : Name} {fields : List (Name × Expr)} {field : Name × Expr}
    (hmem : field ∈ fields) (h : field.2.captures x = true) :
    capturesField x fields = true := by
  induction fields with
  | nil => simp at hmem
  | cons first rest ih =>
      rcases List.mem_cons.mp hmem with rfl | hmem
      · simp [capturesField, h]
      · simp [capturesField, ih hmem]

def SoundWith (C : Name → Bool) (fuel : Nat) : Prop :=
  ∀ {W : Typing} {s : Store} {scope : Nat} {Γ : Context} {e : Expr} {t : Ty},
    s.Typed C W → Supported W s scope Γ e → e.Readable → e.infer Γ = .ok t →
    Yields C W s (e.eval fuel scope) fun W' v => v.HasType W' t

variable {fuel : Nat}

theorem SoundWith.all (hsound : SoundWith C fuel) {args : List Expr} {types : List Ty}
    (htyped : s.Typed C W) (hsupported : ∀ e ∈ args, Supported W s scope Γ e)
    (hargs : ∀ e ∈ args, e.Readable) (htypes : inferAll Γ args = .ok types) :
    Yields C W s (args.mapM (eval fuel scope)) fun W' vs => AllHaveTypes W' vs types := by
  induction args generalizing W s types with
  | nil =>
      cases htypes
      exact .pure htyped .nil
  | cons e rest ih =>
      obtain ⟨he, hrest⟩ := List.forall_mem_cons.mp hargs
      obtain ⟨hse, hsrest⟩ := List.forall_mem_cons.mp hsupported
      simp only [inferAll, Except.bind_eq_ok_iff, Except.pure_eq_ok_iff] at htypes
      obtain ⟨t, ht, types, htypes, rfl⟩ := htypes
      rw [List.mapM_cons]
      refine (hsound htyped hse he ht).bind fun v W₁ s₁ hW₁ hs₁ htyped₁ hv => ?_
      have hsrest₁ := fun e he => (hsrest e he).mono hW₁ hs₁
      refine (ih htyped₁ hsrest₁ hrest htypes).bind fun vs W₂ s₂ hW₂ hs₂ htyped₂ hvs => ?_
      exact .pure htyped₂ (.cons (hv.mono hW₂.grows) hvs)

theorem SoundWith.fields (hsound : SoundWith C fuel) {fields : List (Name × Expr)}
    {entries : List (Name × Ty)} (htyped : s.Typed C W)
    (hsupported : ∀ field ∈ fields, Supported W s scope Γ field.2)
    (hfields : ∀ field ∈ fields, field.2.Readable)
    (hentries : inferFields Γ fields = .ok entries) :
    Yields C W s (fields.mapM fun field => do return (field.1, ← eval fuel scope field.2))
      fun W' vs => Members.names vs = Members.names fields ∧
        Members.names entries = Members.names fields ∧
        ∀ name v, (name, v) ∈ vs → ∃ t, (name, t) ∈ entries ∧ v.HasType W' t := by
  induction fields generalizing W s entries with
  | nil =>
      cases hentries
      exact .pure htyped (by simp [Members.names])
  | cons field rest ih =>
      obtain ⟨hfield, hrest⟩ := List.forall_mem_cons.mp hfields
      obtain ⟨hsfield, hsrest⟩ := List.forall_mem_cons.mp hsupported
      simp only [inferFields, Except.bind_eq_ok_iff, Except.pure_eq_ok_iff] at hentries
      obtain ⟨t, ht, entries, hentries, rfl⟩ := hentries
      rw [List.mapM_cons]
      have hfirst := (hsound htyped hsfield hfield ht).bind
        (f := fun v => Pure.pure (field.1, v))
        (Q := fun W' entry => entry.1 = field.1 ∧ entry.2.HasType W' t)
        fun v W₁ s₁ _ _ htyped₁ hv => .pure htyped₁ ⟨rfl, hv⟩
      refine hfirst.bind fun entry W₁ s₁ hW₁ hs₁ htyped₁ hentry => ?_
      have hsrest₁ := fun field hfield => (hsrest field hfield).mono hW₁ hs₁
      refine (ih htyped₁ hsrest₁ hrest hentries).bind fun vs W₂ s₂ hW₂ hs₂ htyped₂ hvs => ?_
      refine .pure htyped₂ ⟨?_, ?_, ?_⟩
      · simpa [Members.names, hentry.1] using hvs.1
      · simpa [Members.names] using hvs.2.1
      · intro name v hmem
        rcases List.mem_cons.mp hmem with heq | hmem
        · cases heq
          have hname : name = field.1 := hentry.1
          exact ⟨t, by simp [hname], hentry.2.mono hW₂.grows⟩
        · obtain ⟨u, hu, hv⟩ := hvs.2.2 name v hmem
          exact ⟨u, List.mem_cons_of_mem _ hu, hv⟩

theorem closure_sound {range : Range} {param : Name} {paramType : Ty} {body : Expr} {t : Ty}
    (h : Supported W s scope Γ (.lambda range param paramType body))
    (htype : paramType.Ordered) (hbody : body.Readable)
    (ht : infer Γ (.lambda range param paramType body) = .ok t) :
    (Value.closure param body scope).HasType W t := by
  obtain ⟨Δ, hΔ, hcaptured⟩ := h.captured
  simp only [infer, Except.bind_eq_ok_iff, Except.pure_eq_ok_iff] at ht
  obtain ⟨output, houtput, rfl⟩ := ht
  refine .closure hΔ hbody htype (infer_of_agree houtput fun x u hx hu => ?_)
  rw [Context.lookup?_extend] at hu ⊢
  split
  case isTrue hparam => simpa [hparam] using hu
  case isFalse hparam =>
    rw [if_neg hparam] at hu
    exact hcaptured x u (by simp [captures, mentions, hx, Ne.symm hparam]) hu

theorem call_sound (hsound : SoundWith C fuel) {param : Name} {body : Expr} {captured : Nat}
    {Δ : Context} {input output : Ty} {v : Value} (htyped : s.Typed C W)
    (hΔ : W captured = some Δ) (hbody : body.Readable) (hinput : input.Ordered)
    (houtput : body.infer (Δ.extend param input) = .ok output) (hv : v.HasType W input) :
    Yields C W s
      (do
        let inner ← modifyGet (·.newScope (some captured) [(param, v)])
        eval fuel inner body)
      fun W' w => w.HasType W' output := by
  have hinner := htyped.newScope hΔ param hv hinput
  have hself := Typing.set_self W s.size (Δ.extend param input)
  have hresult := hsound hinner (supported_of_typed hinner hself body) hbody houtput
  rw [Yields, Run.ensures_bind, Run.ensures_modifyGet]
  refine Run.Ensures.imp hresult fun w s' ⟨W', hW, hs, htyped', hw⟩ => ?_
  have hW' : W.Extends W' := (Typing.extends_set htyped.size_none _).trans hW
  exact ⟨W', hW', (Store.Extends.newScope s _ _).trans hs, htyped', hw⟩

theorem projectFrom_sound {range : Range} {name : Name} {v : Value}
    {members : List (Name × Ty)} {t : Ty} (htyped : s.Typed C W)
    (hv : v.HasType W (.record members)) (ht : members.lookup name = some t) :
    Yields C W s (projectFrom range name v) fun W' w => w.HasType W' t := by
  obtain ⟨fields, w, rfl, hlookup, hw⟩ := hv.record_inv ht
  simp only [projectFrom, hlookup]
  exact .pure htyped hw

theorem SoundWith.apply (hsound : SoundWith C fuel) {range : Range} {head : Expr}
    {args : List Expr} {t : Ty} (htyped : s.Typed C W)
    (hsupported : Supported W s scope Γ (.apply range head args)) (hhead : head.Readable)
    (hargs : ∀ e ∈ args, e.Readable) (ht : infer Γ (.apply range head args) = .ok t) :
    Yields C W s (eval (fuel + 1) scope (.apply range head args))
      fun W' v => v.HasType W' t := by
  have hordered := hsupported.sees.ordered
  have hregular : ∀ e ∈ args, e.Regular := fun e he => (hargs e he).regular
  obtain ⟨inputs, hheadType, hinputs⟩ := infer_apply_ok hhead.regular hregular hordered ht
  have hsargs : ∀ e ∈ args, Supported W s scope Γ e := fun e he =>
    hsupported.part e fun x hx => by simp [captures, capturesAny_of_mem he hx]
  have hshead := hsupported.part head fun x hx => by simp [captures, hx]
  refine (hsound htyped hshead hhead hheadType).bind fun f W₁ s₁ hW₁ hs₁ htyped₁ hf => ?_
  have hsargs₁ := fun e he => (hsargs e he).mono hW₁ hs₁
  cases hf with
  | @prim p _ hsignature =>
      refine (hsound.all htyped₁ hsargs₁ hargs hinputs).bind fun vs W₂ s₂ _ _ htyped₂ hvs => ?_
      exact .ofExcept htyped₂ (p.apply_sound hsignature hvs)
  | @closure param body captured Δ input _ hΔ hbody hinput houtput =>
      have hlength := (inferAll_ok hregular hordered hinputs).1
      obtain ⟨arg, rfl⟩ := List.length_eq_one_iff.mp hlength.symm
      simp only [inferAll, Except.bind_eq_ok_iff, Except.pure_eq_ok_iff] at hinputs
      obtain ⟨argType, hargType, _, hnil, heq⟩ := hinputs
      cases hnil
      cases heq
      have harg := hsound htyped₁ (hsargs₁ arg (by simp)) (hargs arg (by simp)) hargType
      refine harg.bind fun v W₂ s₂ hW₂ _ htyped₂ hv => ?_
      exact call_sound hsound htyped₂ (hW₂ _ _ hΔ) hbody hinput houtput hv

theorem SoundWith.record (hsound : SoundWith C fuel) {range : Range}
    {fields : List (Name × Expr)} {t : Ty} (htyped : s.Typed C W)
    (hsupported : Supported W s scope Γ (.record range fields))
    (hnodup : (Members.names fields).Nodup) (hfields : ∀ field ∈ fields, field.2.Readable)
    (ht : infer Γ (.record range fields) = .ok t) :
    Yields C W s (eval (fuel + 1) scope (.record range fields)) fun W' v => v.HasType W' t := by
  simp only [infer, Except.bind_eq_ok_iff, Except.pure_eq_ok_iff] at ht
  obtain ⟨entries, hentries, rfl⟩ := ht
  have hsfields : ∀ field ∈ fields, Supported W s scope Γ field.2 := fun field hfield =>
    hsupported.part field.2 fun x hx => by simp [captures, capturesField_of_mem hfield hx]
  refine (hsound.fields htyped hsfields hfields hentries).bind fun vs W₁ s₁ _ _ htyped₁ hvs => ?_
  obtain ⟨hnames, hentryNames, hvalues⟩ := hvs
  have hdistinct : (Members.names entries).Nodup := hentryNames ▸ hnodup
  rw [Value.ofFields_of_nodup (hnames ▸ hnodup)]
  refine .pure htyped₁ (.record (hnames ▸ hnodup) ?_ ?_)
  · intro name
    rw [hnames, ← hentryNames, Members.lookup_ofList hdistinct, Members.mem_names_iff]
  · intro name v u hmem hu
    obtain ⟨u', hu', hv⟩ := hvalues name v hmem
    rw [Members.lookup_ofList hdistinct, Members.lookup_of_mem hdistinct hu'] at hu
    cases hu
    exact hv

theorem eval_sound (fuel : Nat) : SoundWith C fuel := by
  -- A call evaluates the body of the function, which is no part of the call: hence fuel.
  induction fuel with
  | zero => exact fun _ _ _ _ => Halt.IsBenign.outOfFuel
  | succ fuel ih =>
      intro W s scope Γ e t htyped hsupported hreadable ht
      cases hreadable with
      | @var range name =>
          simp only [infer] at ht
          split at ht
          case h_1 u hu =>
            cases ht
            obtain ⟨v, hlookup, hv⟩ := (hsupported.sees.binds hu).lookup?
            simp only [eval, Yields, Run.ensures_bind, Run.ensures_get, hlookup]
            exact Yields.pure htyped hv
          case h_2 => simp at ht
      | num =>
          cases ht
          exact .pure htyped .num
      | bool =>
          cases ht
          exact .pure htyped .bool
      | lambda _ htype hbody =>
          exact .pure htyped (closure_sound hsupported htype.ordered hbody ht)
      | apply _ hhead hargs => exact ih.apply htyped hsupported hhead hargs ht
      | @cond range guard thenBranch elseBranch hguard hthen helse =>
          obtain ⟨hguardType, hthenType, helseType⟩ := infer_cond_ok hguard.regular hthen.regular
            helse.regular hsupported.sees.ordered ht
          have hsguard := hsupported.part guard fun x hx => by simp [captures, hx]
          have hsthen := hsupported.part thenBranch fun x hx => by simp [captures, hx]
          have hselse := hsupported.part elseBranch fun x hx => by simp [captures, hx]
          refine (ih htyped hsguard hguard hguardType).bind fun v W₁ s₁ hW₁ hs₁ htyped₁ hv => ?_
          obtain ⟨b, rfl⟩ := hv.bool_inv
          cases b with
          | true => exact ih htyped₁ (hsthen.mono hW₁ hs₁) hthen hthenType
          | false => exact ih htyped₁ (hselse.mono hW₁ hs₁) helse helseType
      | record hnodup _ hfields => exact ih.record htyped hsupported hnodup hfields ht
      | @project range target name htarget =>
          have hstarget := hsupported.part target fun x hx => by simp [captures, hx]
          rcases infer_project_ok ht with ⟨members, htype, hmember⟩ | ⟨members, htype, hmember⟩
          · refine (ih htyped hstarget htarget htype).bind fun v W₁ s₁ _ _ htyped₁ hv => ?_
            exact projectFrom_sound htyped₁ hv hmember
          · refine (ih htyped hstarget htarget htype).bind fun v W₁ s₁ _ _ htyped₁ hv => ?_
            simp [hv.union_inv] at hmember
      | @inject range variant payload _ hpayload =>
          simp only [infer, Except.bind_eq_ok_iff, Except.pure_eq_ok_iff] at ht
          obtain ⟨payloadType, hpayloadType, rfl⟩ := ht
          have hspayload := hsupported.part payload fun x hx => by simp [captures, hx]
          refine (ih htyped hspayload hpayload hpayloadType).bind
            fun v W₁ s₁ _ _ htyped₁ hv => ?_
          exact .pure htyped₁ (.union hv)

end Expr

end TypedSexp
