import TypedSexp.Proofs.Typing.Soundness

/-!
Checked statements keep the store typed. The context of a program grows with its definitions, while
functions made earlier look their names up at the time of a call: a definition that takes over the
name of a primitive is harmless only if no such function may use the primitive, or if the types
are the same.
-/

namespace TypedSexp

namespace Context

def only (Γ : Context) (p : Name → Bool) : Context := ⟨Γ.bindings.filter fun binding => p binding.1⟩

theorem lookup?_only (Γ : Context) (p : Name → Bool) (x : Name) :
    (Γ.only p).lookup? x = if p x then Γ.lookup? x else none := by
  unfold only lookup?
  induction Γ.bindings with
  | nil => simp
  | cons binding rest ih =>
      obtain ⟨name, t⟩ := binding
      rw [List.filter_cons]
      by_cases hname : p name = true
      · simp only [hname, if_true, Members.lookup_cons, ih]
        split
        case isTrue hx => simp [hx, hname]
        case isFalse => rfl
      · simp only [hname, Bool.false_eq_true, if_false, Members.lookup_cons, ih]
        split
        case isTrue hx => simp [show x ≠ name by rintro rfl; exact hname hx]
        case isFalse => rfl

end Context

def Stmt.captures (x : Name) : Stmt → Bool
  | .define _ _ value => value.captures x
  | .assign _ _ value => value.captures x
  | .print .. => false

namespace Store

variable {s s' : Store} {C : Name → Bool} {W : Typing} {Γ Δ : Context} {name : Name} {t : Ty}
  {v : Value} {range : Range}

theorem owner?_programScope {owner : Nat} (h : s.owner? name programScope = some owner)
    (howns : s.owns programScope name = false) : owner = 0 := by
  have hne : owner ≠ programScope := by
    rintro rfl
    simp [owner?_owns h] at howns
  have hle := owner?_le h
  simp only [programScope] at hne hle
  omega

theorem owns_programScope_eq_false (h : s.owner? name programScope = some 0) :
    s.owns programScope name = false := by
  cases howns : s.owns programScope name with
  | false => rfl
  | true =>
      rw [owner?_of_owns howns] at h
      simp [programScope] at h

theorem owns_of_extends (hs : s.Extends s') {id : Nat} (hid : id < s.size) (name : Name) :
    s'.owns id name = s.owns id name := by
  rw [owns_eq, owns_eq, hs.values_eq hid]

theorem Binds.primitive {id : Nat} (h : s.Binds W id name t) (howner : s.owner? name id = some 0) :
    Context.initial.lookup? name = some t := by
  obtain ⟨owner, Γ, w, howner', hΓ, ht, -, -⟩ := h
  obtain rfl : 0 = owner := by simpa [howner] using howner'
  cases hΓ
  exact ht

section define

variable (hΔ : W programScope = some Δ) (hwithin : Δ.Within (Δ.extend name t))
  (hlt : programScope < s.size) (hdefine : s.define programScope range name v = .ok s')
  (hv : v.HasType W t)

include hlt hdefine in
theorem owner?_of_define {i : Nat} {other : Name} (h : s'.owner? other i = some 0) :
    s.owner? other i = some 0 := by
  by_cases hother : other = name
  · subst hother
    rcases owner?_define_self hlt hdefine i with heq | ⟨heq, -⟩
    · rw [← heq, h]
    · simp [h, programScope] at heq
  · rw [← owner?_define_of_ne hlt hdefine hother, h]

include hΔ hwithin hlt hdefine hv

theorem Binds.define {i : Nat} {other : Name} {u : Ty} (h : s.Binds W i other u)
    (hsame : other = name → s.owner? name i = some 0 → u = t) :
    s'.Binds (W.set programScope (Δ.extend name t)) i other u := by
  have hgrows := Typing.grows_set hΔ hwithin
  obtain ⟨owner, Θ, w, howner, hΘ, hu, hw, hwu⟩ := h
  obtain ⟨Θ', hΘ', hwithin'⟩ := hgrows.declared hΘ
  have hkept (h : ¬(owner = programScope ∧ other = name)) (h' : s'.owner? other i = some owner) :
      s'.Binds (W.set programScope (Δ.extend name t)) i other u := by
    refine ⟨owner, Θ', w, h', hΘ', hwithin' other u hu, ?_, hwu.mono hgrows⟩
    rw [lookup_define hlt hdefine, if_neg h, hw]
  by_cases hother : other = name
  · subst hother
    have hfree := (define_ok hdefine).1
    rcases owner?_define_self hlt hdefine i with hsame' | ⟨hnew, hold⟩
    · refine hkept ?_ (hsame'.trans howner)
      rintro ⟨rfl, -⟩
      simp [owner?_owns howner] at hfree
    · rw [howner] at hold
      obtain rfl := owner?_programScope hold.symm hfree
      obtain rfl := hsame rfl howner
      refine ⟨programScope, Δ.extend other u, v, hnew, ?_, ?_, ?_, hv.mono hgrows⟩
      · exact Typing.set_self W programScope _
      · simp [Context.lookup?_extend]
      · rw [lookup_define hlt hdefine, if_pos ⟨rfl, rfl⟩]
  · exact hkept (fun h => hother h.2) ((owner?_define_of_ne hlt hdefine hother i).trans howner)

theorem binds_define :
    s'.Binds (W.set programScope (Δ.extend name t)) programScope name t := by
  have hgrows := Typing.grows_set hΔ hwithin
  refine ⟨programScope, Δ.extend name t, v, owner?_of_owns ?_, ?_, ?_, ?_, hv.mono hgrows⟩
  · simp [owns_define hlt hdefine]
  · exact Typing.set_self W programScope _
  · simp [Context.lookup?_extend]
  · rw [lookup_define hlt hdefine, if_pos ⟨rfl, rfl⟩]

theorem Sees.define {i : Nat} (h : s.Sees C W i Γ)
    (hsame : ∀ u, Γ.lookup? name = some u → s.owner? name i = some 0 → u = t) :
    s'.Sees C (W.set programScope (Δ.extend name t)) i Γ where
  lt_size := by
    rw [size_define hdefine]
    exact h.lt_size
  ordered := h.ordered
  binds {other u} hu := (h.binds hu).define hΔ hwithin hlt hdefine hv fun hother =>
    hsame u (hother ▸ hu)
  primitive hu howner := h.primitive hu (owner?_of_define hlt hdefine howner)

theorem Sees.extend_define (h : s.Sees C W programScope Γ) (ht : t.Ordered) :
    s'.Sees C (W.set programScope (Δ.extend name t)) programScope (Γ.extend name t) := by
  constructor
  case lt_size =>
    rw [size_define hdefine]
    exact hlt
  case ordered => exact h.ordered.extend name ht
  case binds =>
    intro other u hu
    rw [Context.lookup?_extend] at hu
    split at hu
    case isTrue hother =>
      subst hother
      cases hu
      exact binds_define hΔ hwithin hlt hdefine hv
    case isFalse hother =>
      exact (h.binds hu).define hΔ hwithin hlt hdefine hv fun h => absurd h hother
  case primitive =>
    intro other u hu howner
    rw [Context.lookup?_extend] at hu
    split at hu
    case isTrue hother =>
      have howns := owns_programScope_eq_false howner
      simp [owns_define hlt hdefine, hother] at howns
    case isFalse => exact h.primitive hu (owner?_of_define hlt hdefine howner)

end define

theorem Binds.update {id i : Nat} {other : Name} {u : Ty} (h : s.Binds W i other u)
    (hname : s.Binds W id name t) (hupdate : s.update id name v = .ok s')
    (hv : v.HasType W t) : s'.Binds W i other u := by
  obtain ⟨place, hplace, rfl⟩ := update_ok hupdate
  have howns := owner?_owns hplace
  obtain ⟨owner, Θ, w, howner, hΘ, hu, hw, hwu⟩ := h
  by_cases hhere : owner = place ∧ other = name
  · obtain ⟨rfl, rfl⟩ := hhere
    obtain ⟨owner', Θ', w', howner', hΘ', ht, -, -⟩ := hname
    obtain rfl : owner' = owner := by simpa [hplace] using howner'.symm
    obtain rfl : Θ = Θ' := by simpa [hΘ] using hΘ'
    obtain rfl : u = t := by simpa [hu] using ht
    refine ⟨owner', Θ, v, by rw [owner?_set howns, howner], hΘ, hu, ?_, hv⟩
    rw [lookup_set howns, if_pos ⟨rfl, rfl⟩]
  · refine ⟨owner, Θ, w, by rw [owner?_set howns, howner], hΘ, hu, ?_, hwu⟩
    rw [lookup_set howns, if_neg hhere, hw]

theorem Sees.update {id i : Nat} (h : s.Sees C W i Γ) (hname : s.Binds W id name t)
    (hupdate : s.update id name v = .ok s') (hv : v.HasType W t) : s'.Sees C W i Γ where
  lt_size := by
    rw [size_update hupdate]
    exact h.lt_size
  ordered := h.ordered
  binds hu := (h.binds hu).update hname hupdate hv
  primitive hu howner := by
    obtain ⟨place, hplace, rfl⟩ := update_ok hupdate
    rw [owner?_set (owner?_owns hplace)] at howner
    exact h.primitive hu howner

/-- The store of a program whose statements so far were checked up to the context `Γ`. Functions
made in its scope rely on its own definitions and on the primitives among `C`. -/
structure Agrees (C : Name → Bool) (W : Typing) (s : Store) (Γ : Context) : Prop where
  typed : s.Typed C W
  sees : s.Sees (fun _ => true) W programScope Γ
  known : ∃ Δ, W programScope = some Δ ∧
    ∀ x, Δ.lookup? x = if C x || s.owns programScope x then Γ.lookup? x else none

namespace Agrees

theorem of_extends (h : s.Agrees C W Γ) (hs : s.Extends s') : s'.Agrees C W Γ where
  typed := h.typed.of_extends hs
  sees := h.sees.of_grows (.refl W) hs
  known := by
    obtain ⟨Δ, hΔ, hknown⟩ := h.known
    exact ⟨Δ, hΔ, fun x => by rw [hknown, owns_of_extends hs h.sees.lt_size]⟩

theorem support (h : s.Agrees C W Γ) (e : Expr) :
    ∃ W', W.Grows W' ∧ s.Agrees (fun x => C x || e.captures x) W' Γ ∧
      e.Supported W' s programScope Γ := by
  obtain ⟨Δ, hΔ, hknown⟩ := h.known
  let p := fun x => (C x || e.captures x) || s.owns programScope x
  have hwithin : Δ.Within (Γ.only p) := by
    intro x t ht
    rw [hknown] at ht
    rw [Context.lookup?_only]
    split at ht
    case isTrue hx =>
      rw [if_pos ?_, ht]
      simp only [p, Bool.or_eq_true] at hx ⊢
      exact hx.elim (fun hx => .inl (.inl hx)) .inr
    case isFalse => simp at ht
  have hsub (x : Name) (t : Ty) (ht : (Γ.only p).lookup? x = some t) :
      p x = true ∧ Γ.lookup? x = some t := by
    rw [Context.lookup?_only] at ht
    split at ht
    case isTrue hx => exact ⟨hx, ht⟩
    case isFalse => simp at ht
  have hsees : s.Sees (fun x => C x || e.captures x) W programScope (Γ.only p) := by
    refine ⟨h.sees.lt_size, fun x t ht => h.sees.ordered x t (hsub x t ht).2,
      fun ht => h.sees.binds (hsub _ _ ht).2, fun {x t} ht howner => ?_⟩
    simpa [p, owns_programScope_eq_false howner] using (hsub x t ht).1
  have hgrows := Typing.grows_set hΔ hwithin
  have htyped := h.typed.widen hΔ hwithin (fun x hx => by simp [hx]) hsees
  have hsees' := h.sees.of_grows hgrows (.refl s)
  refine ⟨W.set programScope (Γ.only p), hgrows, ⟨htyped, hsees', Γ.only p, by simp, ?_⟩,
    hsees', Γ.only p, by simp, ?_⟩
  · exact fun x => Context.lookup?_only Γ p x
  · intro x t hx ht
    rw [Context.lookup?_only, if_pos (by simp [p, hx]), ht]

theorem define (h : s.Agrees C W Γ) (hdefine : s.define programScope range name v = .ok s')
    (hv : v.HasType W t) (ht : t.Ordered)
    (hsame : C name = true → ∀ u, Context.initial.lookup? name = some u → u = t) :
    ∃ W', W.Grows W' ∧ s'.Agrees C W' (Γ.extend name t) := by
  obtain ⟨Δ, hΔ, hknown⟩ := h.known
  have hlt := h.sees.lt_size
  -- A name that a function takes from scope 0 is that of a primitive, with its signature.
  have hzero {i : Nat} {Θ : Context} (hΘ : W i = some Θ) (u : Ty) (hu : Θ.lookup? name = some u)
      (howner : s.owner? name i = some 0) : u = t :=
    hsame ((h.typed.sees hΘ).primitive hu howner) u (((h.typed.sees hΘ).binds hu).primitive howner)
  have hwithin : Δ.Within (Δ.extend name t) := by
    intro x u hu
    rw [Context.lookup?_extend]
    split
    case isTrue hx =>
      subst hx
      obtain ⟨owner, -, -, howner, -⟩ := (h.typed.sees hΔ).binds hu
      obtain rfl := owner?_programScope howner (define_ok hdefine).1
      rw [hzero hΔ u hu howner]
    case isFalse => exact hu
  refine ⟨_, Typing.grows_set hΔ hwithin, ⟨?_, ?_, Δ.extend name t, by simp, ?_⟩⟩
  · refine .set h.typed.outer (h.typed.ne_zero hΔ) ?_ ?_
    · intro i Θ _ hΘ
      exact (h.typed.sees hΘ).define hΔ hwithin hlt hdefine hv (hzero hΘ)
    · exact (h.typed.sees hΔ).extend_define hΔ hwithin hlt hdefine hv ht
  · exact h.sees.extend_define hΔ hwithin hlt hdefine hv ht
  · intro x
    rw [Context.lookup?_extend, Context.lookup?_extend, hknown, owns_define hlt hdefine]
    by_cases hx : x = name
    · simp [hx]
    · simp [hx]

theorem update (h : s.Agrees C W Γ) (hname : Γ.lookup? name = some t)
    (hupdate : s.update programScope name v = .ok s') (hv : v.HasType W t) :
    s'.Agrees C W Γ where
  typed := ⟨h.typed.outer, fun hΘ => (h.typed.sees hΘ).update (h.sees.binds hname) hupdate hv⟩
  sees := h.sees.update (h.sees.binds hname) hupdate hv
  known := by
    obtain ⟨Δ, hΔ, hknown⟩ := h.known
    obtain ⟨place, hplace, rfl⟩ := update_ok hupdate
    exact ⟨Δ, hΔ, fun x => by rw [hknown, owns_set (owner?_owns hplace)]⟩

end Agrees

theorem owner?_initial {x : Name} {t : Ty} (h : Context.initial.lookup? x = some t) :
    initial.owner? x programScope = some 0 := by
  obtain ⟨p, rfl, -⟩ := Context.primitive_of_lookup?_initial h
  cases p <;> rfl

theorem binds_initial (W : Typing) {x : Name} {t : Ty} (h : Context.initial.lookup? x = some t) :
    initial.Binds W programScope x t := by
  obtain ⟨p, rfl, rfl⟩ := Context.primitive_of_lookup?_initial h
  have hvalue : (initial.values 0).lookup p.name = some (.prim p) := by cases p <;> rfl
  exact ⟨0, Context.initial, .prim p, owner?_initial h, rfl, h, hvalue, .prim rfl⟩

theorem sees_initial (W : Typing) {C : Name → Bool} {Γ : Context} (hΓ : Γ.Within Context.initial)
    (hC : ∀ x t, Γ.lookup? x = some t → C x = true) : initial.Sees C W programScope Γ where
  lt_size := by decide
  ordered x t ht := Context.initial_ordered x t (hΓ x t ht)
  binds ht := binds_initial W (hΓ _ _ ht)
  primitive ht _ := hC _ _ ht

theorem initial_agrees (C : Name → Bool) : ∃ W, initial.Agrees C W Context.initial := by
  let Δ := Context.initial.only C
  have hΔ (x : Name) (t : Ty) (ht : Δ.lookup? x = some t) :
      C x = true ∧ Context.initial.lookup? x = some t := by
    rw [Context.lookup?_only] at ht
    split at ht
    case isTrue hx => exact ⟨hx, ht⟩
    case isFalse => simp at ht
  refine ⟨Typing.set (fun _ => none) programScope Δ, ?_, ?_, Δ, by simp, ?_⟩
  · refine .set rfl (by decide) (fun _ _ _ h => by simp at h) ?_
    exact sees_initial _ (fun x t ht => (hΔ x t ht).2) fun x t ht => (hΔ x t ht).1
  · exact sees_initial _ (.refl _) fun _ _ _ => rfl
  · intro x
    have howns : initial.owns programScope x = false := rfl
    simp [Δ, Context.lookup?_only, howns]

end Store

inductive Halt.IsExpected : Halt → Prop
  | benign {halt : Halt} : halt.IsBenign → IsExpected halt
  | redefinition {range : Range} {name : Name} : IsExpected (.fault ⟨range, .redefinition name⟩)

open Store (programScope)

variable {s : Store} {C : Name → Bool} {W : Typing} {Γ Δ : Context}

theorem Expr.eval_agrees {e : Expr} {t : Ty} (fuel : Nat) (h : s.Agrees C W Γ) (he : e.Readable)
    (ht : e.infer Γ = .ok t) :
    Run.Ensures (e.eval fuel programScope) s
      (fun v s' => s'.Agrees C W Γ ∧ ∃ W', W.Grows W' ∧
        s'.Agrees (fun x => C x || e.captures x) W' Γ ∧ v.HasType W' t)
      fun halt s' => halt.IsBenign ∧ s'.Agrees C W Γ := by
  obtain ⟨W₁, hW₁, hagrees, hsupported⟩ := h.support e
  have hsound := eval_sound fuel hagrees.typed hsupported he ht
  refine (hsound.and (eval_keeps fuel programScope e s)).mono ?_ ?_
  · rintro v s' ⟨⟨W₂, hW₂, hs, htyped, hv⟩, -⟩
    refine ⟨h.of_extends hs, W₂, hW₁.trans hW₂.grows, ?_, hv⟩
    obtain ⟨Θ, hΘ, hknown⟩ := (hagrees.of_extends hs).known
    exact ⟨htyped, hagrees.sees.of_grows hW₂.grows hs, Θ, hW₂ _ _ hΘ, hknown⟩
  · rintro halt s' ⟨hhalt, hs⟩
    exact ⟨hhalt, h.of_extends hs⟩

namespace Stmt

def Harmless (C : Name → Bool) (Γ : Context) : Stmt → Prop
  | .define _ name value => ∀ p : Primitive, name = p.name → C name = true →
      value.infer Γ = .ok p.signature
  | _ => True

theorem exec_agrees {stmt : Stmt} (fuel : Nat) (h : s.Agrees C W Γ) (hstmt : stmt.Readable)
    (hcheck : stmt.check Γ = .ok Δ) :
    Run.Ensures (stmt.exec fuel programScope) s
      (fun _ s' => stmt.Harmless (fun x => C x || stmt.captures x) Γ →
        ∃ W', W.Grows W' ∧ s'.Agrees (fun x => C x || stmt.captures x) W' Δ)
      fun halt s' => halt.IsExpected ∧ s'.Agrees C W Γ := by
  cases hstmt with
  | @define range name value hword hvalue =>
      obtain ⟨t, ht, rfl⟩ := check_define_ok hcheck
      have hordered := Expr.ordered_of_infer hvalue.regular h.sees.ordered ht
      simp only [exec, Run.ensures_bind, Run.ensures_change, Run.ensures_pure]
      refine (Expr.eval_agrees fuel h hvalue ht).mono ?_ fun _ _ hb => ⟨.benign hb.1, hb.2⟩
      rintro v s' ⟨hagrees, W', hW', hagrees', hv⟩
      cases hdefine : s'.define programScope range name v with
      | error d =>
          unfold Store.define at hdefine
          split at hdefine
          · cases hdefine
            exact ⟨.redefinition, hagrees⟩
          · simp at hdefine
      | ok s'' =>
          intro hharmless
          have hsame (hC : (C name || value.captures name) = true) (u : Ty)
              (hu : Context.initial.lookup? name = some u) : u = t := by
            obtain ⟨p, hname, rfl⟩ := Context.primitive_of_lookup?_initial hu
            have hp := hharmless p hname hC
            rw [ht] at hp
            cases hp
            rfl
          obtain ⟨W'', hW'', hresult⟩ := hagrees'.define hdefine hv hordered hsame
          exact ⟨W'', hW'.trans hW'', hresult⟩
  | @assign range target value htarget hvalue =>
      obtain ⟨targetRange, name, t, rfl, hname, ht, rfl⟩ :=
        check_assign_ok h.sees.ordered hvalue hcheck
      simp only [exec, Run.ensures_bind]
      refine (Expr.eval_agrees fuel h hvalue ht).mono ?_ fun _ _ hb => ⟨.benign hb.1, hb.2⟩
      rintro v s' ⟨hagrees, W', hW', hagrees', hv⟩
      obtain ⟨owner, -, -, howner, -⟩ := hagrees'.sees.binds hname
      have hhas : s'.has programScope name = true := by simp [Store.has, howner]
      simp only [Run.ensures_bind, Run.ensures_get, hhas, if_true, Run.ensures_change,
        Run.ensures_pure]
      cases hupdate : s'.update programScope name v with
      | error d => simp [Store.update, howner] at hupdate
      | ok s'' =>
          intro _
          exact ⟨W', hW', hagrees'.update hname hupdate hv⟩
  | @print range value hvalue =>
      obtain ⟨t, ht, rfl⟩ := check_print_ok hcheck
      simp only [exec, Run.ensures_bind, Run.ensures_pure]
      refine (Expr.eval_agrees fuel h hvalue ht).mono ?_ fun _ _ hb => ⟨.benign hb.1, hb.2⟩
      rintro v s' ⟨hagrees, -⟩ _
      exact ⟨W, .refl W, by simpa [captures] using hagrees⟩

end Stmt

end TypedSexp
