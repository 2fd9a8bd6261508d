import TypedSexp.Proofs.Run.Scopes
import TypedSexp.Proofs.Typing.Inference

/-!
The types of values and the typing of a store. A function keeps the number of the scope it was made
in, so its type depends on what that scope is known to bind; a typing of the store says this for
every scope. Typings only grow while a program runs, and values keep their types.
-/

namespace TypedSexp

/-- The context that the functions made in a scope rely on, for each scope that makes functions. -/
abbrev Typing := Nat → Option Context

namespace Typing

def set (W : Typing) (id : Nat) (Γ : Context) : Typing := fun i => if i = id then some Γ else W i

@[simp]
theorem set_self (W : Typing) (id : Nat) (Γ : Context) : W.set id Γ id = some Γ := by
  simp [set]

theorem set_of_ne (W : Typing) {id i : Nat} (Γ : Context) (h : i ≠ id) : W.set id Γ i = W i := by
  simp [set, h]

/-- The types of the bindings of a scope. Scope 0 holds the primitives and makes no functions. -/
def declared (W : Typing) : Nat → Option Context
  | 0 => some Context.initial
  | id + 1 => W (id + 1)

theorem declared_of_ne_zero (W : Typing) {id : Nat} (h : id ≠ 0) : W.declared id = W id := by
  cases id with
  | zero => exact absurd rfl h
  | succ id => rfl

def Grows (W W' : Typing) : Prop := ∀ id Γ, W id = some Γ → ∃ Γ', W' id = some Γ' ∧ Γ.Within Γ'

theorem Grows.refl (W : Typing) : W.Grows W := fun _ Γ h => ⟨Γ, h, Context.Within.refl Γ⟩

theorem Grows.trans {W W' W'' : Typing} (h : W.Grows W') (h' : W'.Grows W'') : W.Grows W'' := by
  intro id Γ hΓ
  obtain ⟨Γ', hΓ', hwithin⟩ := h id Γ hΓ
  obtain ⟨Γ'', hΓ'', hwithin'⟩ := h' id Γ' hΓ'
  exact ⟨Γ'', hΓ'', hwithin.trans hwithin'⟩

theorem Grows.declared {W W' : Typing} (h : W.Grows W') {id : Nat} {Γ : Context}
    (hΓ : W.declared id = some Γ) : ∃ Γ', W'.declared id = some Γ' ∧ Γ.Within Γ' := by
  cases id with
  | zero => exact ⟨Γ, hΓ, Context.Within.refl Γ⟩
  | succ id => exact h (id + 1) Γ hΓ

theorem grows_set {W : Typing} {id : Nat} {Γ Γ' : Context} (hΓ : W id = some Γ)
    (h : Γ.Within Γ') : W.Grows (W.set id Γ') := by
  intro i Δ hΔ
  by_cases hi : i = id
  · subst hi
    obtain rfl : Γ = Δ := by simpa [hΓ] using hΔ
    exact ⟨Γ', set_self W i Γ', h⟩
  · exact ⟨Δ, by rw [set_of_ne W Γ' hi, hΔ], Context.Within.refl Δ⟩

def Extends (W W' : Typing) : Prop := ∀ id Γ, W id = some Γ → W' id = some Γ

theorem Extends.refl (W : Typing) : W.Extends W := fun _ _ h => h

theorem Extends.trans {W W' W'' : Typing} (h : W.Extends W') (h' : W'.Extends W'') :
    W.Extends W'' := fun id Γ hΓ => h' id Γ (h id Γ hΓ)

theorem Extends.grows {W W' : Typing} (h : W.Extends W') : W.Grows W' :=
  fun id Γ hΓ => ⟨Γ, h id Γ hΓ, Context.Within.refl Γ⟩

theorem extends_set {W : Typing} {id : Nat} (h : W id = none) (Γ : Context) :
    W.Extends (W.set id Γ) := by
  intro i Δ hΔ
  rw [set_of_ne W Γ (by rintro rfl; simp [h] at hΔ), hΔ]

end Typing

theorem Value.ofFields_of_nodup {fields : List (Name × Value)}
    (h : (Members.names fields).Nodup) : Value.ofFields fields = .record fields := by
  rw [ofFields, Members.listed_names]
  intro field hmem
  rw [Members.lookup_ofList h]
  exact Members.lookup_of_mem h hmem

/-- The value is one of the type. A function made by the program has the type of its body in the
context of the scope it was made in. -/
inductive Value.HasType (W : Typing) : Value → Ty → Prop
  | num {n : UInt64} : HasType W (.num n) .nat
  | bool {b : Bool} : HasType W (.bool b) .bool
  | prim {p : Primitive} {t : Ty} : t = p.signature → HasType W (.prim p) t
  | closure {param : Name} {body : Expr} {scope : Nat} {Γ : Context} {input output : Ty} :
      W scope = some Γ → body.Readable → input.Ordered →
      body.infer (Γ.extend param input) = .ok output →
      HasType W (.closure param body scope) (.arrow [input] output)
  | record {fields : List (Name × Value)} {members : List (Name × Ty)} :
      (Members.names fields).Nodup →
      (∀ name, name ∈ Members.names fields ↔ ∃ t, members.lookup name = some t) →
      (∀ name v t, (name, v) ∈ fields → members.lookup name = some t → HasType W v t) →
      HasType W (.record fields) (.record members)
  | union {variant : Name} {payload : Value} {t : Ty} :
      HasType W payload t → HasType W (.union variant payload) (.union [])

theorem Value.HasType.mono {W W' : Typing} (hW : W.Grows W') {v : Value} {t : Ty}
    (h : v.HasType W t) : v.HasType W' t := by
  induction h with
  | num => exact .num
  | bool => exact .bool
  | prim hsignature => exact .prim hsignature
  | closure hscope hbody hinput houtput =>
      obtain ⟨Γ', hΓ', hwithin⟩ := hW _ _ hscope
      exact .closure hΓ' hbody hinput (Expr.infer_of_within houtput (hwithin.extend _ _))
  | record hnodup hnames _ ih => exact .record hnodup hnames ih
  | union _ ih => exact .union ih

def Store.Binds (s : Store) (W : Typing) (id : Nat) (name : Name) (t : Ty) : Prop :=
  ∃ owner Γ v, s.owner? name id = some owner ∧ W.declared owner = some Γ ∧
    Γ.lookup? name = some t ∧ (s.values owner).lookup name = some v ∧ v.HasType W t

namespace Store

variable {s s' : Store} {W W' : Typing} {id : Nat} {name : Name} {t : Ty}

theorem Binds.mono (h : s.Binds W id name t) (hs : s.Extends s') (hid : id < s.size)
    (hW : W.Grows W') : s'.Binds W' id name t := by
  obtain ⟨owner, Γ, v, howner, hΓ, ht, hv, hvt⟩ := h
  obtain ⟨Γ', hΓ', hwithin⟩ := hW.declared hΓ
  have hlt : owner < s.size := Nat.lt_of_le_of_lt (owner?_le howner) hid
  refine ⟨owner, Γ', v, ?_, hΓ', hwithin name t ht, ?_, hvt.mono hW⟩
  · rw [hs.owner?_eq hid, howner]
  · rw [hs.values_eq hlt, hv]

theorem Binds.lookup? (h : s.Binds W id name t) :
    ∃ v, s.lookup? id name = some v ∧ v.HasType W t := by
  obtain ⟨owner, Γ, v, howner, hΓ, ht, hv, hvt⟩ := h
  exact ⟨v, by rw [lookup?_eq howner, hv], hvt⟩

structure Sees (C : Name → Bool) (W : Typing) (s : Store) (id : Nat) (Γ : Context) : Prop where
  lt_size : id < s.size
  ordered : Γ.Ordered
  binds : ∀ {name : Name} {t : Ty}, Γ.lookup? name = some t → s.Binds W id name t
  primitive : ∀ {name : Name} {t : Ty}, Γ.lookup? name = some t → s.owner? name id = some 0 →
    C name = true

structure Typed (C : Name → Bool) (W : Typing) (s : Store) : Prop where
  outer : W 0 = none
  sees : ∀ {id : Nat} {Γ : Context}, W id = some Γ → s.Sees C W id Γ

variable {C C' : Name → Bool} {Γ Δ : Context}

theorem Sees.mono (h : s.Sees C W id Γ) (hC : ∀ name, C name = true → C' name = true)
    (hW : W.Grows W') (hs : s.Extends s') : s'.Sees C' W' id Γ where
  lt_size := Nat.lt_of_lt_of_le h.lt_size hs.size_le
  ordered := h.ordered
  binds ht := (h.binds ht).mono hs h.lt_size hW
  primitive ht howner := by
    rw [hs.owner?_eq h.lt_size] at howner
    exact hC _ (h.primitive ht howner)

theorem Sees.of_grows (h : s.Sees C W id Γ) (hW : W.Grows W') (hs : s.Extends s') :
    s'.Sees C W' id Γ :=
  h.mono (fun _ hC => hC) hW hs

namespace Typed

theorem of_extends (h : s.Typed C W) (hs : s.Extends s') : s'.Typed C W where
  outer := h.outer
  sees hΓ := (h.sees hΓ).of_grows (.refl W) hs

theorem set (houter : W 0 = none) (hid : id ≠ 0)
    (hold : ∀ i Θ, i ≠ id → W i = some Θ → s.Sees C (W.set id Γ) i Θ)
    (hnew : s.Sees C (W.set id Γ) id Γ) : s.Typed C (W.set id Γ) where
  outer := by rw [Typing.set_of_ne W Γ hid.symm, houter]
  sees {i Θ} hΘ := by
    by_cases hi : i = id
    · subst hi
      obtain rfl : Γ = Θ := by simpa using hΘ
      exact hnew
    · exact hold i Θ hi (by rwa [Typing.set_of_ne W Γ hi] at hΘ)

theorem ne_zero (h : s.Typed C W) (hΓ : W id = some Γ) : id ≠ 0 := by
  rintro rfl
  simp [h.outer] at hΓ

theorem size_none (h : s.Typed C W) : W s.size = none := by
  cases hΓ : W s.size with
  | none => rfl
  | some Γ => exact absurd (h.sees hΓ).lt_size (Nat.lt_irrefl _)

theorem widen (h : s.Typed C W) (hΔ : W id = some Δ) (hwithin : Δ.Within Γ)
    (hC : ∀ name, C name = true → C' name = true) (hΓ : s.Sees C' W id Γ) :
    s.Typed C' (W.set id Γ) := by
  have hgrows : W.Grows (W.set id Γ) := Typing.grows_set hΔ hwithin
  refine set h.outer (h.ne_zero hΔ) ?_ ?_
  · intro i Θ _ hΘ
    exact (h.sees hΘ).mono hC hgrows (.refl s)
  · exact hΓ.of_grows hgrows (.refl s)

theorem newScope (h : s.Typed C W) (hΓ : W id = some Γ) (param : Name) {v : Value} {input : Ty}
    (hv : v.HasType W input) (hinput : input.Ordered) :
    (s.newScope (some id) [(param, v)]).2.Typed C (W.set s.size (Γ.extend param input)) := by
  have hs : s.Extends (s.newScope (some id) [(param, v)]).2 := .newScope s _ _
  have hgrows : W.Grows (W.set s.size (Γ.extend param input)) :=
    (Typing.extends_set h.size_none _).grows
  have hcaptured := (h.sees hΓ).of_grows hgrows hs
  have hsize : s.size ≠ 0 := Nat.ne_of_gt (Nat.zero_lt_of_lt (h.sees hΓ).lt_size)
  have howner := owner?_newScope (h.sees hΓ).lt_size param v
  refine set h.outer hsize ?_ ?_
  · intro i Θ _ hΘ
    exact (h.sees hΘ).of_grows hgrows hs
  constructor
  case lt_size =>
    rw [size_newScope]
    exact Nat.lt_succ_self _
  case ordered => exact (h.sees hΓ).ordered.extend param hinput
  case binds =>
    intro name t ht
    rw [Context.lookup?_extend] at ht
    by_cases hname : name = param
    · subst hname
      obtain rfl : input = t := by simpa using ht
      refine ⟨s.size, Γ.extend name input, v, by simp [howner], ?_, ?_, ?_, hv.mono hgrows⟩
      · rw [Typing.declared_of_ne_zero _ hsize, Typing.set_self]
      · simp [Context.lookup?_extend]
      · rw [values_newScope_self]
        exact List.lookup_cons_self
    · rw [if_neg hname] at ht
      obtain ⟨owner, Δ, w, how, hrest⟩ := hcaptured.binds ht
      refine ⟨owner, Δ, w, ?_, hrest⟩
      rw [howner, if_neg hname, ← how, hs.owner?_eq (h.sees hΓ).lt_size]
  case primitive =>
    intro name t ht hzero
    rw [howner] at hzero
    rw [Context.lookup?_extend] at ht
    by_cases hname : name = param
    · simp [hname, hsize] at hzero
    · rw [if_neg hname] at hzero ht
      exact (h.sees hΓ).primitive ht hzero

end Typed

end Store

end TypedSexp
