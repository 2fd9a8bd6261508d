import TypedSexp.Proofs.Ty.Listings
import TypedSexp.Proofs.Typing.Inference

namespace TypedSexp

namespace Expr

inductive Alike {α : Type} (R : α → α → Prop) : Except Diagnostic α → Except Diagnostic α → Prop
  | ok {a b : α} : R a b → Alike R (.ok a) (.ok b)
  | error {d d' : Diagnostic} :
      d.cause.code = d'.cause.code → d.range = d'.range → d.message = d'.message →
      Alike R (.error d) (.error d')

theorem Alike.bind {α β : Type} {R : α → α → Prop} {S : β → β → Prop}
    {x y : Except Diagnostic α} {f g : α → Except Diagnostic β} (h : Alike R x y)
    (hfg : ∀ a b, R a b → Alike S (f a) (g b)) : Alike S (x >>= f) (y >>= g) := by
  cases h with
  | ok hab => exact hfg _ _ hab
  | error hcode hrange hmessage => exact .error hcode hrange hmessage

theorem Alike.imp {α : Type} {R S : α → α → Prop} {x y : Except Diagnostic α} (h : Alike R x y)
    (himp : ∀ a b, R a b → S a b) : Alike S x y := by
  cases h with
  | ok hab => exact .ok (himp _ _ hab)
  | error hcode hrange hmessage => exact .error hcode hrange hmessage

def SameVerdict : Except Diagnostic Ty → Except Diagnostic Ty → Prop :=
  Alike fun t u => t.equal u = true

theorem mismatch_alike {α : Type} {R : α → α → Prop} (range : Range) (place : Text)
    {expected expected' found found' : Ty} (h : expected.Same expected') (h' : found.Same found') :
    Alike R (mismatch range expected found place) (mismatch range expected' found' place) := by
  refine .error rfl rfl ?_
  simp only [Diagnostic.message, Cause.message, Cause.stage, Cause.detail, h.toText_eq,
    h'.toText_eq, Cause.mismatchHint_eq h h']

theorem checkArgs_alike (whole : Expr) (number : Nat) (args : List Expr)
    {inputs inputs' found found' : List Ty} (hinputs : List.Forall₂ Ty.Same inputs inputs')
    (hfound : List.Forall₂ Ty.Same found found') :
    Alike Eq (checkArgs whole number inputs args found)
      (checkArgs whole number inputs' args found') := by
  induction hinputs generalizing number args found found' with
  | nil => exact .ok rfl
  | cons hinput _ ih =>
      cases args with
      | nil => exact .ok rfl
      | cons arg args =>
          cases hfound with
          | nil => exact .ok rfl
          | cons hhead htail =>
              simp only [checkArgs, hinput.equal_eq hhead]
              split
              · exact ih (number + 1) args htail
              · exact mismatch_alike arg.range _ hinput hhead

theorem applyType_alike (whole : Expr) (range : Range) (args : List Expr) {found found' : List Ty}
    (hfound : List.Forall₂ Ty.Same found found') {t t' : Ty} (h : t.Same t') :
    Alike Ty.Same (applyType whole range args found t) (applyType whole range args found' t') := by
  have htext := h.toText_eq
  cases t with
  | nat => rw [h.of_nat]; exact .error rfl rfl rfl
  | bool => rw [h.of_bool]; exact .error rfl rfl rfl
  | arrow inputs output =>
      obtain ⟨inputs', output', rfl, hinputs, houtput⟩ := h.of_arrow
      simp only [applyType, ← hinputs.length_eq]
      split
      · exact (checkArgs_alike whole 1 args hinputs hfound).bind fun _ _ _ => .ok houtput
      · exact .error rfl rfl rfl
  | record members =>
      obtain ⟨members', rfl, -⟩ := h.of_record
      simp only [applyType, htext]
      exact .error rfl rfl rfl
  | union members =>
      obtain ⟨members', rfl, -⟩ := h.of_union
      simp only [applyType, htext]
      exact .error rfl rfl rfl

theorem memberType_alike (range : Range) (name : Name) {t t' : Ty} (h : t.Same t') :
    Alike Ty.Same (memberType range name t) (memberType range name t') := by
  have htext := h.toText_eq
  cases t with
  | nat => rw [h.of_nat]; exact .error rfl rfl rfl
  | bool => rw [h.of_bool]; exact .error rfl rfl rfl
  | arrow inputs output =>
      obtain ⟨inputs', output', rfl, -⟩ := h.of_arrow
      simp only [memberType, htext]
      exact .error rfl rfl rfl
  | record members =>
      obtain ⟨members', rfl, hlookup⟩ := h.of_record
      have hlookup := hlookup name
      simp only [memberType, htext]
      generalize members.lookup name = found at *
      generalize members'.lookup name = found' at *
      cases hlookup with
      | some hsame => exact .ok hsame
      | none => exact .error rfl rfl rfl
  | union members =>
      obtain ⟨members', rfl, hlookup⟩ := h.of_union
      have hlookup := hlookup name
      simp only [memberType, htext]
      generalize members.lookup name = found at *
      generalize members'.lookup name = found' at *
      cases hlookup with
      | some hsame => exact .ok hsame
      | none => exact .error rfl rfl rfl

theorem inferAll_alike {Γ Δ : Context} {args : List Expr}
    (h : ∀ e ∈ args, Alike Ty.Same (infer Γ e) (infer Δ e)) :
    Alike (List.Forall₂ Ty.Same) (inferAll Γ args) (inferAll Δ args) := by
  induction args with
  | nil => exact .ok .nil
  | cons e rest ih =>
      obtain ⟨he, hrest⟩ := List.forall_mem_cons.mp h
      exact he.bind fun t u hsame => (ih hrest).bind fun types types' hsames =>
        .ok (.cons hsame hsames)

theorem inferFields_alike {Γ Δ : Context} {fields : List (Name × Expr)}
    (h : ∀ field ∈ fields, Alike Ty.Same (infer Γ field.2) (infer Δ field.2)) :
    Alike Ty.SameFields (inferFields Γ fields) (inferFields Δ fields) := by
  induction fields with
  | nil => exact .ok .nil
  | cons field rest ih =>
      obtain ⟨hfield, hrest⟩ := List.forall_mem_cons.mp h
      exact hfield.bind fun t u hsame => (ih hrest).bind fun entries entries' hsames =>
        .ok (.cons ⟨rfl, hsame⟩ hsames)

theorem infer_alike {e : Expr} (he : e.Annotated Ty.Distinct fun _ => True) {Γ Δ : Context}
    (h : ∀ x, e.mentions x = true → Option.Rel Ty.Same (Γ.lookup? x) (Δ.lookup? x)) :
    Alike Ty.Same (infer Γ e) (infer Δ e) := by
  induction he generalizing Γ Δ with
  | @var range name =>
      have hname := h name (by simp [mentions])
      simp only [infer]
      generalize Γ.lookup? name = found at *
      generalize Δ.lookup? name = found' at *
      cases hname with
      | some hsame => exact .ok hsame
      | none => exact .error rfl rfl rfl
  | num => exact .ok (.refl .nat)
  | bool => exact .ok (.refl .bool)
  | @lambda range param paramType body htype _ ih =>
      refine (ih fun x hx => ?_).bind fun t u hsame => .ok (.arrow htype hsame)
      rw [Context.lookup?_extend, Context.lookup?_extend]
      split
      · exact .some (.refl htype)
      case isFalse hne => exact h x (by simp [mentions, hx, Ne.symm hne])
  | apply _ _ ihhead ihargs =>
      refine (ihhead fun x hx => h x (by simp [mentions, hx])).bind fun t u hsame => ?_
      refine (inferAll_alike fun e he => ihargs e he fun x hx =>
        h x (by simp [mentions, mentionsAny_of_mem he hx])).bind fun types types' hsames => ?_
      exact applyType_alike _ _ _ hsames hsame
  | cond _ _ _ ihguard ihthen ihelse =>
      refine (ihguard fun x hx => h x (by simp [mentions, hx])).bind fun guard guard' hguard => ?_
      simp only [Ty.Same.equal_eq (.refl .bool) hguard]
      split
      · refine (ihthen fun x hx => h x (by simp [mentions, hx])).bind fun t t' hthen => ?_
        refine (ihelse fun x hx => h x (by simp [mentions, hx])).bind fun u u' helse => ?_
        simp only [hthen.equal_eq helse]
        split
        · exact .ok hthen
        · exact mismatch_alike _ _ hthen helse
      · exact mismatch_alike _ _ (.refl .bool) hguard
  | record _ _ ih =>
      refine (inferFields_alike fun field hfield => ih field hfield fun x hx => ?_).bind
        fun entries entries' hsames => .ok hsames.record
      exact h x (by simp [mentions, mentionsField_of_mem hfield hx])
  | project _ ih =>
      exact (ih fun x hx => h x (by simp [mentions, hx])).bind fun t u hsame =>
        memberType_alike _ _ hsame
  | inject _ ih =>
      exact (ih fun x hx => h x (by simp [mentions, hx])).bind fun _ _ _ =>
        .ok (.refl (.union (by simp [Members.names]) (by simp)))

theorem infer_extend_of_not_mentions {e : Expr} {x : Name} (h : e.mentions x = false)
    (Γ : Context) (t : Ty) : infer (Γ.extend x t) e = infer Γ e := by
  refine infer_congr e fun y hy => ?_
  rw [Context.lookup?_extend, if_neg]
  rintro rfl
  simp [h] at hy

theorem infer_extend_extend (e : Expr) (Γ : Context) (x : Name) (t u : Ty) :
    infer ((Γ.extend x t).extend x u) e = infer (Γ.extend x u) e := by
  refine infer_congr e fun y _ => ?_
  simp only [Context.lookup?_extend]
  split <;> rfl

/-- The members of a type are a map, so that no name is listed twice; their order is free. -/
theorem verdict_depends_on_free_variables (e : Expr) (Γ : Context) :
    (e.Annotated Ty.Distinct (fun _ => True) → Γ.All Ty.Distinct →
      ∀ Δ : Context, Δ.All Ty.Distinct →
      (∀ x, e.mentions x = true →
        Option.Rel (fun t u => t.equal u = true) (Γ.lookup? x) (Δ.lookup? x)) →
      SameVerdict (infer Γ e) (infer Δ e)) ∧
    (∀ x t, e.mentions x = false → infer (Γ.extend x t) e = infer Γ e) ∧
    ∀ x t u, infer ((Γ.extend x t).extend x u) e = infer (Γ.extend x u) e := by
  refine ⟨?_, fun x t hx => infer_extend_of_not_mentions hx Γ t,
    fun x t u => infer_extend_extend e Γ x t u⟩
  intro he hΓ Δ hΔ hagree
  refine (infer_alike he fun x hx => ?_).imp fun t u hsame => hsame.equal
  have ht := hΓ x
  have hu := hΔ x
  have hagree := hagree x hx
  generalize Γ.lookup? x = left at *
  generalize Δ.lookup? x = right at *
  cases hagree with
  | some hequal => exact .some (Ty.same_of_equal (ht _ rfl) (hu _ rfl) hequal)
  | none => exact .none

theorem verdict_depends_on_free_variables_closure :
    SameVerdict
      (infer ((Context.empty.extend (utf8 "f") (.arrow [.record [(utf8 "a", .nat),
          (utf8 "b", .bool)]] .bool)).extend (utf8 "x") .bool)
        (.lambda Range.none (utf8 "x") .nat (.apply Range.none (.var Range.none (utf8 "f"))
          [.var Range.none (utf8 "x")])))
      (infer (Context.empty.extend (utf8 "f") (.arrow [.record [(utf8 "b", .bool),
          (utf8 "a", .nat)]] .bool))
        (.lambda Range.none (utf8 "x") .nat (.apply Range.none (.var Range.none (utf8 "f"))
          [.var Range.none (utf8 "x")]))) := by
  have hf : (Ty.arrow [.record [(utf8 "a", .nat), (utf8 "b", .bool)]] .bool).Distinct :=
    .arrow (by simpa using .record (by decide) (by simp [Ty.Distinct.nat, Ty.Distinct.bool])) .bool
  have hg : (Ty.arrow [.record [(utf8 "b", .bool), (utf8 "a", .nat)]] .bool).Distinct :=
    .arrow (by simpa using .record (by decide) (by simp [Ty.Distinct.nat, Ty.Distinct.bool])) .bool
  have hempty : Context.empty.All Ty.Distinct := fun x t h => by cases h
  refine (verdict_depends_on_free_variables _ _).1
    (.lambda .nat (.apply .var (by simpa using .var)))
    ((hempty.extend _ hf).extend _ .bool) _ (hempty.extend _ hg) fun x hx => ?_
  simp only [mentions, mentionsAny, Bool.or_false, Bool.and_eq_true, Bool.or_eq_true,
    decide_eq_true_eq] at hx
  obtain ⟨hne, rfl | rfl⟩ := hx
  · exact .some rfl
  · exact absurd rfl hne

end Expr

end TypedSexp
