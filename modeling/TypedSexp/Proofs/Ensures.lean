import TypedSexp.Diagnostic.Basic

namespace Except

variable {ε α β : Type}

def Ensures (x : Except ε α) (P : α → Prop) (E : ε → Prop) : Prop :=
  match x with
  | .ok a => P a
  | .error e => E e

@[simp]
theorem ensures_ok (a : α) (P : α → Prop) (E : ε → Prop) :
    (Except.ok a : Except ε α).Ensures P E ↔ P a := Iff.rfl

@[simp]
theorem ensures_error (e : ε) (P : α → Prop) (E : ε → Prop) :
    (Except.error e : Except ε α).Ensures P E ↔ E e := Iff.rfl

@[simp]
theorem ensures_pure (a : α) (P : α → Prop) (E : ε → Prop) :
    (pure a : Except ε α).Ensures P E ↔ P a := Iff.rfl

@[simp]
theorem ensures_bind (x : Except ε α) (f : α → Except ε β) (P : β → Prop) (E : ε → Prop) :
    (x >>= f).Ensures P E ↔ x.Ensures (fun a => (f a).Ensures P E) E := by
  cases x <;> rfl

theorem bind_eq_ok_iff {x : Except ε α} {f : α → Except ε β} {b : β} :
    x >>= f = .ok b ↔ ∃ a, x = .ok a ∧ f a = .ok b := by
  cases x with
  | ok a => exact ⟨fun h => ⟨a, rfl, h⟩, fun ⟨_, ha, h⟩ => by cases ha; exact h⟩
  | error e => exact ⟨fun h => (nomatch h), fun ⟨_, ha, _⟩ => (nomatch ha)⟩

theorem bind_eq_error_iff {x : Except ε α} {f : α → Except ε β} (hf : ∀ a, ∃ b, f a = .ok b)
    {e : ε} : x >>= f = .error e ↔ x = .error e := by
  cases x with
  | ok a =>
      obtain ⟨b, hb⟩ := hf a
      exact ⟨fun h => (nomatch hb.symm.trans h), fun h => (nomatch h)⟩
  | error e' => exact ⟨fun h => by cases h; rfl, fun h => by cases h; rfl⟩

theorem pure_eq_ok_iff {a b : α} : (pure a : Except ε α) = .ok b ↔ a = b :=
  ⟨fun h => by cases h; rfl, fun h => by cases h; rfl⟩

theorem Ensures.mono {x : Except ε α} {P Q : α → Prop} {E F : ε → Prop} (h : x.Ensures P E)
    (hP : ∀ a, P a → Q a) (hE : ∀ e, E e → F e) : x.Ensures Q F := by
  cases x with
  | ok a => exact hP a h
  | error e => exact hE e h

theorem Ensures.imp {x : Except ε α} {P Q : α → Prop} {E : ε → Prop} (h : x.Ensures P E)
    (hP : ∀ a, P a → Q a) : x.Ensures Q E :=
  h.mono hP fun _ he => he

theorem Ensures.of_ok {x : Except ε α} {P : α → Prop} {E : ε → Prop} {a : α} (h : x.Ensures P E)
    (hx : x = .ok a) : P a := by
  subst hx
  exact h

theorem Ensures.of_error {x : Except ε α} {P : α → Prop} {E : ε → Prop} {e : ε}
    (h : x.Ensures P E) (hx : x = .error e) : E e := by
  subst hx
  exact h

end Except

namespace TypedSexp.Diagnostic

def IsAt (stage : Stage) (d : Diagnostic) : Prop := d.cause.stage = stage

end TypedSexp.Diagnostic
