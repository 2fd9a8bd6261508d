import TypedSexp.Proofs.Ensures
import TypedSexp.Run.Machine

namespace TypedSexp.Run

variable {α β : Type}

def Ensures (x : Run α) (s : Store) (Q : α → Store → Prop) (E : Halt → Store → Prop) : Prop :=
  match x.startingFrom s with
  | (.ok a, s') => Q a s'
  | (.error halt, s') => E halt s'

variable {Q : β → Store → Prop} {E : Halt → Store → Prop} {s : Store}

@[simp]
theorem ensures_pure (b : β) : Ensures (pure b) s Q E ↔ Q b s := Iff.rfl

@[simp]
theorem ensures_throw (halt : Halt) : Ensures (throw halt) s Q E ↔ E halt s := Iff.rfl

@[simp]
theorem ensures_fault (range : Range) (cause : Cause) :
    Ensures (fault range cause) s Q E ↔ E (.fault ⟨range, cause⟩) s := Iff.rfl

theorem startingFrom_pure (a : α) (s : Store) :
    startingFrom (pure a : Run α) s = (.ok a, s) := rfl

theorem startingFrom_bind (x : Run α) (f : α → Run β) (s : Store) :
    startingFrom (x >>= f) s =
      match x.startingFrom s with
      | (.ok a, s') => (f a).startingFrom s'
      | (.error halt, s') => (.error halt, s') := by
  change StateT.run (ExceptT.run (x >>= f)) s = _
  rw [ExceptT.run_bind, StateT.run_bind]
  change (match (ExceptT.run x).run s with | (a, s') => _) = _
  unfold startingFrom
  rcases (ExceptT.run x).run s with ⟨_ | _, _⟩ <;> rfl

@[simp]
theorem ensures_bind (x : Run α) (f : α → Run β) :
    Ensures (x >>= f) s Q E ↔ Ensures x s (fun a s' => Ensures (f a) s' Q E) E := by
  unfold Ensures
  rw [startingFrom_bind]
  rcases x.startingFrom s with ⟨_ | _, _⟩ <;> rfl

@[simp]
theorem ensures_get {Q : Store → Store → Prop} : Ensures get s Q E ↔ Q s s := Iff.rfl

@[simp]
theorem ensures_set {Q : PUnit → Store → Prop} (s' : Store) :
    Ensures (set s') s Q E ↔ Q PUnit.unit s' := Iff.rfl

@[simp]
theorem ensures_modifyGet (f : Store → β × Store) :
    Ensures (modifyGet f) s Q E ↔ Q (f s).1 (f s).2 := Iff.rfl

@[simp]
theorem ensures_ofExcept (x : Except Diagnostic β) :
    Ensures (ofExcept x) s Q E ↔ x.Ensures (Q · s) fun d => E (.fault d) s := by
  cases x <;> rfl

theorem startingFrom_change (f : Store → Except Diagnostic Store) (s : Store) :
    (change f).startingFrom s =
      match f s with
      | .ok s' => (.ok (), s')
      | .error d => (.error (.fault d), s) := by
  simp only [change]
  change (ofExcept (f s) >>= fun s' => set s').startingFrom s = _
  rw [startingFrom_bind]
  cases f s <;> rfl

@[simp]
theorem ensures_change {Q : Unit → Store → Prop} (f : Store → Except Diagnostic Store) :
    Ensures (change f) s Q E ↔ (f s).Ensures (Q ()) fun d => E (.fault d) s := by
  simp [change]

theorem Ensures.mono {x : Run β} {Q' : β → Store → Prop} {E' : Halt → Store → Prop}
    (h : Ensures x s Q E) (hQ : ∀ b s', Q b s' → Q' b s') (hE : ∀ halt s', E halt s' → E' halt s') :
    Ensures x s Q' E' := by
  unfold Ensures at h ⊢
  rcases hx : x.startingFrom s with ⟨_ | _, _⟩
  · rw [hx] at h
    exact hE _ _ h
  · rw [hx] at h
    exact hQ _ _ h

theorem Ensures.of_forall {x : Run β} (hQ : ∀ b s', Q b s') (hE : ∀ halt s', E halt s') :
    Ensures x s Q E := by
  unfold Ensures
  split
  · exact hQ _ _
  · exact hE _ _

theorem Ensures.imp {x : Run β} {Q' : β → Store → Prop} (h : Ensures x s Q E)
    (hQ : ∀ b s', Q b s' → Q' b s') : Ensures x s Q' E :=
  h.mono hQ fun _ _ he => he

theorem Ensures.and {x : Run β} {Q' : β → Store → Prop} {E' : Halt → Store → Prop}
    (h : Ensures x s Q E) (h' : Ensures x s Q' E') :
    Ensures x s (fun b s' => Q b s' ∧ Q' b s') fun halt s' => E halt s' ∧ E' halt s' := by
  unfold Ensures at h h' ⊢
  rcases hx : x.startingFrom s with ⟨_ | _, _⟩
  · rw [hx] at h h'
    exact ⟨h, h'⟩
  · rw [hx] at h h'
    exact ⟨h, h'⟩

theorem Ensures.of_ok {x : Run β} {b : β} {s' : Store} (h : Ensures x s Q E)
    (hx : x.startingFrom s = (.ok b, s')) : Q b s' := by
  simpa only [Ensures, hx] using h

theorem Ensures.of_error {x : Run β} {halt : Halt} {s' : Store} (h : Ensures x s Q E)
    (hx : x.startingFrom s = (.error halt, s')) : E halt s' := by
  simpa only [Ensures, hx] using h

end TypedSexp.Run
