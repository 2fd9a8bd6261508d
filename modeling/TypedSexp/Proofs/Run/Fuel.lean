import TypedSexp.Proofs.Run.Ensures
import TypedSexp.Run.Eval

namespace TypedSexp

namespace Run

variable {α β : Type} {s : Store}

def Below (x y : Run α) (s : Store) : Prop :=
  (x.startingFrom s).1 = .error .outOfFuel ∨ y.startingFrom s = x.startingFrom s

theorem Below.refl (x : Run α) (s : Store) : Below x x s := .inr rfl

theorem Below.bind {x y : Run α} {f g : α → Run β} (hxy : Below x y s)
    (hfg : ∀ a s', Below (f a) (g a) s') : Below (x >>= f) (y >>= g) s := by
  unfold Below
  rw [startingFrom_bind, startingFrom_bind]
  rcases hx : x.startingFrom s with ⟨halt | a, s'⟩
  · rcases hxy with hfuel | heq
    · left
      simpa [hx] using hfuel
    · right
      simp [heq, hx]
  · have heq : y.startingFrom s = (.ok a, s') := by
      rcases hxy with hfuel | heq
      · simp [hx] at hfuel
      · rw [heq, hx]
    rw [heq]
    exact hfg a s'

theorem Below.mapM {f g : α → Run β} {as : List α} (h : ∀ a ∈ as, ∀ s, Below (f a) (g a) s) :
    Below (as.mapM f) (as.mapM g) s := by
  induction as generalizing s with
  | nil => exact .refl _ s
  | cons a rest ih =>
      obtain ⟨ha, hrest⟩ := List.forall_mem_cons.mp h
      rw [List.mapM_cons, List.mapM_cons]
      refine (ha s).bind fun b s' => ?_
      exact (ih hrest).bind fun bs s'' => .refl _ s''

theorem Below.eq_of_ne {x y : Run α} (h : Below x y s) {r : Except Halt α} {s' : Store}
    (hx : x.startingFrom s = (r, s')) (hr : r ≠ .error .outOfFuel) :
    y.startingFrom s = (r, s') := by
  rcases h with hfuel | heq
  · rw [hx] at hfuel
    exact absurd hfuel hr
  · rw [heq, hx]

end Run

open Run (Below)

theorem Expr.eval_below {fuel more : Nat} (hle : fuel ≤ more) (scope : Nat) (e : Expr)
    (s : Store) : Below (e.eval fuel scope) (e.eval more scope) s := by
  induction fuel generalizing more scope e s with
  | zero => exact .inl rfl
  | succ fuel ih =>
      obtain ⟨more, rfl⟩ := Nat.exists_eq_add_of_lt hle
      have hle : fuel ≤ fuel + more := Nat.le_add_right fuel more
      have ih (scope : Nat) (e : Expr) (s : Store) := ih hle scope e s
      cases e with
      | var range name => exact .refl _ s
      | num range n => exact .refl _ s
      | bool range b => exact .refl _ s
      | lambda range param paramType body => exact .refl _ s
      | apply range head args =>
          refine (ih scope head s).bind fun v s' => ?_
          cases v with
          | closure param body captured =>
              rcases args with _ | ⟨arg, _ | ⟨second, rest⟩⟩
              · exact .refl _ s'
              · refine (ih scope arg s').bind fun w s'' => ?_
                exact (Below.refl _ s'').bind fun inner s''' => ih inner body s'''
              · exact .refl _ s'
          | prim p =>
              exact (Below.mapM fun arg _ s => ih scope arg s).bind fun vs s'' => .refl _ s''
          | _ => exact .refl _ s'
      | cond range guard thenBranch elseBranch =>
          refine (ih scope guard s).bind fun v s' => ?_
          cases v with
          | bool b =>
              cases b with
              | true => exact ih scope thenBranch s'
              | false => exact ih scope elseBranch s'
          | _ => exact .refl _ s'
      | record range fields =>
          refine Below.bind (Below.mapM fun field _ s => ?_) fun vs s' => .refl _ s'
          exact (ih scope field.2 s).bind fun v s' => .refl _ s'
      | project range target name => exact (ih scope target s).bind fun v s' => .refl _ s'
      | inject range variant payload => exact (ih scope payload s).bind fun v s' => .refl _ s'

theorem Stmt.exec_below {fuel more : Nat} (hle : fuel ≤ more) (scope : Nat) (stmt : Stmt)
    (s : Store) : Below (stmt.exec fuel scope) (stmt.exec more scope) s := by
  cases stmt with
  | define range name value => exact (value.eval_below hle scope s).bind fun v s' => .refl _ s'
  | assign range target value => exact (value.eval_below hle scope s).bind fun v s' => .refl _ s'
  | print range value => exact (value.eval_below hle scope s).bind fun v s' => .refl _ s'

theorem Script.exec_below {fuel more : Nat} (hle : fuel ≤ more) (scope : Nat) (script : Script)
    (s : Store) : Below (script.exec fuel scope) (script.exec more scope) s := by
  induction script generalizing s with
  | nil => exact .refl _ s
  | cons stmt rest ih =>
      refine (stmt.exec_below hle scope s).bind fun line s' => ?_
      exact (ih s').bind fun lines s'' => .refl _ s''

end TypedSexp
