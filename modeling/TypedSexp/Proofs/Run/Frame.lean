import TypedSexp.Proofs.Run.Ensures
import TypedSexp.Proofs.Run.Scopes
import TypedSexp.Run.Eval

namespace TypedSexp

/-- A call that has come to the body of its function: where the function was made, and what its
parameter stands for. -/
structure Activation where
  captured : Nat
  param : Name
  argument : Value

def Activation.scope (call : Activation) : Scope :=
  ⟨some call.captured, [call.param], [(call.param, call.argument)]⟩

namespace Run

variable {α β γ : Type}

def followedBy (x : Run α) (s : Store) (next : α → Store → List Activation) : List Activation :=
  match x.startingFrom s with
  | (.ok a, s') => next a s'
  | (.error _, _) => []

def inTurn (f : α → Run β) (calls : α → Store → List Activation) :
    List α → Store → List Activation
  | [], _ => []
  | a :: rest, s => calls a s ++ (f a).followedBy s fun _ s' => inTurn f calls rest s'

end Run

namespace Expr

def activations : (fuel : Nat) → (scope : Nat) → Expr → Store → List Activation
  | 0, _, _, _ => []
  | fuel + 1, scope, e, s =>
      match e with
      | .apply _ head args =>
          activations fuel scope head s ++ (eval fuel scope head).followedBy s fun f s₁ =>
            match f, args with
            | .closure param body captured, [arg] =>
                activations fuel scope arg s₁ ++ (eval fuel scope arg).followedBy s₁ fun v s₂ =>
                  ⟨captured, param, v⟩ ::
                    activations fuel s₂.size body (s₂.newScope (some captured) [(param, v)]).2
            | .prim _, args => Run.inTurn (eval fuel scope) (activations fuel scope) args s₁
            | _, _ => []
      | .cond _ guard thenBranch elseBranch =>
          activations fuel scope guard s ++ (eval fuel scope guard).followedBy s fun v s₁ =>
            match v with
            | .bool true => activations fuel scope thenBranch s₁
            | .bool false => activations fuel scope elseBranch s₁
            | _ => []
      | .record _ fields =>
          Run.inTurn (fun field => eval fuel scope field.2)
            (fun field => activations fuel scope field.2) fields s
      | .project _ target _ => activations fuel scope target s
      | .inject _ _ payload => activations fuel scope payload s
      | _ => []

end Expr

namespace Run

variable {α β γ : Type} {s : Store}

def Appends (x : Run α) (s : Store) (calls : List Activation) : Prop :=
  (x.startingFrom s).2.scopes = s.scopes ++ (calls.map Activation.scope).toArray

theorem Appends.pure (a : α) (s : Store) : Appends (Pure.pure a) s [] := by
  simp [Appends, startingFrom_pure]

theorem Appends.throw (halt : Halt) (s : Store) :
    Appends (MonadExcept.throw halt : Run α) s [] := by
  change s.scopes = _
  simp

theorem Appends.get (s : Store) : Appends (MonadState.get : Run Store) s [] := by
  change s.scopes = _
  simp

theorem Appends.ofExcept (x : Except Diagnostic α) (s : Store) : Appends (Run.ofExcept x) s [] := by
  cases x with
  | ok a => exact .pure a s
  | error d => exact .throw _ s

theorem Appends.bind {x : Run α} {f : α → Run β} {calls : List Activation}
    {next : α → Store → List Activation} (hx : Appends x s calls)
    (hf : ∀ a s', Appends (f a) s' (next a s')) :
    Appends (x >>= f) s (calls ++ x.followedBy s next) := by
  rw [Appends, startingFrom_bind, followedBy]
  rw [Appends] at hx
  rcases hresult : x.startingFrom s with ⟨halt | a, s'⟩
  · rw [hresult] at hx
    simpa using hx
  · rw [hresult] at hx
    have hnext := hf a s'
    rw [Appends, hx] at hnext
    simpa [Array.append_assoc] using hnext

theorem followedBy_nil (x : Run α) (s : Store) : x.followedBy s (fun _ _ => []) = [] := by
  unfold followedBy
  split <;> rfl

theorem Appends.bind_nil {x : Run α} {f : α → Run β} {calls : List Activation}
    (hx : Appends x s calls) (hf : ∀ a s', Appends (f a) s' []) : Appends (x >>= f) s calls := by
  have h := hx.bind hf
  rwa [followedBy_nil, List.append_nil] at h

theorem Appends.map {x : Run α} {calls : List Activation} (hx : Appends x s calls) (f : α → β) :
    Appends (do return f (← x)) s calls :=
  hx.bind_nil fun a s' => .pure (f a) s'

theorem followedBy_map (x : Run α) (f : α → β) (s : Store) (next : Store → List Activation) :
    (do return f (← x)).followedBy s (fun _ s' => next s') =
      x.followedBy s fun _ s' => next s' := by
  rw [followedBy, followedBy, startingFrom_bind]
  rcases x.startingFrom s with ⟨_ | _, _⟩ <;> rfl

theorem Appends.mapM {f : α → Run β} {g : α → β → γ} {calls : α → Store → List Activation}
    {as : List α} (h : ∀ a ∈ as, ∀ s, Appends (f a) s (calls a s)) :
    Appends (as.mapM fun a => do return g a (← f a)) s (inTurn f calls as s) := by
  induction as generalizing s with
  | nil => exact .pure [] s
  | cons a rest ih =>
      obtain ⟨ha, hrest⟩ := List.forall_mem_cons.mp h
      rw [List.mapM_cons, inTurn, ← followedBy_map (f a) (g a)]
      exact ((ha s).map (g a)).bind fun c s' => (ih hrest).map (c :: ·)

theorem Appends.newScope {captured : Nat} {param : Name} {v : Value} {calls : List Activation}
    {f : Nat → Run β}
    (h : Appends (f s.size) (s.newScope (some captured) [(param, v)]).2 calls) :
    Appends (modifyGet (·.newScope (some captured) [(param, v)]) >>= f) s
      (⟨captured, param, v⟩ :: calls) := by
  change ((f s.size).startingFrom (s.newScope (some captured) [(param, v)]).2).2.scopes = _
  rw [Appends] at h
  rw [h]
  simp [Store.newScope, Activation.scope, Scope.holding_single]

end Run

namespace Expr

open Run (Appends)

theorem projectFrom_appends (range : Range) (name : Name) (v : Value) (s : Store) :
    Appends (projectFrom range name v) s [] := by
  unfold projectFrom
  split
  · split
    · exact .pure _ s
    · exact .throw _ s
  · split
    · exact .pure _ s
    · exact .throw _ s
  · exact .throw _ s

theorem eval_appends (fuel scope : Nat) (e : Expr) (s : Store) :
    Appends (e.eval fuel scope) s (e.activations fuel scope s) := by
  induction fuel generalizing scope e s with
  | zero => exact .throw _ s
  | succ fuel ih =>
      cases e with
      | var range name =>
          refine (Appends.get s).bind_nil fun store s' => ?_
          split
          · exact .pure _ s'
          · exact .throw _ s'
      | num range n => exact .pure _ s
      | bool range b => exact .pure _ s
      | lambda range param paramType body => exact .pure _ s
      | apply range head args =>
          refine (ih scope head s).bind fun f s₁ => ?_
          cases f with
          | closure param body captured =>
              rcases args with _ | ⟨arg, _ | ⟨second, rest⟩⟩
              · exact .throw _ s₁
              · exact (ih scope arg s₁).bind fun v s₂ => .newScope (ih _ body _)
              · exact .throw _ s₁
          | prim p =>
              have hargs : Appends (args.mapM (eval fuel scope)) s₁
                  (Run.inTurn (eval fuel scope) (activations fuel scope) args s₁) := by
                simpa using Appends.mapM (g := fun _ v => v) fun arg _ s => ih scope arg s
              exact hargs.bind_nil fun vs s₂ => .ofExcept (p.apply vs) s₂
          | _ => exact .throw _ s₁
      | cond range guard thenBranch elseBranch =>
          refine (ih scope guard s).bind fun v s₁ => ?_
          cases v with
          | bool b =>
              cases b with
              | true => exact ih scope thenBranch s₁
              | false => exact ih scope elseBranch s₁
          | _ => exact .throw _ s₁
      | record range fields =>
          exact (Appends.mapM fun field _ s => ih scope field.2 s).map Value.ofFields
      | project range target name =>
          exact (ih scope target s).bind_nil fun v s₁ => projectFrom_appends range name v s₁
      | inject range variant payload => exact (ih scope payload s).map (Value.union variant)

end Expr

namespace Store

variable {s s' : Store} {calls : List Activation}

theorem Extends.of_scopes (h : s'.scopes = s.scopes ++ (calls.map Activation.scope).toArray) :
    s.Extends s' where
  size_le := by simp [size, h]
  scope?_eq id hid := by
    rw [scope?, h, Array.getElem?_append_left hid]
    rfl

theorem size_of_scopes (h : s'.scopes = s.scopes ++ (calls.map Activation.scope).toArray) :
    s'.size = s.size + calls.length := by
  simp [size, h]

theorem scope?_of_scopes (h : s'.scopes = s.scopes ++ (calls.map Activation.scope).toArray)
    {i : Nat} {call : Activation} (hcall : calls[i]? = some call) :
    s'.scope? (s.size + i) = some call.scope := by
  rw [scope?, h, size, Array.getElem?_append_right (Nat.le_add_right _ _)]
  simp [hcall]

end Store

def Run.Keeps {α : Type} (x : Run α) (s : Store) : Prop :=
  Ensures x s (fun _ s' => s.Extends s') fun _ s' => s.Extends s'

theorem Expr.eval_keeps (fuel scope : Nat) (e : Expr) (s : Store) :
    Run.Keeps (e.eval fuel scope) s := by
  have hextends := Store.Extends.of_scopes (e.eval_appends fuel scope s)
  rw [Run.Keeps, Run.Ensures]
  rcases hresult : (e.eval fuel scope).startingFrom s with ⟨halt | v, s'⟩
  · rwa [hresult] at hextends
  · rwa [hresult] at hextends

def Stmt.value : Stmt → Expr
  | .define _ _ value => value
  | .assign _ _ value => value
  | .print _ value => value

end TypedSexp
