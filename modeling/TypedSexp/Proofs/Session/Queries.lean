import TypedSexp.Proofs.Legacy.Grammar
import TypedSexp.Proofs.Run.Ensures
import TypedSexp.Proofs.Session.Recovery

/-!
Questions leave a session as it is. A legacy expression is run in the session's store, but all it
can apply are operators, each to two arguments: a function refuses these before it looks at them, so
that no scope is made.
-/

namespace TypedSexp

namespace Run

variable {α β : Type} {s : Store}

def Leaves (x : Run α) (s : Store) : Prop :=
  Ensures x s (fun _ s' => s' = s) fun _ s' => s' = s

theorem Leaves.pure (a : α) (s : Store) : Leaves (Pure.pure a) s := rfl

theorem Leaves.fault (range : Range) (cause : Cause) (s : Store) :
    Leaves (Run.fault range cause : Run α) s := rfl

theorem Leaves.ofExcept (x : Except Diagnostic α) (s : Store) : Leaves (Run.ofExcept x) s := by
  cases x <;> rfl

theorem Leaves.bind {x : Run α} {f : α → Run β} (hx : Leaves x s) (hf : ∀ a, Leaves (f a) s) :
    Leaves (x >>= f) s := by
  rw [Leaves, ensures_bind]
  refine hx.imp fun a s' hs' => ?_
  subst hs'
  exact hf a

theorem Leaves.mapM {f : α → Run β} {as : List α} (h : ∀ a ∈ as, Leaves (f a) s) :
    Leaves (as.mapM f) s := by
  induction as with
  | nil => exact .pure [] s
  | cons a rest ih =>
      obtain ⟨ha, hrest⟩ := List.forall_mem_cons.mp h
      rw [List.mapM_cons]
      exact ha.bind fun b => (ih hrest).bind fun bs => .pure _ s

theorem Leaves.snd_eq {x : Run α} (h : Leaves x s) : (x.startingFrom s).2 = s := by
  rcases hx : x.startingFrom s with ⟨halt | a, s'⟩
  · exact h.of_error hx
  · exact h.of_ok hx

end Run

open Run (Leaves)

theorem Expr.eval_var_leaves (fuel scope : Nat) (range : Range) (name : Name) (s : Store) :
    Leaves ((Expr.var range name).eval fuel scope) s := by
  cases fuel with
  | zero => rfl
  | succ fuel =>
      simp only [eval, Leaves, Run.ensures_bind, Run.ensures_get]
      cases s.lookup? scope name <;> rfl

theorem Legacy.Derives.eval_leaves {ts : List Token} {e : Expr} (h : Derives ts e)
    (fuel scope : Nat) (s : Store) : Leaves (e.eval fuel scope) s := by
  induction h generalizing fuel with
  | number => cases fuel <;> rfl
  | trueWord => cases fuel <;> rfl
  | falseWord => cases fuel <;> rfl
  | operation _ _ _ _ _ ihleft ihright =>
      cases fuel with
      | zero => rfl
      | succ fuel =>
          refine (Expr.eval_var_leaves fuel scope _ _ s).bind fun head => ?_
          cases head with
          | prim p =>
              have hargs := Leaves.mapM (List.forall_mem_cons.mpr
                ⟨ihleft fuel, List.forall_mem_singleton.mpr (ihright fuel)⟩)
              exact hargs.bind fun vs => .ofExcept _ s
          | _ => exact .fault _ _ s
  | cond _ _ _ _ _ _ _ _ ihguard ihthen ihelse =>
      cases fuel with
      | zero => rfl
      | succ fuel =>
          refine (ihguard fuel).bind fun v => ?_
          cases v with
          | bool b =>
              cases b with
              | true => exact ihthen fuel
              | false => exact ihelse fuel
          | _ => exact .fault _ _ s

theorem Session.legacy_snd (s : Session) (fuel : Nat) (source : Text) :
    (s.legacy fuel source).2 = s := by
  unfold legacy
  split
  · rfl
  case h_2 e hread =>
    split
    · rfl
    · obtain ⟨tokens, -, htokens⟩ := Except.bind_eq_ok_iff.mp hread
      have hstore := ((Legacy.ofTokens_eq_ok_iff.mp htokens).eval_leaves fuel Store.programScope
        s.store).snd_eq
      split
      case h_1 v store hresult =>
        rw [hresult] at hstore
        rw [show store = s.store from hstore]
      case h_2 halt store hresult =>
        rw [hresult] at hstore
        rw [show store = s.store from hstore]

inductive Query where
  | typeOf (source : Text)
  | legacy (fuel : Nat) (source : Text)

def Query.request : Query → Request
  | .typeOf source => .call (.typeOf source)
  | .legacy fuel source => .call (.legacy fuel source)

namespace Session

/-- The answers to the requests, and the session at the end. Queries are put to the session in
their turn, but their answers are left out. -/
def converse (s : Session) : List (Request ⊕ Query) → List Response × Session
  | [] => ([], s)
  | .inl request :: rest =>
      let (response, next) := s.respond request
      let (responses, last) := converse next rest
      (response :: responses, last)
  | .inr query :: rest => converse (s.respond query.request).2 rest

def afterRequests (s : Session) (requests : List Request) : Session :=
  requests.foldl (fun s request => (s.respond request).2) s

theorem respond_query_snd (s : Session) (query : Query) : (s.respond query.request).2 = s := by
  cases query with
  | typeOf source => rfl
  | legacy fuel source => exact s.legacy_snd fuel source

theorem converse_eq (s : Session) (plan : List (Request ⊕ Query)) :
    s.converse plan =
      (s.responses (plan.filterMap Sum.getLeft?),
        s.afterRequests (plan.filterMap Sum.getLeft?)) := by
  induction plan generalizing s with
  | nil => rfl
  | cons part rest ih =>
      cases part with
      | inl request =>
          simp only [converse, ih]
          rfl
      | inr query =>
          rw [converse, respond_query_snd, ih]
          rfl

theorem queries_disturb_nothing (s : Session) :
    (∀ query : Query, (s.respond query.request).2 = s) ∧
    ∀ plan : List (Request ⊕ Query),
      s.converse plan =
        (s.responses (plan.filterMap Sum.getLeft?),
          s.afterRequests (plan.filterMap Sum.getLeft?)) :=
  ⟨s.respond_query_snd, s.converse_eq⟩

/-- An operator that a program has bound to a function is not called. -/
example :
    (((start false).eval 2 (utf8 "(define || (lambda x Bool x))")).2.legacy 2
        (utf8 "(|| true false)")).1 =
      .error (.fault ⟨Range.none, .arityMismatch 1 2 .runtime⟩) := by
  rfl

end Session

end TypedSexp
