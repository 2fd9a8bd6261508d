import TypedSexp.Proofs.Run.Relabel
import TypedSexp.Proofs.Session.History

/-!
What a failed input leaves. An input that is rejected before it runs changes nothing. One that fails
while it runs may leave scopes of calls behind, but nobody can get at them: the session answers
every later request as if it had been given the statements before the failing one and no others.
-/

namespace TypedSexp

open Store (programScope)

inductive Request where
  | call (c : Call)
  | bindings

inductive Response where
  | lines (result : Except Halt (List Text))
  | type (result : Except Diagnostic Ty)
  | shown (result : Except Halt Text)
  | bindings (list : List Session.Binding)

namespace Relabeling

def skip (n m : Nat) : Relabeling where
  scope id := if id < n then id else id + m
  place := id
  type := id
  scope_lt := by
    intro i j hij
    split <;> split <;> omega
  place_none := rfl

theorem scope_skip {n m id : Nat} (h : id < n) : (skip n m).scope id = id := if_pos h

end Relabeling

open Relabeling (skip)

namespace Value

theorem relabel_skip {n m : Nat} {v : Value} (h : v.Within n) : v.relabel (skip n m) = v := by
  induction h with
  | num => rfl
  | bool => rfl
  | prim => rfl
  | @closure param body scope hscope =>
      have hbody : body.relabel (skip n m).place (skip n m).type = body := body.relabel_id
      simp only [relabel, hbody, Relabeling.scope_skip hscope]
  | @record fields _ ih =>
      rw [relabel, relabelFields_eq_map, Members.map_eq_self ih]
  | union _ ih => rw [relabel, ih]

end Value

theorem Scope.relabel_skip {s : Store} (hs : s.Sound) {i : Nat} {scope : Scope}
    (h : s.scope? i = some scope) (m : Nat) : scope.relabel (skip s.size m) = scope := by
  obtain ⟨parent, names, values⟩ := scope
  have hi := Store.lt_size_of_scope? h
  have hparent : parent.map (skip s.size m).scope = parent := by
    cases parent with
    | none => rfl
    | some outer =>
        have houter : outer < i := hs.parent (by simp [Store.parent?, h])
        rw [Option.map_some, Relabeling.scope_skip (Nat.lt_trans houter hi)]
  have hvalues : Value.relabelFields (skip s.size m) values = values := by
    rw [Value.relabelFields_eq_map]
    refine Members.map_eq_self fun binding hmem => Value.relabel_skip ?_
    have hmem : binding ∈ s.values i := by simpa [Store.values, h] using hmem
    exact hs.handle hmem
  rw [Scope.relabel, hparent, hvalues]

theorem Store.Sound.skip_maps {s t : Store} (hs : s.Sound) (h : s.Extends t) :
    (skip s.size (t.size - s.size)).Maps s t where
  size k := by
    have hle := h.size_le
    simp only [skip]
    split <;> omega
  scope? id := by
    rcases Nat.lt_or_ge id s.size with hlt | hge
    · rw [Relabeling.scope_skip hlt, h.scope?_eq id hlt]
      cases hscope : s.scope? id with
      | none => rfl
      | some scope => rw [Option.map_some, Scope.relabel_skip hs hscope]
    · have hle := h.size_le
      have hnone : t.scope? ((skip s.size (t.size - s.size)).scope id) = none := by
        refine Store.scope?_eq_none_iff.mpr ?_
        simp only [skip]
        split <;> omega
      rw [hnone, Store.scope?_eq_none_iff.mpr hge, Option.map_none]

theorem Stmt.exec_error_extends {fuel : Nat} {stmt : Stmt} {s s' : Store} {halt : Halt}
    (h : (stmt.exec fuel programScope).startingFrom s = (.error halt, s')) : s.Extends s' := by
  have hexec : Run.Ensures (stmt.exec fuel programScope) s (fun _ _ => True)
      fun _ s' => s.Extends s' := by
    cases stmt with
    | define range name value =>
        simp only [exec, Run.ensures_bind, Run.ensures_change, Run.ensures_pure]
        refine (value.eval_keeps fuel programScope s).imp fun v s₁ hs₁ => ?_
        cases s₁.define programScope range name v with
        | error d => exact hs₁
        | ok s₂ => trivial
    | assign range target value =>
        simp only [exec, Run.ensures_bind]
        refine (value.eval_keeps fuel programScope s).imp fun v s₁ hs₁ => ?_
        cases target with
        | var targetRange name =>
            simp only [Run.ensures_bind, Run.ensures_get]
            split
            · simp only [Run.ensures_bind, Run.ensures_change, Run.ensures_pure]
              cases s₁.update programScope name v with
              | error d => exact hs₁
              | ok s₂ => trivial
            · exact hs₁
        | _ => exact hs₁
    | print range value =>
        simp only [exec, Run.ensures_bind, Run.ensures_pure]
        exact (value.eval_keeps fuel programScope s).imp fun _ _ _ => trivial
  exact hexec.of_error h

namespace Session

def start (checking : Bool) : Session := { checking := checking }

def Reachable (s : Session) : Prop := ∃ checking calls, s = (start checking).after calls

def respond (s : Session) : Request → Response × Session
  | .call (.eval fuel source) => (.lines (s.eval fuel source).1, (s.eval fuel source).2)
  | .call (.typeOf source) => (.type (s.typeOf source), s)
  | .call (.legacy fuel source) => (.shown (s.legacy fuel source).1, (s.legacy fuel source).2)
  | .bindings => (.bindings s.bindings, s)

def responses (s : Session) : List Request → List Response
  | [] => []
  | request :: rest => (s.respond request).1 :: responses (s.respond request).2 rest

def Indistinguishable (s t : Session) : Prop :=
  ∀ requests, s.responses requests = t.responses requests

def evalScript (fuel : Nat) (s : Session) (script : Script) : Except Halt (List Text) × Session :=
  match contextsAfter s.checking s.context script with
  | .error d => (.error (.fault d), s)
  | .ok contexts => execute fuel s (script.zip contexts)

variable {s t : Session} {fuel : Nat}

theorem eval_eq_evalScript {source : Text} {script : Script} (h : Script.read source = .ok script) :
    s.eval fuel source = s.evalScript fuel script := by
  simp only [eval, h]
  rfl

theorem execute_sound (fuel : Nat) (hs : s.store.Sound) (todo : List (Stmt × Context)) :
    (execute fuel s todo).2.store.Sound := by
  induction todo generalizing s with
  | nil => exact hs
  | cons pair rest ih =>
      obtain ⟨stmt, Δ⟩ := pair
      have hexec := stmt.exec_sound fuel hs
      rcases hresult : (stmt.exec fuel programScope).startingFrom s.store with ⟨halt | line, store⟩
      · rw [execute_cons, hresult]
        exact hexec.of_error hresult
      · rw [execute_cons_of_ok hresult]
        exact ih (hexec.of_ok hresult)

theorem evalScript_sound (fuel : Nat) (hs : s.store.Sound) (script : Script) :
    (s.evalScript fuel script).2.store.Sound := by
  unfold evalScript
  split
  · exact hs
  · exact execute_sound fuel hs _

theorem call_sound (hs : s.store.Sound) (c : Call) : (s.call c).store.Sound := by
  cases c with
  | eval fuel source =>
      cases hread : Script.read source with
      | error d => simpa only [call, eval, hread] using hs
      | ok script =>
          rw [call, eval_eq_evalScript hread]
          exact evalScript_sound fuel hs script
  | typeOf source => exact hs
  | legacy fuel source =>
      simp only [call, legacy]
      split
      · exact hs
      case h_2 e _ =>
        split
        · exact hs
        · have hhandles := e.eval_handles fuel hs.toLinked hs.program
          split
          case h_1 v store hresult =>
            obtain ⟨hle, hlinked, -⟩ := hhandles.of_ok hresult
            exact hs.grow hle hlinked
          case h_2 halt store hresult =>
            obtain ⟨hle, hlinked⟩ := hhandles.of_error hresult
            exact hs.grow hle hlinked

theorem Reachable.sound (h : s.Reachable) : s.store.Sound := by
  obtain ⟨checking, calls, rfl⟩ := h
  have hgeneral (s : Session) (hs : s.store.Sound) : (s.after calls).store.Sound := by
    induction calls generalizing s with
    | nil => exact hs
    | cons c calls ih => exact ih _ (call_sound hs c)
  exact hgeneral _ Store.initial_sound

structure Mirrors (g : Relabeling) (s t : Session) : Prop where
  checking : t.checking = s.checking
  context : t.context = s.context
  store : g.Maps s.store t.store

section mirrors

variable {n m : Nat} (hn : programScope < n) (h : Mirrors (skip n m) s t)

include hn h

theorem execute_mirrors (fuel : Nat) (todo : List (Stmt × Context)) :
    (execute fuel t todo).1 = (execute fuel s todo).1 ∧
      Mirrors (skip n m) (execute fuel s todo).2 (execute fuel t todo).2 := by
  induction todo generalizing s t with
  | nil => exact ⟨rfl, h⟩
  | cons pair rest ih =>
      obtain ⟨stmt, Δ⟩ := pair
      have hexec := stmt.exec_mirrors rfl fuel programScope h.store
      have hstmt : stmt.relabel (skip n m).place id = stmt := stmt.relabel_id
      rw [hstmt, Relabeling.scope_skip hn] at hexec
      rw [execute_cons, execute_cons]
      rcases hresult : (stmt.exec fuel programScope).startingFrom s.store with ⟨halt | line, store⟩
      · obtain ⟨store', hresult', hmaps⟩ := hexec.of_error hresult
        have hhalt : halt.relocate (skip n m).place = halt := halt.relocate_id
        rw [hhalt] at hresult'
        simp only [hresult']
        exact ⟨trivial, h.checking, h.context, hmaps⟩
      · obtain ⟨store', hresult', hmaps⟩ := hexec.of_ok hresult
        simp only [hresult']
        have hnext : Mirrors (skip n m) { s with store := store, context := Δ }
            { t with store := store', context := Δ } := ⟨h.checking, rfl, hmaps⟩
        obtain ⟨hresult, hmirrors⟩ := ih hnext
        rcases hs : execute fuel { s with store := store, context := Δ } rest with ⟨r, s'⟩
        rcases ht : execute fuel { t with store := store', context := Δ } rest with ⟨r', t'⟩
        rw [hs, ht] at hresult hmirrors
        obtain rfl : r' = r := hresult
        cases r' <;> exact ⟨rfl, hmirrors⟩

theorem evalScript_mirrors (fuel : Nat) (script : Script) :
    (t.evalScript fuel script).1 = (s.evalScript fuel script).1 ∧
      Mirrors (skip n m) (s.evalScript fuel script).2 (t.evalScript fuel script).2 := by
  unfold evalScript
  rw [h.checking, h.context]
  split
  · exact ⟨rfl, h⟩
  · exact execute_mirrors hn h fuel _

theorem legacy_mirrors (fuel : Nat) (source : Text) :
    (t.legacy fuel source).1 = (s.legacy fuel source).1 ∧
      Mirrors (skip n m) (s.legacy fuel source).2 (t.legacy fuel source).2 := by
  unfold legacy
  cases Legacy.read source with
  | error d => exact ⟨rfl, h⟩
  | ok e =>
      simp only [h.checking, h.context]
      split
      · exact ⟨rfl, h⟩
      · have heval := e.eval_mirrors fuel programScope h.store
        have he : e.relabel (skip n m).place (skip n m).type = e := e.relabel_id
        rw [he, Relabeling.scope_skip hn] at heval
        rcases hresult : (e.eval fuel programScope).startingFrom s.store with ⟨halt | v, store⟩
        · obtain ⟨store', hresult', hmaps⟩ := heval.of_error hresult
          have hhalt : halt.relocate (skip n m).place = halt := halt.relocate_id
          rw [hhalt] at hresult'
          simp only [hresult']
          exact ⟨trivial, rfl, rfl, hmaps⟩
        · obtain ⟨store', hresult', hmaps⟩ := heval.of_ok hresult
          simp only [hresult', v.toText_relabel]
          exact ⟨trivial, rfl, rfl, hmaps⟩

theorem bindings_mirrors : t.bindings = s.bindings := by
  have hbindings := h.store.bindings programScope
  rw [Relabeling.scope_skip hn] at hbindings
  simp only [bindings, hbindings, Value.relabelFields_eq_map, List.map_map, h.checking, h.context]
  refine List.map_congr_left fun binding _ => ?_
  simp only [Function.comp_apply, Value.toText_relabel]

theorem respond_mirrors (request : Request) :
    (t.respond request).1 = (s.respond request).1 ∧
      Mirrors (skip n m) (s.respond request).2 (t.respond request).2 := by
  match request with
  | .call (.eval fuel source) =>
      simp only [respond]
      cases hread : Script.read source with
      | error d => simpa [eval, hread] using h
      | ok script =>
          obtain ⟨hresult, hmirrors⟩ := evalScript_mirrors hn h fuel script
          rw [eval_eq_evalScript hread, eval_eq_evalScript hread]
          exact ⟨congrArg Response.lines hresult, hmirrors⟩
  | .call (.typeOf source) => exact ⟨by simp only [respond, typeOf, h.context], h⟩
  | .call (.legacy fuel source) =>
      obtain ⟨hresult, hmirrors⟩ := legacy_mirrors hn h fuel source
      exact ⟨congrArg Response.shown hresult, hmirrors⟩
  | .bindings => exact ⟨congrArg Response.bindings (bindings_mirrors hn h), h⟩

theorem Mirrors.indistinguishable : t.Indistinguishable s := by
  intro requests
  induction requests generalizing s t with
  | nil => rfl
  | cons request rest ih =>
      obtain ⟨hresponse, hmirrors⟩ := respond_mirrors hn h request
      simp only [responses, hresponse, ih hmirrors]

end mirrors

theorem contextsAfter_cons_ok {checking : Bool} {Γ : Context} {stmt : Stmt} {rest : Script}
    {contexts : List Context} :
    contextsAfter checking Γ (stmt :: rest) = .ok contexts ↔
      ∃ Δ others, (if checking then stmt.check Γ else .ok Γ) = .ok Δ ∧
        contextsAfter checking Δ rest = .ok others ∧ contexts = Δ :: others := by
  have hcons : contextsAfter checking Γ (stmt :: rest) = do
      let Δ ← (if checking then stmt.check Γ else .ok Γ)
      return Δ :: (← contextsAfter checking Δ rest) := by
    cases checking <;> rfl
  simp only [hcons, Except.bind_eq_ok_iff, Except.pure_eq_ok_iff]
  constructor
  · rintro ⟨Δ, hΔ, others, hothers, rfl⟩
    exact ⟨Δ, others, hΔ, hothers, rfl⟩
  · rintro ⟨Δ, others, hΔ, hothers, rfl⟩
    exact ⟨Δ, hΔ, others, hothers, rfl⟩

theorem contextsAfter_take {checking : Bool} {Γ : Context} {script : Script}
    {contexts : List Context} (h : contextsAfter checking Γ script = .ok contexts) (k : Nat) :
    contextsAfter checking Γ (script.take k) = .ok (contexts.take k) := by
  induction script generalizing Γ contexts k with
  | nil =>
      cases h
      simp [contextsAfter]
  | cons stmt rest ih =>
      obtain ⟨Δ, others, hΔ, hothers, rfl⟩ := contextsAfter_cons_ok.mp h
      cases k with
      | zero => rfl
      | succ k =>
          rw [List.take_succ_cons, List.take_succ_cons]
          exact contextsAfter_cons_ok.mpr ⟨Δ, others.take k, hΔ, ih hothers k, rfl⟩

theorem evalScript_take {script : Script} {contexts : List Context}
    (h : contextsAfter s.checking s.context script = .ok contexts) (k : Nat) :
    s.evalScript fuel (script.take k) = execute fuel s ((script.zip contexts).take k) := by
  simp only [evalScript, contextsAfter_take h k, List.zip_eq_zipWith, List.take_zipWith]

theorem execute_error_split {todo : List (Stmt × Context)} {halt : Halt} {s' : Session}
    (h : execute fuel s todo = (.error halt, s')) :
    ∃ k stmt Δ lines s₀ store, todo[k]? = some (stmt, Δ) ∧
      execute fuel s (todo.take k) = (.ok lines, s₀) ∧
      (stmt.exec fuel programScope).startingFrom s₀.store = (.error halt, store) ∧
      s' = { s₀ with store := store } := by
  induction todo generalizing s with
  | nil => simp [execute] at h
  | cons pair rest ih =>
      obtain ⟨stmt, Δ⟩ := pair
      rw [execute_cons] at h
      rcases hresult : (stmt.exec fuel programScope).startingFrom s.store with ⟨halt' | line, store⟩
      · simp only [hresult, Prod.mk.injEq, Except.error.injEq] at h
        obtain ⟨rfl, rfl⟩ := h
        exact ⟨0, stmt, Δ, [], s, store, rfl, rfl, hresult, rfl⟩
      · simp only [hresult] at h
        have hrest : execute fuel { s with store := store, context := Δ } rest =
            (.error halt, s') := by
          rcases hrest : execute fuel { s with store := store, context := Δ } rest with ⟨_ | _, _⟩
          · simpa [hrest] using h
          · simp [hrest] at h
        obtain ⟨k, stmt', Δ', lines, s₀, store', hk, hbefore, hstmt, hs'⟩ := ih hrest
        refine ⟨k + 1, stmt', Δ', line.toList ++ lines, s₀, store', hk, ?_, hstmt, hs'⟩
        rw [List.take_succ_cons, execute_cons, hresult]
        simp only [hbefore]

/-- A rejected input leaves the session as it was. An input that fails while it runs leaves it as
its statements before the failing one do, for all that later requests can show. -/
theorem failed_input_leaves_its_successful_part (hs : s.Reachable) (fuel : Nat) (source : Text) :
    (∀ d, Script.read source = .error d → s.eval fuel source = (.error (.fault d), s)) ∧
    (∀ script d, Script.read source = .ok script →
      contextsAfter s.checking s.context script = .error d →
      s.eval fuel source = (.error (.fault d), s)) ∧
    ∀ script contexts halt, Script.read source = .ok script →
      contextsAfter s.checking s.context script = .ok contexts →
      (s.eval fuel source).1 = .error halt →
      ∃ k stmt lines s₀, script[k]? = some stmt ∧
        s.evalScript fuel (script.take k) = (.ok lines, s₀) ∧
        ((stmt.exec fuel programScope).startingFrom s₀.store).1 = .error halt ∧
        (s.eval fuel source).2.Indistinguishable s₀ := by
  refine ⟨fun d hread => by simp only [eval, hread], fun script d hread hcontexts => ?_, ?_⟩
  · rw [eval_eq_evalScript hread, evalScript, hcontexts]
  · intro script contexts halt hread hcontexts hhalt
    have heval : s.eval fuel source = execute fuel s (script.zip contexts) := by
      simp only [eval_eq_evalScript hread, evalScript, hcontexts]
    rw [heval] at hhalt ⊢
    rcases hresult : execute fuel s (script.zip contexts) with ⟨result, s'⟩
    obtain rfl : result = .error halt := by simpa [hresult] using hhalt
    obtain ⟨k, stmt, Δ, lines, s₀, store, hk, hbefore, hstmt, rfl⟩ := execute_error_split hresult
    rw [← evalScript_take hcontexts k] at hbefore
    have hsound : s₀.store.Sound := by
      have hafter := evalScript_sound fuel hs.sound (script.take k)
      rwa [hbefore] at hafter
    have hmaps := hsound.skip_maps (Stmt.exec_error_extends hstmt)
    refine ⟨k, stmt, lines, s₀, (List.getElem?_zip_eq_some.mp hk).1, hbefore, by rw [hstmt], ?_⟩
    exact Mirrors.indistinguishable hsound.program ⟨rfl, rfl, hmaps⟩

theorem failed_input_leaves_its_successful_part_call :
    ∃ script, Script.read (utf8 "(define f (lambda x Nat x))(define f (f 5))(print 1)") =
        .ok script ∧
      ∃ k stmt lines s₀, script[k]? = some stmt ∧
        (start true).evalScript 3 (script.take k) = (.ok lines, s₀) ∧
        ((stmt.exec 3 programScope).startingFrom s₀.store).1 =
          .error (.fault ⟨⟨28, 44⟩, .redefinition (utf8 "f")⟩) ∧
        ((start true).eval 3
          (utf8 "(define f (lambda x Nat x))(define f (f 5))(print 1)")).2.Indistinguishable s₀ := by
  have hreachable : (start true).Reachable := ⟨true, [], rfl⟩
  exact ⟨_, rfl, (failed_input_leaves_its_successful_part hreachable 3
    (utf8 "(define f (lambda x Nat x))(define f (f 5))(print 1)")).2.2 _ _ _ rfl rfl rfl⟩

end Session

end TypedSexp
