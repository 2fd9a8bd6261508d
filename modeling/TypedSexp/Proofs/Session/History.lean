import TypedSexp.Proofs.Run.Frame
import TypedSexp.Proofs.Typing.Inference
import TypedSexp.Session

namespace TypedSexp

open Store (programScope)

inductive Call where
  | eval (fuel : Nat) (source : Text)
  | typeOf (source : Text)
  | legacy (fuel : Nat) (source : Text)

structure Definition where
  context : Context
  name : Name
  value : Expr

def Stmt.definition? (Γ : Context) : Stmt → Option Definition
  | .define _ name value => some ⟨Γ, name, value⟩
  | _ => none

structure Step where
  fuel : Nat
  before : Session
  stmt : Stmt

namespace Step

def outcome (step : Step) : Except Halt (Option Text) × Store :=
  (step.stmt.exec step.fuel programScope).startingFrom step.before.store

def definition? (step : Step) : Option Definition :=
  match step.outcome with
  | (.ok _, _) => step.stmt.definition? step.before.context
  | (.error _, _) => none

end Step

namespace Session

def fresh : Session := { checking := true }

def steps (fuel : Nat) (s : Session) : List (Stmt × Context) → List Step
  | [] => []
  | (stmt, Δ) :: rest =>
      ⟨fuel, s, stmt⟩ :: match (stmt.exec fuel programScope).startingFrom s.store with
        | (.ok _, store) => steps fuel { s with store := store, context := Δ } rest
        | (.error _, _) => []

def callSteps (s : Session) : Call → List Step
  | .eval fuel source =>
      match Script.read source with
      | .error _ => []
      | .ok script =>
          match contextsAfter s.checking s.context script with
          | .error _ => []
          | .ok contexts => steps fuel s (script.zip contexts)
  | .typeOf _ => []
  | .legacy .. => []

def call (s : Session) : Call → Session
  | .eval fuel source => (s.eval fuel source).2
  | .typeOf _ => s
  | .legacy fuel source => (s.legacy fuel source).2

def after (s : Session) (calls : List Call) : Session := calls.foldl call s

def history (s : Session) : List Call → List Step
  | [] => []
  | c :: calls => s.callSteps c ++ history (s.call c) calls

def ledger (s : Session) (calls : List Call) : List Definition :=
  (s.history calls).filterMap Step.definition?

theorem after_append_singleton (s : Session) (calls : List Call) (c : Call) :
    s.after (calls ++ [c]) = (s.after calls).call c := by
  simp [after]

theorem history_append_singleton (s : Session) (calls : List Call) (c : Call) :
    s.history (calls ++ [c]) = s.history calls ++ (s.after calls).callSteps c := by
  induction calls generalizing s with
  | nil => simp [history, after]
  | cons first calls ih => simp [history, ih, after]

theorem ledger_append_singleton (s : Session) (calls : List Call) (c : Call) :
    s.ledger (calls ++ [c]) =
      s.ledger calls ++ ((s.after calls).callSteps c).filterMap Step.definition? := by
  rw [ledger, history_append_singleton, List.filterMap_append]
  rfl

inductive Checked : Context → List (Stmt × Context) → Prop
  | nil {Γ : Context} : Checked Γ []
  | cons {Γ Δ : Context} {stmt : Stmt} {rest : List (Stmt × Context)} :
      stmt.Readable → stmt.check Γ = .ok Δ → Checked Δ rest → Checked Γ ((stmt, Δ) :: rest)

theorem checked_of_contextsAfter {script : Script} {Γ : Context} {contexts : List Context}
    (hscript : ∀ stmt ∈ script, stmt.Readable) (h : contextsAfter true Γ script = .ok contexts) :
    Checked Γ (script.zip contexts) := by
  induction script generalizing Γ contexts with
  | nil => exact .nil
  | cons stmt rest ih =>
      obtain ⟨hstmt, hrest⟩ := List.forall_mem_cons.mp hscript
      simp only [contextsAfter, if_true, Except.bind_eq_ok_iff, Except.pure_eq_ok_iff] at h
      obtain ⟨Δ, hΔ, contexts, hcontexts, rfl⟩ := h
      exact .cons hstmt hΔ (ih hrest hcontexts)

structure Invariant (I : List Definition → Session → Prop) : Prop where
  checking : ∀ {made s}, I made s → s.checking = true
  frame : ∀ {made s store}, I made s → s.store.Extends store → I made { s with store := store }
  exec : ∀ {made s} {stmt : Stmt} {Δ : Context} (fuel : Nat), I made s → stmt.Readable →
    stmt.check s.context = .ok Δ →
    Run.Ensures (stmt.exec fuel programScope) s.store
      (fun _ store => I (made ++ (stmt.definition? s.context).toList)
        { s with store := store, context := Δ })
      fun _ store => I made { s with store := store }

variable {I : List Definition → Session → Prop} {made : List Definition} {s : Session}

theorem execute_cons (fuel : Nat) (s : Session) (stmt : Stmt) (Δ : Context)
    (rest : List (Stmt × Context)) :
    execute fuel s ((stmt, Δ) :: rest) =
      match (stmt.exec fuel programScope).startingFrom s.store with
      | (.error halt, store) => (.error halt, { s with store := store })
      | (.ok line, store) =>
          match execute fuel { s with store := store, context := Δ } rest with
          | (.ok more, s) => (.ok (line.toList ++ more), s)
          | (.error halt, s) => (.error halt, s) := by
  simp only [execute, Script.exec, Run.startingFrom_bind]
  rcases (stmt.exec fuel programScope).startingFrom s.store with ⟨halt | line, store⟩
  · rfl
  · rcases hrest : execute fuel { s with store := store, context := Δ } rest with ⟨_ | _, _⟩ <;>
      simp [Run.startingFrom_pure, hrest]

theorem execute_cons_of_ok {fuel : Nat} {stmt : Stmt} {line : Option Text} {store : Store}
    (h : (stmt.exec fuel programScope).startingFrom s.store = (.ok line, store)) (Δ : Context)
    (rest : List (Stmt × Context)) :
    (execute fuel s ((stmt, Δ) :: rest)).2 =
      (execute fuel { s with store := store, context := Δ } rest).2 := by
  rw [execute_cons, h]
  rcases hrest : execute fuel { s with store := store, context := Δ } rest with ⟨_ | _, _⟩ <;>
    simp [hrest]

theorem execute_error {fuel : Nat} {todo : List (Stmt × Context)} {halt : Halt}
    (h : (execute fuel s todo).1 = .error halt) :
    ∃ step ∈ steps fuel s todo, step.outcome.1 = .error halt := by
  induction todo generalizing s with
  | nil => simp [execute] at h
  | cons pair rest ih =>
      obtain ⟨stmt, Δ⟩ := pair
      rw [execute_cons] at h
      simp only [steps]
      rcases hresult : (stmt.exec fuel programScope).startingFrom s.store with ⟨halt' | line, store⟩
      · obtain rfl : halt' = halt := by simpa [hresult] using h
        exact ⟨⟨fuel, s, stmt⟩, by simp, by simp only [Step.outcome, hresult]⟩
      · simp only [hresult] at h
        have hrest : (execute fuel { s with store := store, context := Δ } rest).1 =
            .error halt := by
          rcases hexecute : execute fuel { s with store := store, context := Δ } rest
            with ⟨_ | _, _⟩
          · simpa [hexecute] using h
          · simp [hexecute] at h
        obtain ⟨step, hmem, hstep⟩ := ih hrest
        exact ⟨step, List.mem_cons_of_mem _ hmem, hstep⟩

theorem Invariant.execute (hI : Invariant I) (fuel : Nat) {Γ : Context}
    {todo : List (Stmt × Context)} (hchecked : Checked Γ todo) (h : I made s)
    (hΓ : s.context = Γ) :
    I (made ++ (steps fuel s todo).filterMap Step.definition?) (execute fuel s todo).2 := by
  induction hchecked generalizing made s with
  | nil => simpa [steps, Session.execute] using h
  | @cons Γ Δ stmt rest hstmt hcheck hrest ih =>
      subst hΓ
      have hstep := hI.exec fuel h hstmt hcheck
      simp only [steps]
      rcases hresult : (stmt.exec fuel programScope).startingFrom s.store with ⟨halt | line, store⟩
      · have hdefinition : Step.definition? ⟨fuel, s, stmt⟩ = none := by
          simp only [Step.definition?, Step.outcome, hresult]
        simpa [hdefinition, execute_cons, hresult] using hstep.of_error hresult
      · have hdefinition : Step.definition? ⟨fuel, s, stmt⟩ = stmt.definition? s.context := by
          simp only [Step.definition?, Step.outcome, hresult]
        have hnext := ih (hstep.of_ok hresult) rfl
        rw [execute_cons_of_ok hresult]
        cases hstmt' : stmt.definition? s.context with
        | none => simpa [hdefinition, hstmt'] using hnext
        | some d => simpa [hdefinition, hstmt'] using hnext

theorem Invariant.steps (hI : Invariant I) (fuel : Nat) {Γ : Context}
    {todo : List (Stmt × Context)} (hchecked : Checked Γ todo) (h : I made s)
    (hΓ : s.context = Γ) {step : Step} (hmem : step ∈ steps fuel s todo) :
    step.stmt.Readable ∧ (∃ Δ, step.stmt.check step.before.context = .ok Δ) ∧
      ∃ made', made' ⊆ made ++ (Session.steps fuel s todo).filterMap Step.definition? ∧
        I made' step.before := by
  induction hchecked generalizing made s with
  | nil => simp [Session.steps] at hmem
  | @cons Γ Δ stmt rest hstmt hcheck hrest ih =>
      subst hΓ
      have hstep := hI.exec fuel h hstmt hcheck
      simp only [Session.steps] at hmem ⊢
      rcases List.mem_cons.mp hmem with rfl | hmem
      · exact ⟨hstmt, ⟨Δ, hcheck⟩, made, List.subset_append_left _ _, h⟩
      · rcases hresult : (stmt.exec fuel programScope).startingFrom s.store
          with ⟨halt | line, store⟩
        · simp [hresult] at hmem
        · simp only [hresult] at hmem
          obtain ⟨hreadable, hchecks, made', hsub, hmade⟩ := ih (hstep.of_ok hresult) rfl hmem
          refine ⟨hreadable, hchecks, made', ?_, hmade⟩
          have hdefinition : Step.definition? ⟨fuel, s, stmt⟩ = stmt.definition? s.context := by
            simp only [Step.definition?, Step.outcome, hresult]
          cases hstmt' : stmt.definition? s.context with
          | none => simpa [hdefinition, hstmt'] using hsub
          | some d => simpa [hdefinition, hstmt'] using hsub

theorem eval_cases (hs : s.checking = true) (fuel : Nat) (source : Text) :
    (∃ d, s.eval fuel source = (.error (.fault d), s) ∧
      s.callSteps (.eval fuel source) = [] ∧
      (Script.read source = .error d ∨ ∃ script, Script.read source = .ok script ∧
        contextsAfter true s.context script = .error d)) ∨
    ∃ todo, Checked s.context todo ∧ s.eval fuel source = execute fuel s todo ∧
      s.callSteps (.eval fuel source) = steps fuel s todo := by
  simp only [eval, callSteps, hs]
  cases hread : Script.read source with
  | error d => exact .inl ⟨d, rfl, rfl, .inl rfl⟩
  | ok script =>
      cases hcontexts : contextsAfter true s.context script with
      | error d =>
          exact .inl ⟨d, by simp only [hcontexts], by simp only [hcontexts],
            .inr ⟨script, rfl, hcontexts⟩⟩
      | ok contexts =>
          have hreadable := (Script.read_ensures source).of_ok hread
          exact .inr ⟨script.zip contexts, checked_of_contextsAfter hreadable hcontexts,
            by simp only [hcontexts], by simp only [hcontexts]⟩

theorem legacy_frame (s : Session) (fuel : Nat) (source : Text) :
    ∃ store, (s.legacy fuel source).2 = { s with store := store } ∧ s.store.Extends store := by
  unfold legacy
  split
  · exact ⟨s.store, rfl, .refl _⟩
  case h_2 e _ =>
    split
    · exact ⟨s.store, rfl, .refl _⟩
    · have hkeeps := e.eval_keeps fuel programScope s.store
      split
      case h_1 v store hresult => exact ⟨store, rfl, hkeeps.of_ok hresult⟩
      case h_2 halt store hresult => exact ⟨store, rfl, hkeeps.of_error hresult⟩

theorem Invariant.call (hI : Invariant I) (h : I made s) (c : Call) :
    I (made ++ (s.callSteps c).filterMap Step.definition?) (s.call c) := by
  cases c with
  | eval fuel source =>
      rcases eval_cases (hI.checking h) fuel source with
        ⟨d, heval, hsteps, -⟩ | ⟨todo, hchecked, heval, hsteps⟩
      · simpa [Session.call, heval, hsteps] using h
      · simpa [Session.call, heval, hsteps] using hI.execute fuel hchecked h rfl
  | typeOf source => simpa [Session.call, callSteps] using h
  | legacy fuel source =>
      obtain ⟨store, hlegacy, hstore⟩ := s.legacy_frame fuel source
      simpa [Session.call, callSteps, hlegacy] using hI.frame h hstore

theorem Invariant.after (hI : Invariant I) (h : I [] s) (calls : List Call) :
    I (s.ledger calls) (s.after calls) := by
  have hgeneral (made : List Definition) (s : Session) (h : I made s) :
      I (made ++ s.ledger calls) (s.after calls) := by
    induction calls generalizing made s with
    | nil => simpa [ledger, history, Session.after] using h
    | cons c calls ih =>
        have hnext := ih _ _ (hI.call h c)
        simpa [ledger, history, Session.after, List.filterMap_append] using hnext
  simpa using hgeneral [] s h

end Session

end TypedSexp
