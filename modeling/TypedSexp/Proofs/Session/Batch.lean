import TypedSexp.Proofs.Expr.Relocate
import TypedSexp.Proofs.Program.Takeover
import TypedSexp.Proofs.Run.Fuel
import TypedSexp.Proofs.Session.Recovery

/-!
Programs run whole and in parts. A session that is given a source as one input does what the program
of that source does. Two inputs one after the other succeed when the program of both does, and write
the same lines. The program has the second input further down, so this rests on runs not looking at
places.
-/

namespace TypedSexp

open Store (programScope)

namespace Relabeling

def unplaced : Relabeling where
  scope := id
  place _ := Range.none
  type := id
  scope_lt h := h
  place_none := rfl

theorem unplaced_maps (s : Store) :
    unplaced.Maps s ⟨s.scopes.map (Scope.relabel unplaced)⟩ where
  size k := by simp [unplaced, Store.size]
  scope? id := by simp [unplaced, Store.scope?]

end Relabeling

open Relabeling (unplaced unplaced_maps)

theorem Script.exec_relabel_ok_iff (f : Range → Range) (fuel : Nat) (script : Script) (s : Store)
    (lines : List Text) :
    ((Script.exec fuel programScope (script.map (Stmt.relabel f id))).startingFrom s).1 =
        .ok lines ↔
      ((script.exec fuel programScope).startingFrom s).1 = .ok lines := by
  have hunplaced (script : Script) :
      ((script.exec fuel programScope).startingFrom s).1 = .ok lines ↔
        ((Script.exec fuel programScope
          (script.map (Stmt.relabel (fun _ => Range.none) id))).startingFrom
            ⟨s.scopes.map (Scope.relabel unplaced)⟩).1 = .ok lines := by
    have hmirrors := script.exec_mirrors (g := unplaced) rfl fuel programScope (unplaced_maps s)
    rcases hresult : (script.exec fuel programScope).startingFrom s with ⟨halt | result, s'⟩
    · obtain ⟨t, ht, -⟩ := hmirrors.of_error hresult
      change (Script.exec fuel programScope
        (script.map (Stmt.relabel (fun _ => Range.none) id))).startingFrom _ = _ at ht
      simp [ht]
    · obtain ⟨t, ht, -⟩ := hmirrors.of_ok hresult
      change (Script.exec fuel programScope
        (script.map (Stmt.relabel (fun _ => Range.none) id))).startingFrom _ = _ at ht
      simp [ht]
  have hforget : Stmt.relabel (fun _ => Range.none) id ∘ Stmt.relabel f id =
      Stmt.relabel (fun _ => Range.none) id := funext fun stmt => stmt.relabel_relabel f _
  rw [hunplaced script, hunplaced, List.map_map, hforget]

theorem Script.read_line_ok_iff {first : Text} {ss : List Sexp}
    (hfirst : Sexp.readAll first = .ok ss) (second : Text) (script : Script) :
    Script.read (first ++ Byte.newline :: second) = .ok script ↔
      ∃ before after, Script.read first = .ok before ∧ Script.read second = .ok after ∧
        script = before ++ after.map (Stmt.relabel (Range.shift (first.length + 1 : Nat)) id) := by
  have hofSexps (ss others : List Sexp) : Script.ofSexps (ss ++ others) = do
      let before ← Script.ofSexps ss
      let after ← Script.ofSexps others
      return before ++ after := by
    induction ss with
    | nil =>
        rw [List.nil_append]
        cases hothers : Script.ofSexps others <;> rfl
    | cons s rest ih => simp [Script.ofSexps, ih]
  simp only [Script.read, hfirst, Sexp.readAll_line hfirst, Except.bind_eq_ok_iff,
    Except.relocate_eq_ok_iff, Except.ok.injEq]
  constructor
  · rintro ⟨_, ⟨others, hothers, rfl⟩, hscript⟩
    rw [hofSexps, Script.ofSexps_relocate] at hscript
    simp only [Except.bind_eq_ok_iff, Except.relocate_eq_ok_iff, Except.pure_eq_ok_iff] at hscript
    obtain ⟨before, hbefore, _, ⟨after, hafter, rfl⟩, rfl⟩ := hscript
    exact ⟨before, after, ⟨ss, rfl, hbefore⟩, ⟨others, hothers, hafter⟩, rfl⟩
  · rintro ⟨before, after, ⟨_, rfl, hbefore⟩, ⟨others, hothers, hafter⟩, rfl⟩
    refine ⟨_, ⟨others, hothers, rfl⟩, ?_⟩
    rw [hofSexps, Script.ofSexps_relocate, hbefore, hafter]
    rfl

namespace Session

variable {s s' : Session} {fuel : Nat} {lines : List Text}

theorem execute_eq_exec (fuel : Nat) (s : Session) (todo : List (Stmt × Context)) :
    (execute fuel s todo).1 =
      ((Script.exec fuel programScope (todo.map Prod.fst)).startingFrom s.store).1 := by
  induction todo generalizing s with
  | nil => rfl
  | cons pair rest ih =>
      obtain ⟨stmt, Δ⟩ := pair
      simp only [execute_cons, List.map_cons, Script.exec, Run.startingFrom_bind]
      rcases (stmt.exec fuel programScope).startingFrom s.store with ⟨halt | line, store⟩
      · rfl
      · have ih := ih { s with store := store, context := Δ }
        simp only at ih ⊢
        rcases hrest : execute fuel { s with store := store, context := Δ } rest with ⟨_ | _, _⟩ <;>
          rcases hexec : (Script.exec fuel programScope (rest.map Prod.fst)).startingFrom store
            with ⟨_ | _, _⟩ <;>
          simp_all [Run.startingFrom_pure]

theorem execute_eq_of_exec {todo : List (Stmt × Context)} {store : Store}
    (h : (Script.exec fuel programScope (todo.map Prod.fst)).startingFrom s.store =
      (.ok lines, store)) :
    execute fuel s todo =
      (.ok lines, { s with
        store := store, context := (todo.map Prod.snd).getLastD s.context }) := by
  induction todo generalizing s lines with
  | nil =>
      cases h
      rfl
  | cons pair rest ih =>
      obtain ⟨stmt, Δ⟩ := pair
      simp only [List.map_cons, Script.exec, Run.startingFrom_bind] at h
      rcases hstmt : (stmt.exec fuel programScope).startingFrom s.store with ⟨halt | line, store₁⟩
      · simp [hstmt] at h
      · rcases hrest : (Script.exec fuel programScope (rest.map Prod.fst)).startingFrom store₁
          with ⟨halt | more, store₂⟩
        · simp [hstmt, hrest] at h
        · simp only [hstmt, hrest, Run.startingFrom_pure, Prod.mk.injEq, Except.ok.injEq] at h
          obtain ⟨rfl, rfl⟩ := h
          rw [execute_cons, hstmt]
          simp only [ih (s := { s with store := store₁, context := Δ }) hrest, List.map_cons,
            List.getLastD_cons]

theorem length_contextsAfter {checking : Bool} {Γ : Context} {script : Script}
    {contexts : List Context} (h : contextsAfter checking Γ script = .ok contexts) :
    contexts.length = script.length := by
  induction script generalizing Γ contexts with
  | nil =>
      cases h
      rfl
  | cons stmt rest ih =>
      obtain ⟨Δ, others, -, hothers, rfl⟩ := contextsAfter_cons_ok.mp h
      simp [ih hothers]

theorem contextsAfter_append_ok {checking : Bool} {Γ : Context} {before after : Script}
    {contexts : List Context} :
    contextsAfter checking Γ (before ++ after) = .ok contexts ↔
      ∃ contexts₁ contexts₂, contextsAfter checking Γ before = .ok contexts₁ ∧
        contextsAfter checking (contexts₁.getLastD Γ) after = .ok contexts₂ ∧
        contexts = contexts₁ ++ contexts₂ := by
  induction before generalizing Γ contexts with
  | nil => simp [contextsAfter]
  | cons stmt rest ih =>
      simp only [List.cons_append, contextsAfter_cons_ok, ih]
      constructor
      · rintro ⟨Δ, _, hΔ, ⟨contexts₁, contexts₂, h₁, h₂, rfl⟩, rfl⟩
        exact ⟨Δ :: contexts₁, contexts₂, ⟨Δ, contexts₁, hΔ, h₁, rfl⟩,
          by rwa [List.getLastD_cons], rfl⟩
      · rintro ⟨_, contexts₂, ⟨Δ, contexts₁, hΔ, h₁, rfl⟩, h₂, rfl⟩
        rw [List.getLastD_cons] at h₂
        exact ⟨Δ, contexts₁ ++ contexts₂, hΔ, ⟨contexts₁, contexts₂, h₁, h₂, rfl⟩, rfl⟩

theorem contextsAfter_relabel (f : Range → Range) (checking : Bool) (Γ : Context)
    (script : Script) :
    contextsAfter checking Γ (script.map (Stmt.relabel f id)) =
      (contextsAfter checking Γ script).relocate f id := by
  induction script generalizing Γ with
  | nil => rfl
  | cons stmt rest ih =>
      simp only [List.map_cons, contextsAfter, ih]
      cases checking with
      | true =>
          simp only [if_true, Stmt.check_relabel]
          exact Except.relocate_bind fun Δ => Except.relocate_bind fun contexts => rfl
      | false => exact Except.relocate_bind fun contexts => rfl

theorem evalScript_fst (script : Script) :
    (s.evalScript fuel script).1 =
      match contextsAfter s.checking s.context script with
      | .error d => .error (.fault d)
      | .ok _ => ((script.exec fuel programScope).startingFrom s.store).1 := by
  unfold evalScript
  cases hcontexts : contextsAfter s.checking s.context script with
  | error d => rfl
  | ok contexts =>
      have hlength := length_contextsAfter hcontexts
      have hfst : (script.zip contexts).map Prod.fst = script := List.map_fst_zip (by omega)
      rw [execute_eq_exec, hfst]

theorem evalScript_fst_ok_iff {script : Script} :
    (s.evalScript fuel script).1 = .ok lines ↔
      (∃ contexts, contextsAfter s.checking s.context script = .ok contexts) ∧
        ((script.exec fuel programScope).startingFrom s.store).1 = .ok lines := by
  rw [evalScript_fst]
  cases contextsAfter s.checking s.context script <;> simp

theorem evalScript_ok_iff {script : Script} :
    s.evalScript fuel script = (.ok lines, s') ↔
      ∃ contexts store, contextsAfter s.checking s.context script = .ok contexts ∧
        (script.exec fuel programScope).startingFrom s.store = (.ok lines, store) ∧
        s' = { s with store := store, context := contexts.getLastD s.context } := by
  have hok {contexts : List Context} {store : Store}
      (hcontexts : contextsAfter s.checking s.context script = .ok contexts)
      (hexec : (script.exec fuel programScope).startingFrom s.store = (.ok lines, store)) :
      s.evalScript fuel script =
        (.ok lines, { s with store := store, context := contexts.getLastD s.context }) := by
    have hlength := length_contextsAfter hcontexts
    have hfst : (script.zip contexts).map Prod.fst = script := List.map_fst_zip (by omega)
    have hsnd : (script.zip contexts).map Prod.snd = contexts := List.map_snd_zip (by omega)
    rw [← hfst] at hexec
    have hexecute := execute_eq_of_exec hexec
    rw [hsnd] at hexecute
    simp only [evalScript, hcontexts, hexecute]
  constructor
  · intro h
    obtain ⟨⟨contexts, hcontexts⟩, hexec⟩ := evalScript_fst_ok_iff.mp (congrArg Prod.fst h)
    have hexec : (script.exec fuel programScope).startingFrom s.store =
      (.ok lines, ((script.exec fuel programScope).startingFrom s.store).2) := Prod.ext hexec rfl
    rw [hok hcontexts hexec] at h
    exact ⟨contexts, _, hcontexts, hexec, (congrArg Prod.snd h).symm⟩
  · rintro ⟨contexts, store, hcontexts, hexec, rfl⟩
    exact hok hcontexts hexec

theorem evalScript_relabel_ok_iff (f : Range → Range) {script : Script} :
    (s.evalScript fuel (script.map (Stmt.relabel f id))).1 = .ok lines ↔
      (s.evalScript fuel script).1 = .ok lines := by
  simp only [evalScript_fst_ok_iff, contextsAfter_relabel, Except.relocate_eq_ok_iff,
    Script.exec_relabel_ok_iff]
  simp

theorem evalScript_append_ok_iff {before after : Script} :
    (s.evalScript fuel (before ++ after)).1 = .ok lines ↔
      ∃ lines₁ lines₂ s', s.evalScript fuel before = (.ok lines₁, s') ∧
        (s'.evalScript fuel after).1 = .ok lines₂ ∧ lines = lines₁ ++ lines₂ := by
  simp only [evalScript_fst_ok_iff, evalScript_ok_iff, contextsAfter_append_ok, Script.exec_append,
    Run.startingFrom_bind]
  constructor
  · rintro ⟨⟨_, contexts₁, contexts₂, h₁, h₂, rfl⟩, hexec⟩
    rcases hbefore : (Script.exec fuel programScope before).startingFrom s.store
      with ⟨halt | lines₁, store⟩
    · simp [hbefore] at hexec
    · rcases hafter : (Script.exec fuel programScope after).startingFrom store
        with ⟨halt | lines₂, store'⟩
      · simp [hbefore, hafter] at hexec
      · obtain rfl : lines₁ ++ lines₂ = lines := by
          simpa [hbefore, hafter, Run.startingFrom_pure] using hexec
        exact ⟨lines₁, lines₂, _, ⟨contexts₁, store, h₁, rfl, rfl⟩,
          ⟨⟨contexts₂, h₂⟩, by rw [hafter]⟩, rfl⟩
  · rintro ⟨lines₁, lines₂, _, ⟨contexts₁, store, h₁, hbefore, rfl⟩, ⟨⟨contexts₂, h₂⟩, hafter⟩, rfl⟩
    refine ⟨⟨_, contexts₁, contexts₂, h₁, h₂, rfl⟩, ?_⟩
    rcases hresult : (Script.exec fuel programScope after).startingFrom store with ⟨result, store'⟩
    obtain rfl : result = .ok lines₂ := by simpa [hresult] using hafter
    simp only [hbefore, hresult, Run.startingFrom_pure]

theorem evalScript_more_fuel {script : Script} (h : s.evalScript fuel script = (.ok lines, s'))
    {more : Nat} (hle : fuel ≤ more) : s.evalScript more script = (.ok lines, s') := by
  obtain ⟨contexts, store, hcontexts, hexec, rfl⟩ := evalScript_ok_iff.mp h
  have hmore := (script.exec_below hle programScope s.store).eq_of_ne hexec (by simp)
  exact evalScript_ok_iff.mpr ⟨contexts, store, hcontexts, hmore, rfl⟩

theorem eval_ok_iff {source : Text} :
    s.eval fuel source = (.ok lines, s') ↔
      ∃ script, Script.read source = .ok script ∧ s.evalScript fuel script = (.ok lines, s') := by
  cases hread : Script.read source with
  | error d => simp [eval, hread]
  | ok script => simp [eval_eq_evalScript hread]

theorem eval_fst_ok_iff {source : Text} :
    (s.eval fuel source).1 = .ok lines ↔
      ∃ script, Script.read source = .ok script ∧ (s.evalScript fuel script).1 = .ok lines := by
  cases hread : Script.read source with
  | error d => simp [eval, hread]
  | ok script => simp [eval_eq_evalScript hread]

theorem eval_more_fuel {source : Text} (h : s.eval fuel source = (.ok lines, s')) {more : Nat}
    (hle : fuel ≤ more) : s.eval more source = (.ok lines, s') := by
  obtain ⟨script, hread, hscript⟩ := eval_ok_iff.mp h
  exact eval_ok_iff.mpr ⟨script, hread, evalScript_more_fuel hscript hle⟩

theorem eval_line_ok_iff {first : Text} {ss : List Sexp} (hfirst : Sexp.readAll first = .ok ss)
    (second : Text) :
    (s.eval fuel (first ++ Byte.newline :: second)).1 = .ok lines ↔
      ∃ lines₁ lines₂ s', s.eval fuel first = (.ok lines₁, s') ∧
        (s'.eval fuel second).1 = .ok lines₂ ∧ lines = lines₁ ++ lines₂ := by
  simp only [eval_fst_ok_iff, eval_ok_iff, Script.read_line_ok_iff hfirst]
  constructor
  · rintro ⟨_, ⟨before, after, hbefore, hafter, rfl⟩, hscript⟩
    obtain ⟨lines₁, lines₂, s', h₁, h₂, rfl⟩ := evalScript_append_ok_iff.mp hscript
    rw [evalScript_relabel_ok_iff] at h₂
    exact ⟨lines₁, lines₂, s', ⟨before, hbefore, h₁⟩, ⟨after, hafter, h₂⟩, rfl⟩
  · rintro ⟨lines₁, lines₂, s', ⟨before, hbefore, h₁⟩, ⟨after, hafter, h₂⟩, rfl⟩
    refine ⟨_, ⟨before, after, hbefore, hafter, rfl⟩, evalScript_append_ok_iff.mpr ?_⟩
    exact ⟨lines₁, lines₂, s', h₁, (evalScript_relabel_ok_iff _).mpr h₂, rfl⟩

theorem declare_error_iff {Γ : Context} {script : Script} {d : Diagnostic} :
    Program.declare Γ script = .error d ↔ contextsAfter true Γ script = .error d := by
  induction script generalizing Γ with
  | nil => simp [Program.declare, contextsAfter]
  | cons stmt rest ih =>
      simp only [Program.declare, contextsAfter, if_true]
      cases stmt.check Γ with
      | error d' =>
          change Except.error d' = Except.error d ↔ Except.error d' = Except.error d
          simp only [Except.error.injEq]
      | ok Δ =>
          change Program.declare Δ rest >>= _ = _ ↔ contextsAfter true Δ rest >>= _ = _
          refine (Except.bind_eq_error_iff fun declarations => ?_).trans
            (ih.trans (Except.bind_eq_error_iff fun contexts => ?_).symm)
          · cases stmt <;> exact ⟨_, rfl⟩
          · exact ⟨_, rfl⟩

theorem contextsAfter_unchecked (Γ : Context) (script : Script) :
    ∃ contexts, contextsAfter false Γ script = .ok contexts := by
  induction script with
  | nil => exact ⟨[], rfl⟩
  | cons stmt rest ih =>
      obtain ⟨contexts, hcontexts⟩ := ih
      exact ⟨Γ :: contexts, contextsAfter_cons_ok.mpr ⟨Γ, contexts, rfl, hcontexts, rfl⟩⟩

theorem compile_agrees (name : Text) {source : Text} {script : Script}
    (hread : Script.read source = .ok script) (checking : Bool) :
    (contextsAfter checking Context.initial script).Ensures
      (fun _ => ∃ declarations, Program.compile name source checking =
        .ok ⟨name, source, script, checking, declarations⟩)
      fun d => Program.compile name source checking = .error d := by
  cases checking with
  | false =>
      obtain ⟨contexts, hcontexts⟩ := contextsAfter_unchecked Context.initial script
      rw [hcontexts]
      exact ⟨[], by simp only [Program.compile, hread]; rfl⟩
  | true =>
      have hcompile : Program.compile name source true =
          (Program.declare Context.initial script >>= fun declarations =>
            .ok ⟨name, source, script, true, declarations⟩) := by
        simp only [Program.compile, hread]
        rfl
      cases hcontexts : contextsAfter true Context.initial script with
      | error d =>
          rw [declare_error_iff.mpr hcontexts] at hcompile
          exact hcompile
      | ok contexts =>
          cases hdeclare : Program.declare Context.initial script with
          | error d => simp [declare_error_iff.mp hdeclare] at hcontexts
          | ok declarations =>
              rw [hdeclare] at hcompile
              exact ⟨declarations, hcompile⟩

theorem interpret_eq_eval (fuel : Nat) (source : Text) (checking : Bool) :
    Program.interpret fuel source checking = ((start checking).eval fuel source).1 := by
  cases hread : Script.read source with
  | error d =>
      have hcompile : Program.compile [] source checking = .error d := by
        simp only [Program.compile, hread]
        rfl
      simp only [Program.interpret, hcompile, eval, hread]
  | ok script =>
      have hcompile := compile_agrees [] hread checking
      rw [eval_eq_evalScript hread, evalScript_fst]
      simp only [start]
      cases hcontexts : contextsAfter checking Context.initial script with
      | error d => simp only [Program.interpret, hcompile.of_error hcontexts]
      | ok contexts =>
          obtain ⟨declarations, hprogram⟩ := hcompile.of_ok hcontexts
          simp only [Program.interpret, hprogram, Program.run]

theorem batch_agrees_with_session (checking : Bool) :
    (∀ fuel source,
      Program.interpret fuel source checking = ((start checking).eval fuel source).1) ∧
    ∀ first second ss, Sexp.readAll first = .ok ss → ∀ lines,
      (∃ fuel, Program.interpret fuel (first ++ Byte.newline :: second) checking = .ok lines) ↔
        ∃ fuel₁ fuel₂ lines₁ lines₂ s, (start checking).eval fuel₁ first = (.ok lines₁, s) ∧
          (s.eval fuel₂ second).1 = .ok lines₂ ∧ lines = lines₁ ++ lines₂ := by
  refine ⟨fun fuel source => interpret_eq_eval fuel source checking, ?_⟩
  intro first second ss hfirst lines
  constructor
  · rintro ⟨fuel, hinterpret⟩
    rw [interpret_eq_eval] at hinterpret
    obtain ⟨lines₁, lines₂, s, h₁, h₂, hlines⟩ := (eval_line_ok_iff hfirst second).mp hinterpret
    exact ⟨fuel, fuel, lines₁, lines₂, s, h₁, h₂, hlines⟩
  · rintro ⟨fuel₁, fuel₂, lines₁, lines₂, s, h₁, h₂, rfl⟩
    refine ⟨max fuel₁ fuel₂, ?_⟩
    rw [interpret_eq_eval]
    have h₁ := eval_more_fuel h₁ (Nat.le_max_left fuel₁ fuel₂)
    have h₂ := eval_more_fuel (Prod.ext h₂ rfl) (Nat.le_max_right fuel₁ fuel₂)
    exact (eval_line_ok_iff hfirst second).mpr ⟨lines₁, lines₂, s, h₁, congrArg Prod.fst h₂, rfl⟩

theorem batch_agrees_with_session_definition :
    ∃ fuel, Program.interpret fuel (utf8 "(define x 2) ; two" ++ Byte.newline ::
      utf8 "(print (+ x 1))") true = .ok [utf8 "3"] := by
  have hread : ∃ ss, Sexp.readAll (utf8 "(define x 2) ; two") = .ok ss := ⟨_, rfl⟩
  obtain ⟨ss, hread⟩ := hread
  exact ((batch_agrees_with_session true).2 (utf8 "(define x 2) ; two") (utf8 "(print (+ x 1))") ss
    hread [utf8 "3"]).mpr ⟨2, 2, [], [utf8 "3"], _, rfl, rfl, rfl⟩

end Session

end TypedSexp
