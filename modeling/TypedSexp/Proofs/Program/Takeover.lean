import TypedSexp.Program
import TypedSexp.Proofs.Typing.Statements

/-!
What can stop a checked program. A function looks its names up when it is called, so a definition
that takes over the name of a primitive at another type changes the functions made before it. Such
a takeover is the only way in which a checked program goes wrong.
-/

namespace TypedSexp

open Store (programScope)

namespace Script

variable {fuel scope : Nat} {s s' : Store} {stmt : Stmt} {before rest : Script} {Γ Δ : Context}

theorem check_cons_ok (h : check Γ (stmt :: rest) = (Δ, .ok ())) :
    ∃ Θ, stmt.check Γ = .ok Θ ∧ check Θ rest = (Δ, .ok ()) := by
  unfold check at h
  split at h
  case h_1 Θ hΘ => exact ⟨Θ, hΘ, h⟩
  case h_2 => simp at h

theorem check_append_singleton (hbefore : check Γ before = (Δ, .ok ())) {Θ : Context}
    (hstmt : stmt.check Δ = .ok Θ) : check Γ (before ++ [stmt]) = (Θ, .ok ()) := by
  induction before generalizing Γ with
  | nil =>
      cases hbefore
      simp [check, hstmt]
  | cons first before ih =>
      obtain ⟨Γ', hfirst, hbefore⟩ := check_cons_ok hbefore
      simpa [check, hfirst] using ih hbefore

theorem exec_append (fuel scope : Nat) (first second : Script) :
    exec fuel scope (first ++ second) = do
      let lines ← exec fuel scope first
      let more ← exec fuel scope second
      return lines ++ more := by
  induction first with
  | nil => simp [exec]
  | cons stmt first ih =>
      simp only [List.cons_append, exec, ih, bind_assoc, pure_bind, List.append_assoc]

theorem exec_append_singleton {lines : List Text} {line : Option Text} {s₀ : Store}
    (hbefore : (exec fuel scope before).startingFrom s₀ = (.ok lines, s))
    (hstmt : (stmt.exec fuel scope).startingFrom s = (.ok line, s')) :
    ∃ more, (exec fuel scope (before ++ [stmt])).startingFrom s₀ = (.ok more, s') := by
  simp only [exec_append, exec, Run.startingFrom_bind, hbefore, hstmt]
  exact ⟨_, rfl⟩

/-- The run executes a definition that gives the name of the primitive another type, when a function
that may use the primitive has been made already or is its very value. -/
def TakesOver (fuel : Nat) (script : Script) (p : Primitive) : Prop :=
  ∃ before range value after Γ t lines s,
    script = before ++ .define range p.name value :: after ∧
    check Context.initial before = (Γ, .ok ()) ∧ value.infer Γ = .ok t ∧ t ≠ p.signature ∧
    (exec fuel programScope (before ++ [.define range p.name value])).startingFrom Store.initial =
      (.ok lines, s) ∧
    ∃ stmt ∈ before ++ [.define range p.name value], stmt.captures p.name = true

def captured (script : Script) (x : Name) : Bool := script.any (Stmt.captures x)

theorem captured_append_singleton (before : Script) (stmt : Stmt) :
    captured (before ++ [stmt]) = fun x => captured before x || stmt.captures x := by
  funext x
  simp [captured]

theorem harmless_of_not_takesOver {lines : List Text} {t : Ty} {name : Name} {value : Expr}
    {range : Range} (hcheck : check Context.initial before = (Γ, .ok ()))
    (ht : value.infer Γ = .ok t)
    (hexec : (exec fuel programScope (before ++ [.define range name value])).startingFrom
      Store.initial = (.ok lines, s))
    (h : ∀ p, ¬TakesOver fuel (before ++ .define range name value :: rest) p) :
    Stmt.Harmless (captured (before ++ [.define range name value])) Γ
      (.define range name value) := by
  intro p hname hcaptured
  subst hname
  by_cases hsame : t = p.signature
  · rw [ht, hsame]
  · obtain ⟨stmt, hmem, hstmt⟩ := List.any_eq_true.mp hcaptured
    exact absurd
      ⟨before, range, value, rest, Γ, t, lines, s, rfl, hcheck, ht, hsame, hexec, stmt, hmem, hstmt⟩
      (h p)

theorem exec_expected {lines : List Text} {W : Typing} (hbefore :
      (exec fuel programScope before).startingFrom Store.initial = (.ok lines, s))
    (hcheck : check Context.initial before = (Γ, .ok ()))
    (hagrees : s.Agrees (captured before) W Γ) (hrest : ∀ stmt ∈ rest, stmt.Readable)
    (hcheckRest : check Γ rest = (Δ, .ok ()))
    (hsafe : ∀ p, ¬TakesOver fuel (before ++ rest) p) :
    Run.Ensures (exec fuel programScope rest) s (fun _ _ => True) fun halt _ => halt.IsExpected := by
  induction rest generalizing before s Γ lines W with
  | nil => exact trivial
  | cons stmt rest ih =>
      obtain ⟨hstmt, hrest⟩ := List.forall_mem_cons.mp hrest
      obtain ⟨Θ, hΘ, hcheckRest⟩ := check_cons_ok hcheckRest
      have hstep := stmt.exec_agrees fuel hagrees hstmt hΘ
      simp only [exec, Run.ensures_bind, Run.ensures_pure]
      unfold Run.Ensures
      rcases hresult : (stmt.exec fuel programScope).startingFrom s with ⟨halt | line, s'⟩
      · exact (hstep.of_error hresult).1
      · obtain ⟨more, hbefore'⟩ := exec_append_singleton hbefore hresult
        have hharmless : stmt.Harmless (captured (before ++ [stmt])) Γ := by
          cases stmt with
          | define range name value =>
              obtain ⟨t, ht, -⟩ := Stmt.check_define_ok hΘ
              exact harmless_of_not_takesOver hcheck ht hbefore' hsafe
          | assign => trivial
          | print => trivial
        rw [captured_append_singleton] at hharmless
        obtain ⟨W', -, hagrees'⟩ := hstep.of_ok hresult hharmless
        rw [← captured_append_singleton] at hagrees'
        refine (ih hbefore' (check_append_singleton hcheck hΘ) hagrees' hrest hcheckRest ?_).imp
          fun _ _ _ => trivial
        simpa using hsafe

end Script

namespace Program

theorem check_of_declare {script : Script} {Γ : Context} {declarations : List (Name × Ty)}
    (h : declare Γ script = .ok declarations) : ∃ Δ, script.check Γ = (Δ, .ok ()) := by
  induction script generalizing Γ declarations with
  | nil => exact ⟨Γ, rfl⟩
  | cons stmt rest ih =>
      simp only [declare, Except.bind_eq_ok_iff] at h
      obtain ⟨Δ, hΔ, _, hrest, -⟩ := h
      obtain ⟨Θ, hΘ⟩ := ih hrest
      exact ⟨Θ, by simp [Script.check, hΔ, hΘ]⟩

theorem compile_ok {name source : Text} {p : Program} (h : compile name source true = .ok p) :
    (∀ stmt ∈ p.script, stmt.Readable) ∧ ∃ Δ, p.script.check Context.initial = (Δ, .ok ()) := by
  simp only [compile, Except.bind_eq_ok_iff, if_true, Except.pure_eq_ok_iff] at h
  obtain ⟨script, hread, declarations, hdeclare, rfl⟩ := h
  exact ⟨(Script.read_ensures source).of_ok hread, check_of_declare hdeclare⟩

theorem fault_of_checked {name source : Text} {p : Program} {fuel : Nat} {d : Diagnostic}
    (hcompile : compile name source true = .ok p) (hrun : p.run fuel = .error (.fault d)) :
    (∃ x, d.cause = .redefinition x) ∨ d.IsOverflow ∨ ∃ q, p.script.TakesOver fuel q := by
  obtain ⟨hreadable, Δ, hcheck⟩ := compile_ok hcompile
  by_cases hsafe : ∃ q, p.script.TakesOver fuel q
  · exact .inr (.inr hsafe)
  · obtain ⟨W, hagrees⟩ := Store.initial_agrees (Script.captured [])
    have hstart : (Script.exec fuel programScope []).startingFrom Store.initial =
        (.ok [], Store.initial) := rfl
    have hexec := Script.exec_expected hstart rfl hagrees hreadable hcheck
      fun q hq => hsafe ⟨q, hq⟩
    have hresult : (p.script.exec fuel programScope).startingFrom Store.initial =
        (.error (.fault d), ((p.script.exec fuel programScope).startingFrom Store.initial).2) := by
      rw [← hrun]
      rfl
    cases hexec.of_error hresult with
    | benign hbenign =>
        cases hbenign with
        | overflow hoverflow => exact .inr (.inl hoverflow)
    | redefinition => exact .inl ⟨_, rfl⟩

theorem fault_of_checked_overflow :
    ∃ p d, compile [] (utf8 "(print (+ 18446744073709551615 1))") true = .ok p ∧
      p.run 3 = .error (.fault d) ∧
      ((∃ x, d.cause = .redefinition x) ∨ d.IsOverflow ∨ ∃ q, p.script.TakesOver 3 q) :=
  ⟨_, _, rfl, rfl, @fault_of_checked [] (utf8 "(print (+ 18446744073709551615 1))") _ 3 _ rfl rfl⟩

theorem checked_program_misuses_primitive :
    ∃ p d, compile [] (utf8 "(define f (lambda x Nat (+ x 1)))(define + &&)(print (f 1))") true =
        .ok p ∧
      p.run 4 = .error (.fault d) ∧ (∀ x, d.cause ≠ .redefinition x) ∧ ¬d.IsOverflow := by
  refine ⟨_, _, rfl, rfl, by simp, ?_⟩
  rintro ⟨q, a, b, -, hcause⟩
  simp at hcause

end Program

end TypedSexp
