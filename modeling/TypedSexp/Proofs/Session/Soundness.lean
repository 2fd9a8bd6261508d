import TypedSexp.Proofs.Session.Ledger
import TypedSexp.Proofs.Typing.Statements

namespace TypedSexp

open Store (programScope)

def Definition.KeepsSignature (d : Definition) : Prop :=
  ∀ p : Primitive, d.name = p.name → d.value.infer d.context = .ok p.signature

theorem Stmt.Readable.value {stmt : Stmt} (h : stmt.Readable) : stmt.value.Readable := by
  cases h with
  | define _ hvalue => exact hvalue
  | assign _ hvalue => exact hvalue
  | print hvalue => exact hvalue

theorem Stmt.infer_value_of_check {stmt : Stmt} {Γ Δ : Context} (h : stmt.check Γ = .ok Δ) :
    ∃ t, stmt.value.infer Γ = .ok t := by
  cases stmt <;>
  · simp only [check, Except.bind_eq_ok_iff] at h
    obtain ⟨t, ht, -⟩ := h
    exact ⟨t, ht⟩

namespace Session

structure Sound (made : List Definition) (s : Session) : Prop where
  checking : s.checking = true
  agrees : (∀ d ∈ made, d.KeepsSignature) → ∃ W, s.store.Agrees (fun _ => true) W s.context

theorem sound_invariant : Invariant Sound where
  checking h := h.checking
  frame h hs := ⟨h.checking, fun hmade => by
    obtain ⟨W, hagrees⟩ := h.agrees hmade
    exact ⟨W, hagrees.of_extends hs⟩⟩
  exec {made s stmt Δ} fuel h hstmt hcheck := by
    by_cases hmade : ∀ d ∈ made, d.KeepsSignature
    · obtain ⟨W, hagrees⟩ := h.agrees hmade
      refine (stmt.exec_agrees fuel hagrees hstmt hcheck).mono ?_ ?_
      · intro _ store hresult
        refine ⟨h.checking, fun hall => ?_⟩
        have hharmless : stmt.Harmless (fun _ => true) s.context := by
          cases stmt with
          | define range name value =>
              intro p hp _
              exact hall ⟨s.context, name, value⟩ (by simp [Stmt.definition?]) p hp
          | assign => trivial
          | print => trivial
        obtain ⟨W', -, hagrees'⟩ := hresult hharmless
        exact ⟨W', hagrees'⟩
      · rintro halt store ⟨-, hagrees'⟩
        exact ⟨h.checking, fun _ => ⟨W, hagrees'⟩⟩
    · refine Run.Ensures.of_forall (fun _ store => ?_) fun _ store => ?_
      · refine ⟨h.checking, fun hall => absurd (fun d hd => hall d ?_) hmade⟩
        exact List.mem_append_left _ hd
      · exact ⟨h.checking, fun hall => absurd hall hmade⟩

theorem sound_fresh : Sound [] fresh :=
  ⟨rfl, fun _ => Store.initial_agrees fun _ => true⟩

theorem contextsAfter_ensures {script : Script} (hscript : ∀ stmt ∈ script, stmt.Readable)
    {Γ : Context} (hΓ : Γ.Ordered) :
    (contextsAfter true Γ script).Ensures (fun _ => True) (Diagnostic.IsAt .typing) := by
  induction script generalizing Γ with
  | nil => trivial
  | cons stmt rest ih =>
      obtain ⟨hstmt, hrest⟩ := List.forall_mem_cons.mp hscript
      simp only [contextsAfter, if_true, Except.ensures_bind, Except.ensures_pure]
      exact (Stmt.check_ensures hstmt hΓ).imp fun Δ hΔ => (ih hrest hΔ).imp fun _ _ => trivial

theorem hasType_of_mem_bindings {made : List Definition} {s : Session} {W : Typing}
    (hagrees : s.store.Agrees (fun _ => true) W s.context) (hrecorded : Recorded made s) :
    ∀ x v, (x, v) ∈ s.store.bindings programScope →
      ∃ t, s.context.lookup? x = some t ∧ v.HasType W t := by
  intro x v hmem
  have hdefines := hrecorded.defines
  have hname : x ∈ made.map Definition.name := by
    rw [← hdefines.names_bindings]
    exact List.mem_map_of_mem hmem
  obtain ⟨t, ht⟩ := (hrecorded.bound x).mpr (.inr hname)
  obtain ⟨owner, Γ, w, howner, -, -, hw, hwt⟩ := hagrees.sees.binds ht
  have howns := hdefines.mem_iff.mp hname
  obtain rfl : programScope = owner := by simpa [Store.owner?_of_owns howns] using howner
  have hvalue := Store.lookup_values_of_mem_bindings hmem
  obtain rfl : v = w := by simpa [hvalue] using hw
  exact ⟨t, ht, hwt⟩

inductive Failure : Halt → Prop
  | outOfFuel : Failure .outOfFuel
  | parse {d : Diagnostic} : d.IsAt .parse → Failure (.fault d)
  | typing {d : Diagnostic} : d.IsAt .typing → Failure (.fault d)
  | redefinition {range : Range} {name : Name} : Failure (.fault ⟨range, .redefinition name⟩)
  | overflow {d : Diagnostic} : d.IsOverflow → Failure (.fault d)

theorem failure_of_isExpected {halt : Halt} (h : halt.IsExpected) : Failure halt := by
  cases h with
  | redefinition => exact .redefinition
  | benign h =>
      cases h with
      | outOfFuel => exact .outOfFuel
      | overflow h => exact .overflow h

theorem step_sound {made : List Definition} {s : Session} (hsound : Sound made s) {fuel : Nat}
    {source : Text} (hmade : ∀ d ∈ made ++
      (s.callSteps (.eval fuel source)).filterMap Step.definition?, d.KeepsSignature)
    {step : Step} (hstep : step ∈ s.callSteps (.eval fuel source)) :
    (∀ halt, step.outcome.1 = .error halt → halt.IsExpected) ∧
      ∃ t, step.stmt.value.infer step.before.context = .ok t ∧
        ∀ v store, (step.stmt.value.eval step.fuel programScope).startingFrom step.before.store =
          (.ok v, store) → ∃ W, store.Typed (fun _ => true) W ∧ v.HasType W t := by
  rcases eval_cases hsound.checking fuel source with
    ⟨d, -, hsteps, -⟩ | ⟨todo, hchecked, -, hsteps⟩
  · simp [hsteps] at hstep
  · rw [hsteps] at hstep hmade
    obtain ⟨hreadable, ⟨Δ, hcheck⟩, made', hsub, hsound'⟩ :=
      sound_invariant.steps fuel hchecked hsound rfl hstep
    obtain ⟨W, hagrees⟩ := hsound'.agrees fun d hd => hmade d (hsub hd)
    refine ⟨fun halt hhalt => ?_, ?_⟩
    · have hexec := step.stmt.exec_agrees step.fuel hagrees hreadable hcheck
      exact (hexec.of_error (Prod.ext hhalt rfl)).1
    · obtain ⟨t, ht⟩ := Stmt.infer_value_of_check hcheck
      refine ⟨t, ht, fun v store hvalue => ?_⟩
      have heval := Expr.eval_agrees step.fuel hagrees hreadable.value ht
      obtain ⟨-, W', -, hagrees', hv⟩ := heval.of_ok hvalue
      exact ⟨W', hagrees'.typed, hv⟩

/-- Every input to a checked session ends with output or with a failure as listed, provided that no
definition so far gave a primitive's name another type. Afterwards the bindings of the program's
scope have the types of the context, and so have the values that the statements evaluated. -/
theorem checked_session_sound (calls : List Call) (fuel : Nat) (source : Text)
    (hkeeps : ∀ d ∈ fresh.ledger (calls ++ [.eval fuel source]), d.KeepsSignature) :
    (∀ halt, ((fresh.after calls).eval fuel source).1 = .error halt → Failure halt) ∧
    (∃ W, ((fresh.after calls).eval fuel source).2.store.Typed (fun _ => true) W ∧
      ∀ x v, (x, v) ∈ ((fresh.after calls).eval fuel source).2.store.bindings programScope →
        ∃ t, ((fresh.after calls).eval fuel source).2.context.lookup? x = some t ∧
          v.HasType W t) ∧
    ∀ step ∈ (fresh.after calls).callSteps (.eval fuel source),
      ∃ t, step.stmt.value.infer step.before.context = .ok t ∧
        ∀ v store, (step.stmt.value.eval step.fuel programScope).startingFrom step.before.store =
          (.ok v, store) → ∃ W, store.Typed (fun _ => true) W ∧ v.HasType W t := by
  have hsound := sound_invariant.after sound_fresh calls
  have hkeeps' := hkeeps
  rw [ledger_append_singleton] at hkeeps'
  refine ⟨fun halt hhalt => ?_, ?_, fun step hstep => (step_sound hsound hkeeps' hstep).2⟩
  · rcases eval_cases hsound.checking fuel source with
      ⟨d, heval, -, hrejected⟩ | ⟨todo, hchecked, heval, hsteps⟩
    · obtain rfl : .fault d = halt := by simpa [heval] using hhalt
      rcases hrejected with hread | ⟨script, hread, hcontexts⟩
      · exact .parse ((Script.read_ensures source).of_error hread)
      · obtain ⟨W, hagrees⟩ := hsound.agrees fun d hd => hkeeps' d (List.mem_append_left _ hd)
        have hreadable := (Script.read_ensures source).of_ok hread
        exact .typing ((contextsAfter_ensures hreadable hagrees.sees.ordered).of_error hcontexts)
    · rw [heval] at hhalt
      obtain ⟨step, hmem, houtcome⟩ := execute_error hhalt
      exact failure_of_isExpected
        ((step_sound hsound hkeeps' (hsteps ▸ hmem)).1 halt houtcome)
  · have hafter := after_append_singleton fresh calls (.eval fuel source)
    have hsound' := sound_invariant.after sound_fresh (calls ++ [.eval fuel source])
    have hrecorded := recorded_invariant.after recorded_fresh (calls ++ [.eval fuel source])
    rw [hafter] at hsound' hrecorded
    obtain ⟨W, hagrees⟩ := hsound'.agrees hkeeps
    exact ⟨W, hagrees.typed, hasType_of_mem_bindings hagrees hrecorded⟩

theorem checked_session_sound_same_signature :
    ∃ W, ((fresh.after [.eval 5 (utf8 "(define + -)(define f (lambda x Nat (+ x 1)))")]).eval 5
        (utf8 "(print (f 3))")).2.store.Typed (fun _ => true) W ∧
      ∀ x v, (x, v) ∈ ((fresh.after [.eval 5
          (utf8 "(define + -)(define f (lambda x Nat (+ x 1)))")]).eval 5
          (utf8 "(print (f 3))")).2.store.bindings programScope →
        ∃ t, ((fresh.after [.eval 5 (utf8 "(define + -)(define f (lambda x Nat (+ x 1)))")]).eval 5
          (utf8 "(print (f 3))")).2.context.lookup? x = some t ∧ v.HasType W t := by
  have hledger : fresh.ledger [.eval 5 (utf8 "(define + -)(define f (lambda x Nat (+ x 1)))"),
      .eval 5 (utf8 "(print (f 3))")] =
      [⟨_, utf8 "+", .var _ (utf8 "-")⟩, ⟨_, utf8 "f", _⟩] := rfl
  refine (checked_session_sound [.eval 5 (utf8 "(define + -)(define f (lambda x Nat (+ x 1)))")] 5
    (utf8 "(print (f 3))") ?_).2.1
  change ∀ d ∈ fresh.ledger [_, _], d.KeepsSignature
  rw [hledger]
  intro d hd p hp
  rcases List.mem_cons.mp hd with rfl | hd
  · cases p <;> first | rfl | exact absurd hp (by decide)
  · obtain rfl := List.mem_singleton.mp hd
    cases p <;> exact absurd hp (by decide)

end Session

end TypedSexp
