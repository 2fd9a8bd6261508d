import TypedSexp.Proofs.Program.Takeover
import TypedSexp.Proofs.Typing.Termination

namespace TypedSexp

open Store (programScope)

open Run (Settles)

open Value (Reducible)

def Halt.IsFinal : Halt → Prop
  | .fault d => (∃ x, d.cause = .redefinition x) ∨ d.IsOverflow
  | .outOfFuel => False

namespace Store

structure Prepared (s : Store) (Γ : Context) : Prop where
  realizes : s.Realizes programScope Γ
  outermost : s.scope? 0 = initial.scope? 0
  parent : s.parent? programScope = some 0

variable {s s' : Store} {Γ : Context} {range : Range} {name : Name} {v : Value}

theorem Prepared.of_extends (h : s.Prepared Γ) (hext : s.Extends s') : s'.Prepared Γ where
  realizes := h.realizes.mono hext.grows
  outermost := by rw [hext.scope?_eq 0 (Nat.zero_lt_of_lt h.realizes.lt_size), h.outermost]
  parent := by
    have hscope := hext.scope?_eq programScope h.realizes.lt_size
    simp only [parent?, hscope]
    exact h.parent

theorem Prepared.owner?_eq_none (h : s.Prepared Γ) (hname : ∀ p : Primitive, name ≠ p.name)
    (howns : s.owns programScope name = false) : s.owner? name programScope = none := by
  have houter : s.owns 0 name = false := by
    rw [owns, h.outermost, ← owns, owns_eq]
    cases hlookup : (initial.values 0).lookup name with
    | none => rfl
    | some w =>
        have hmem : (name, w) ∈ Members.ofList (Primitive.all.map fun p => (p.name, .prim p)) :=
          Members.mem_of_lookup hlookup
        obtain ⟨p, -, heq⟩ := List.mem_map.mp (Members.mem_of_mem_ofList hmem)
        cases heq
        exact absurd rfl (hname p)
  have hroot : s.parent? 0 = none := by
    rw [parent?, h.outermost]
    rfl
  have hzero : s.owner? name 0 = none := by
    rw [owner?, houter, hroot]
    rfl
  rw [owner?, howns, h.parent]
  simp [programScope, hzero]

theorem grows_define (hlt : programScope < s.size) (hnone : s.owner? name programScope = none)
    (hdefine : s.define programScope range name v = .ok s') : s.Grows s' where
  size_le := Nat.le_of_eq (size_define hdefine).symm
  lookup? {id x w} hw := by
    obtain ⟨owner, howner, hlookup⟩ := lookup?_eq_some_iff.mp hw
    have hdiffers : ¬(owner = programScope ∧ x = name) := by
      rintro ⟨rfl, rfl⟩
      have howns := owner?_of_owns (owner?_owns howner)
      simp [hnone] at howns
    refine lookup?_eq_some_iff.mpr ⟨owner, ?_, by rwa [lookup_define hlt hdefine, if_neg hdiffers]⟩
    by_cases hx : x = name
    · subst hx
      rcases owner?_define_self hlt hdefine id with hsame | ⟨-, hthrough⟩
      · rw [hsame, howner]
      · simp [hthrough, hnone] at howner
    · rw [owner?_define_of_ne hlt hdefine hx, howner]

theorem Prepared.define (h : s.Prepared Γ) (hname : ∀ p : Primitive, name ≠ p.name) {t : Ty}
    (ht : t.Ordered) (hv : Reducible t s v)
    (hdefine : s.define programScope range name v = .ok s') : s'.Prepared (Γ.extend name t) := by
  have hlt := h.realizes.lt_size
  have hnone := h.owner?_eq_none hname (define_ok hdefine).1
  have hgrows := grows_define hlt hnone hdefine
  have hgrown := h.realizes.mono hgrows
  have hdefined : s'.lookup? programScope name = some v := by
    have howner : s'.owner? name programScope = some programScope :=
      owner?_of_owns (by simp [owns_define hlt hdefine])
    rw [lookup?_eq howner, lookup_define hlt hdefine]
    simp
  refine ⟨⟨hgrown.lt_size, hgrown.ordered.extend name ht, ?_⟩, ?_, ?_⟩
  · intro x u hx
    rw [Context.lookup?_extend] at hx
    split at hx
    case isTrue hsame =>
      subst hsame
      cases hx
      exact ⟨v, hdefined, hv.mono hgrows⟩
    case isFalse => exact hgrown.binds hx
  · rw [(define_ok hdefine).2, scope?_modifyScope, if_neg (by decide), h.outermost]
  · rw [parent?_define hdefine, h.parent]

theorem initial_prepared : initial.Prepared Context.initial where
  realizes := by
    refine ⟨by decide, Context.initial_ordered, fun {x t} hx => ?_⟩
    obtain ⟨p, rfl, rfl⟩ := Context.primitive_of_lookup?_initial hx
    refine ⟨.prim p, by cases p <;> rfl, ?_⟩
    cases p <;> exact .inl ⟨_, rfl, rfl⟩
  outermost := rfl
  parent := rfl

end Store

namespace Stmt

def KeepsBindings : Stmt → Prop
  | .define _ name _ => ∀ p : Primitive, name ≠ p.name
  | .assign .. => False
  | .print .. => True

variable {s : Store} {Γ Δ : Context}

theorem value_settles {value : Expr} {t : Ty} (h : s.Prepared Γ) (hvalue : value.Readable)
    (ht : value.infer Γ = .ok t) :
    Settles (fun fuel => value.eval fuel programScope) s
      (fun v s' => s'.Prepared Γ ∧ Reducible t s' v) fun halt _ => halt.IsFinal := by
  refine (Expr.normalizes_of_regular hvalue.regular h.realizes ht).mono ?_ ?_
  · rintro v s' ⟨hext, hv⟩
    exact ⟨h.of_extends hext, hv⟩
  · intro halt _ hoverflow
    cases halt with
    | fault d => exact .inr hoverflow
    | outOfFuel => exact hoverflow

theorem exec_settles {stmt : Stmt} (h : s.Prepared Γ) (hreadable : stmt.Readable)
    (hcheck : stmt.check Γ = .ok Δ) (hkeeps : stmt.KeepsBindings) :
    Settles (fun fuel => stmt.exec fuel programScope) s (fun _ s' => s'.Prepared Δ)
      fun halt _ => halt.IsFinal := by
  cases hreadable with
  | @define range name value _ hvalue =>
      obtain ⟨t, ht, rfl⟩ := check_define_ok hcheck
      have hordered := Expr.ordered_of_infer hvalue.regular h.realizes.ordered ht
      refine (value_settles h hvalue ht).bind fun v s₁ ⟨h₁, hv⟩ => .const ?_
      simp only [Run.ensures_bind, Run.ensures_change, Run.ensures_pure]
      cases hdefine : s₁.define programScope range name v with
      | ok s₂ => exact h₁.define hkeeps hordered hv hdefine
      | error d =>
          unfold Store.define at hdefine
          split at hdefine
          · cases hdefine
            exact .inl ⟨name, rfl⟩
          · simp at hdefine
  | assign => exact hkeeps.elim
  | @print range value hvalue =>
      obtain ⟨t, ht, rfl⟩ := check_print_ok hcheck
      refine (value_settles h hvalue ht).bind fun v s₁ ⟨h₁, _⟩ => .const ?_
      exact h₁

end Stmt

theorem Script.exec_settles {script : Script} {s : Store} {Γ Δ : Context} (h : s.Prepared Γ)
    (hreadable : ∀ stmt ∈ script, stmt.Readable) (hcheck : script.check Γ = (Δ, .ok ()))
    (hkeeps : ∀ stmt ∈ script, stmt.KeepsBindings) :
    Settles (fun fuel => script.exec fuel programScope) s (fun _ s' => s'.Prepared Δ)
      fun halt _ => halt.IsFinal := by
  induction script generalizing s Γ with
  | nil =>
      cases hcheck
      exact .const h
  | cons stmt rest ih =>
      obtain ⟨hstmt, hrest⟩ := List.forall_mem_cons.mp hreadable
      obtain ⟨hkeepsStmt, hkeepsRest⟩ := List.forall_mem_cons.mp hkeeps
      obtain ⟨Θ, hΘ, hcheckRest⟩ := check_cons_ok hcheck
      refine (Stmt.exec_settles h hstmt hΘ hkeepsStmt).bind fun line s₁ h₁ => ?_
      exact (ih h₁ hrest hcheckRest hkeepsRest).bind fun lines s₂ h₂ => .const h₂

namespace Program

theorem checked_program_terminates :
    (∀ (name source : Text) (p : Program), compile name source true = .ok p →
      (∀ stmt ∈ p.script, ∀ range target value, stmt ≠ .assign range target value) →
      (∀ stmt ∈ p.script, ∀ range value (q : Primitive), stmt ≠ .define range q.name value) →
      ∃ fuel outcome, (∀ more ≥ fuel, p.run more = outcome) ∧
        ((∃ lines, outcome = .ok lines) ∨
          ∃ d, outcome = .error (.fault d) ∧
            ((∃ x, d.cause = .redefinition x) ∨ d.IsOverflow))) ∧
    ∀ (e : Expr) (t : Ty), e.Regular → e.infer Context.initial = .ok t →
      ∃ fuel outcome,
        (∀ more ≥ fuel, (e.eval more programScope).startingFrom Store.initial = outcome) ∧
        ((∃ v, outcome.1 = .ok v) ∨ ∃ d, outcome.1 = .error (.fault d) ∧ d.IsOverflow) := by
  constructor
  · intro name source p hcompile hassign hdefine
    obtain ⟨hreadable, Δ, hcheck⟩ := compile_ok hcompile
    have hkeeps : ∀ stmt ∈ p.script, stmt.KeepsBindings := by
      intro stmt hstmt
      cases stmt with
      | define range name value =>
          rintro q rfl
          exact hdefine _ hstmt range value q rfl
      | assign range target value => exact hassign _ hstmt range target value rfl
      | print range value => trivial
    obtain ⟨least, hleast, hends⟩ :=
      Script.exec_settles Store.initial_prepared hreadable hcheck hkeeps
    refine ⟨least, p.run least, fun more hmore => congrArg Prod.fst (hleast more hmore), ?_⟩
    unfold run
    rcases hresult : (p.script.exec least programScope).startingFrom Store.initial
      with ⟨halt | lines, s⟩
    · have hfinal := hends.of_error hresult
      cases halt with
      | fault d => exact .inr ⟨d, rfl, hfinal⟩
      | outOfFuel => exact hfinal.elim
    · exact .inl ⟨lines, rfl⟩
  · intro e t he ht
    obtain ⟨least, hleast, hends⟩ :=
      Expr.normalizes_of_regular he Store.initial_prepared.realizes ht
    refine ⟨least, _, hleast, ?_⟩
    rcases hresult : (e.eval least programScope).startingFrom Store.initial with ⟨halt | v, s⟩
    · have hoverflow := hends.of_error hresult
      cases halt with
      | fault d => exact .inr ⟨d, rfl, hoverflow⟩
      | outOfFuel => exact hoverflow.elim
    · exact .inl ⟨v, rfl⟩

theorem checked_program_terminates_twice :
    ∃ p, compile [] (utf8
        "(define f (lambda g (-> Nat Nat) (g (g 1))))(print (f (lambda y Nat (+ y 1))))") true = .ok p ∧
      (∃ fuel outcome, (∀ more ≥ fuel, p.run more = outcome) ∧
        ((∃ lines, outcome = .ok lines) ∨
          ∃ d, outcome = .error (.fault d) ∧
            ((∃ x, d.cause = .redefinition x) ∨ d.IsOverflow))) ∧
      ∃ fuel outcome,
        (∀ more ≥ fuel, (Expr.eval more programScope (.apply Range.none
          (.lambda Range.none (utf8 "x") .nat (.var Range.none (utf8 "x")))
          [.num Range.none 2])).startingFrom Store.initial = outcome) ∧
        ((∃ v, outcome.1 = .ok v) ∨ ∃ d, outcome.1 = .error (.fault d) ∧ d.IsOverflow) := by
  refine ⟨_, rfl, checked_program_terminates.1 [] (utf8
      "(define f (lambda g (-> Nat Nat) (g (g 1))))(print (f (lambda y Nat (+ y 1))))") _ rfl ?_ ?_,
    checked_program_terminates.2 _ .nat (.apply (.lambda .nat .var) ?_) rfl⟩
  · intro stmt hstmt range target value
    rcases List.mem_cons.mp hstmt with rfl | hstmt
    · simp
    · obtain rfl := List.mem_singleton.mp hstmt
      simp
  · intro stmt hstmt range value q
    rcases List.mem_cons.mp hstmt with rfl | hstmt
    · have hname : utf8 "f" ≠ q.name := by cases q <;> decide
      exact fun heq => hname (Stmt.define.inj heq).2.1
    · obtain rfl := List.mem_singleton.mp hstmt
      simp
  · intro arg harg
    obtain rfl := List.mem_singleton.mp harg
    exact .num

end Program

end TypedSexp
