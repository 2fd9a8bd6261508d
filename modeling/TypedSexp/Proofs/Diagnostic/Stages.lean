import TypedSexp.Proofs.Diagnostic.Forms
import TypedSexp.Proofs.Legacy.Grammar
import TypedSexp.Proofs.Run.Places
import TypedSexp.Proofs.Session.Batch

namespace TypedSexp

open Diagnostic (Reports)

namespace Legacy

namespace Lexer

theorem wordStep_reports (offset : Nat) (kind : Kind) (text : Text) (c : UInt8) (rest : Text) :
    (wordStep offset kind text c rest).FailsWith (Reports .lexical) := by
  unfold wordStep
  split
  · exact .ok _
  · split
    · exact .ok _
    · exact .error ⟨rfl, _, rfl⟩
  · split
    · exact .ok _
    · exact .error ⟨rfl, _, rfl⟩

theorem step_reports (offset : Nat) (c : UInt8) (mode : Mode) :
    (step offset c mode).FailsWith (Reports .lexical) := by
  cases mode with
  | between => exact .ok _
  | number digits =>
      simp only [step]
      split <;> exact .ok _
  | tee =>
      simp only [step]
      split
      · exact .ok _
      · split
        · exact .ok _
        · exact .error ⟨rfl, _, rfl⟩
  | word kind text rest => exact wordStep_reports offset kind text c rest

theorem finish_reports (offset : Nat) (mode : Mode) :
    (finish offset mode).FailsWith (Reports .lexical) := by
  cases mode with
  | between => exact .ok _
  | number digits => exact .ok _
  | tee => exact .error ⟨rfl, _, rfl⟩
  | word kind text rest => exact .error ⟨rfl, _, rfl⟩

theorem lexFrom_reports (mode : Mode) (offset : Nat) (source : Text) :
    (lexFrom mode offset source).FailsWith (Reports .lexical) := by
  induction source generalizing mode offset with
  | nil => exact finish_reports offset mode
  | cons c rest ih =>
      refine (step_reports offset c mode).bind fun ⟨tokens, next⟩ => ?_
      exact (ih next (offset + 1)).bind fun more => .ok _

end Lexer

theorem ofTokens_reports (tokens : List Token) :
    (ofTokens tokens).FailsWith (Reports .parse) := by
  have houtcome := Parser.ofTokens_outcome tokens
  generalize ofTokens tokens = result at houtcome
  cases houtcome with
  | complete => exact .ok _
  | short => exact .error ⟨rfl, _, rfl⟩
  | long => exact .error ⟨rfl, _, rfl⟩
  | stuck _ hstate hstep =>
      rcases Parser.step_error hstate hstep with ⟨-, -, fault, -, rfl⟩ | ⟨-, rfl⟩
      · exact .error ⟨rfl, _, rfl⟩
      · exact .error ⟨rfl, _, rfl⟩

end Legacy

namespace Expr

theorem checkArgs_reports (whole : Expr) (number : Nat) (inputs : List Ty) (args : List Expr)
    (found : List Ty) :
    (checkArgs whole number inputs args found).FailsWith (Reports .typing) := by
  fun_induction checkArgs whole number inputs args found with
  | case1 number input inputs arg args found founds hequal ih => exact ih
  | case2 => exact .error ⟨rfl, _, rfl⟩
  | case3 => exact .ok _

theorem applyType_reports (whole : Expr) (range : Range) (args : List Expr) (found : List Ty)
    (t : Ty) : (applyType whole range args found t).FailsWith (Reports .typing) := by
  cases t with
  | arrow inputs output =>
      simp only [applyType]
      split
      · exact (checkArgs_reports whole 1 inputs args found).bind fun _ => .ok _
      · exact .error ⟨rfl, _, rfl⟩
  | _ => exact .error ⟨rfl, _, rfl⟩

theorem memberType_reports (range : Range) (name : Name) (t : Ty) :
    (memberType range name t).FailsWith (Reports .typing) := by
  unfold memberType
  split
  · split
    · exact .ok _
    · exact .error ⟨rfl, _, rfl⟩
  · split
    · exact .ok _
    · exact .error ⟨rfl, _, rfl⟩
  · exact .error ⟨rfl, _, rfl⟩

theorem inferAll_reports {Γ : Context} {args : List Expr}
    (h : ∀ e ∈ args, (infer Γ e).FailsWith (Reports .typing)) :
    (inferAll Γ args).FailsWith (Reports .typing) := by
  induction args with
  | nil => exact .ok _
  | cons e rest ih =>
      obtain ⟨he, hrest⟩ := List.forall_mem_cons.mp h
      exact he.bind fun t => (ih hrest).bind fun types => .ok _

theorem inferFields_reports {Γ : Context} {fields : List (Name × Expr)}
    (h : ∀ field ∈ fields, (infer Γ field.2).FailsWith (Reports .typing)) :
    (inferFields Γ fields).FailsWith (Reports .typing) := by
  induction fields with
  | nil => exact .ok _
  | cons field rest ih =>
      obtain ⟨hfield, hrest⟩ := List.forall_mem_cons.mp h
      exact hfield.bind fun t => (ih hrest).bind fun entries => .ok _

theorem infer_reports (Γ : Context) (e : Expr) : (e.infer Γ).FailsWith (Reports .typing) := by
  induction e using Expr.induct generalizing Γ with
  | var range name =>
      simp only [infer]
      split
      · exact .ok _
      · exact .error ⟨rfl, _, rfl⟩
  | num range value => exact .ok _
  | bool range value => exact .ok _
  | lambda range param paramType body ih => exact (ih _).bind fun output => .ok _
  | apply range head args ihhead ihargs =>
      refine (ihhead Γ).bind fun headType => ?_
      refine (inferAll_reports fun arg harg => ihargs arg harg Γ).bind fun argTypes => ?_
      exact applyType_reports _ range args argTypes headType
  | cond range guard thenBranch elseBranch ihguard ihthen ihelse =>
      refine (ihguard Γ).bind fun guardType => ?_
      split
      · refine (ihthen Γ).bind fun thenType => (ihelse Γ).bind fun elseType => ?_
        split
        · exact .ok _
        · exact .error ⟨rfl, _, rfl⟩
      · exact .error ⟨rfl, _, rfl⟩
  | record range fields ih =>
      exact (inferFields_reports fun field hfield => ih field hfield Γ).bind fun entries => .ok _
  | project range target name ih =>
      exact (ih Γ).bind fun t => memberType_reports range name t
  | inject range variant payload ih => exact (ih Γ).bind fun t => .ok _

end Expr

theorem Stmt.check_reports (Γ : Context) (stmt : Stmt) :
    (stmt.check Γ).FailsWith (Reports .typing) := by
  cases stmt with
  | define range name value => exact (value.infer_reports Γ).bind fun t => .ok _
  | assign range target value =>
      refine (value.infer_reports Γ).bind fun found => ?_
      split
      · split
        · split
          · exact .ok _
          · exact .error ⟨rfl, _, rfl⟩
        · exact .error ⟨rfl, _, rfl⟩
      · exact .error ⟨rfl, _, rfl⟩
  | print range value => exact (value.infer_reports Γ).bind fun t => .ok _

theorem Script.check_reports (Γ : Context) (script : Script) :
    (script.check Γ).2.FailsWith (Reports .typing) := by
  induction script generalizing Γ with
  | nil => exact .ok _
  | cons stmt rest ih =>
      have hstmt := stmt.check_reports Γ
      simp only [Script.check]
      cases hcheck : stmt.check Γ with
      | ok Δ => exact ih Δ
      | error d => exact .error (hstmt.of_error hcheck)

namespace Run

variable {α β : Type} {E : Diagnostic → Prop}

def FailsWith (x : Run α) (E : Diagnostic → Prop) : Prop :=
  ∀ s, Ensures x s (fun _ _ => True) fun halt _ => ∀ d, halt = .fault d → E d

theorem FailsWith.pure (a : α) : FailsWith (Pure.pure a) E := fun _ => trivial

theorem FailsWith.fault {range : Range} {cause : Cause} (h : E ⟨range, cause⟩) :
    FailsWith (Run.fault range cause : Run α) E := by
  rintro s d ⟨⟩
  exact h

theorem FailsWith.ofExcept {x : Except Diagnostic α} (h : x.FailsWith E) :
    FailsWith (Run.ofExcept x) E := by
  intro s
  rw [ensures_ofExcept]
  refine h.mono ?_
  rintro d hd _ ⟨⟩
  exact hd

theorem FailsWith.change {f : Store → Except Diagnostic Store} (h : ∀ s, (f s).FailsWith E) :
    FailsWith (Run.change f) E := by
  intro s
  rw [ensures_change]
  refine (h s).mono ?_
  rintro d hd _ ⟨⟩
  exact hd

theorem FailsWith.bind {x : Run α} {f : α → Run β} (hx : FailsWith x E)
    (hf : ∀ a, FailsWith (f a) E) : FailsWith (x >>= f) E := by
  intro s
  rw [ensures_bind]
  exact (hx s).imp fun a s' _ => hf a s'

theorem FailsWith.mapM {f : α → Run β} {as : List α} (h : ∀ a ∈ as, FailsWith (f a) E) :
    FailsWith (as.mapM f) E := by
  induction as with
  | nil => exact .pure []
  | cons a rest ih =>
      obtain ⟨ha, hrest⟩ := List.forall_mem_cons.mp h
      rw [List.mapM_cons]
      exact ha.bind fun b => (ih hrest).bind fun bs => .pure _

theorem FailsWith.of_fault {x : Run α} {s : Store} {d : Diagnostic} (h : FailsWith x E)
    (hx : (x.startingFrom s).1 = .error (.fault d)) : E d :=
  (h s).of_error (Prod.ext hx rfl) d rfl

theorem FailsWith.get : FailsWith (MonadState.get : Run Store) E := fun _ => trivial

theorem FailsWith.modifyGet (f : Store → α × Store) :
    FailsWith (MonadState.modifyGet f : Run α) E :=
  fun _ => trivial

end Run

theorem Primitive.apply_reports (p : Primitive) (args : List Value) :
    (p.apply args).FailsWith (Reports .runtime) := by
  cases h : p.apply args with
  | ok v => exact .ok _
  | error d =>
      obtain ⟨range, cause⟩ := d
      obtain ⟨name, misuse, rfl⟩ := Primitive.misuse_of_apply h
      exact .error ⟨rfl, _, rfl⟩

theorem Expr.projectFrom_reports (range : Range) (name : Name) (v : Value) :
    Run.FailsWith (projectFrom range name v) (Reports .runtime) := by
  unfold projectFrom
  split
  · split
    · exact .pure _
    · exact .fault ⟨rfl, _, rfl⟩
  · split
    · exact .pure _
    · exact .fault ⟨rfl, _, rfl⟩
  · exact .fault ⟨rfl, _, rfl⟩

theorem Expr.eval_reports (fuel scope : Nat) (e : Expr) :
    Run.FailsWith (e.eval fuel scope) (Reports .runtime) := by
  induction fuel generalizing scope e with
  | zero =>
      rintro s d ⟨⟩
  | succ fuel ih =>
      cases e with
      | var range name =>
          refine Run.FailsWith.get.bind fun store => ?_
          split
          · exact .pure _
          · exact .fault ⟨rfl, _, rfl⟩
      | num range n => exact .pure _
      | bool range b => exact .pure _
      | lambda range param paramType body => exact .pure _
      | apply range head args =>
          refine (ih scope head).bind fun v => ?_
          split
          · split
            case h_1 arg =>
              refine (ih scope arg).bind fun w => ?_
              exact (Run.FailsWith.modifyGet _).bind fun inner => ih inner _
            · exact .fault ⟨rfl, _, rfl⟩
          · refine (Run.FailsWith.mapM fun arg _ => ih scope arg).bind fun vs => ?_
            exact .ofExcept (Primitive.apply_reports _ vs)
          · exact .fault ⟨rfl, _, rfl⟩
      | cond range guard thenBranch elseBranch =>
          refine (ih scope guard).bind fun v => ?_
          split
          · split
            · exact ih scope thenBranch
            · exact ih scope elseBranch
          · exact .fault ⟨rfl, _, rfl⟩
      | record range fields =>
          refine Run.FailsWith.bind (.mapM fun field _ => ?_) fun vs => .pure _
          exact (ih scope field.2).bind fun v => .pure _
      | project range target name =>
          exact (ih scope target).bind fun v => projectFrom_reports range name v
      | inject range variant payload => exact (ih scope payload).bind fun v => .pure _

theorem Store.define_reports (s : Store) (id : Nat) (range : Range) (name : Name) (v : Value) :
    (s.define id range name v).FailsWith (Reports .runtime) := by
  unfold define
  split
  · exact .error ⟨rfl, _, rfl⟩
  · exact .ok _

theorem Store.update_reports (s : Store) (id : Nat) (name : Name) (v : Value) :
    (s.update id name v).FailsWith (Reports .runtime) := by
  unfold update
  split
  · exact .ok _
  · exact .error ⟨rfl, _, rfl⟩

theorem Stmt.exec_reports (fuel scope : Nat) (stmt : Stmt) :
    Run.FailsWith (stmt.exec fuel scope) (Reports .runtime) := by
  cases stmt with
  | define range name value =>
      refine (value.eval_reports fuel scope).bind fun v => ?_
      exact (Run.FailsWith.change fun s => s.define_reports scope range name v).bind fun _ =>
        .pure _
  | assign range target value =>
      refine (value.eval_reports fuel scope).bind fun v => ?_
      split
      case h_1 place name =>
        refine Run.FailsWith.get.bind fun store => ?_
        split
        · exact (Run.FailsWith.change fun s => s.update_reports scope name v).bind fun _ => .pure _
        · exact .fault ⟨rfl, _, rfl⟩
      · exact .fault ⟨rfl, _, rfl⟩
  | print range value => exact (value.eval_reports fuel scope).bind fun v => .pure _

theorem Script.exec_reports (fuel scope : Nat) (script : Script) :
    Run.FailsWith (script.exec fuel scope) (Reports .runtime) := by
  induction script with
  | nil => exact .pure _
  | cons stmt rest ih =>
      exact (stmt.exec_reports fuel scope).bind fun line => ih.bind fun lines => .pure _

namespace Session

open Store (programScope)

theorem contextsAfter_agrees (Γ : Context) (script : Script) :
    (contextsAfter true Γ script).Ensures (fun _ => (script.check Γ).2 = .ok ())
      fun d => (script.check Γ).2 = .error d := by
  induction script generalizing Γ with
  | nil => exact rfl
  | cons stmt rest ih =>
      simp only [contextsAfter, if_true, Except.ensures_bind, Except.ensures_pure, Script.check]
      cases stmt.check Γ with
      | ok Δ => exact ih Δ
      | error d => exact rfl

inductive Ending (s : Session) (fuel : Nat) (source : Text) : Except Halt (List Text) → Prop
  | unread {d : Diagnostic} : Script.read source = .error d → Ending s fuel source (.error (.fault d))
  | rejected {script : Script} {d : Diagnostic} : Script.read source = .ok script →
      s.checking = true → (script.check s.context).2 = .error d →
      Ending s fuel source (.error (.fault d))
  | ran {script : Script} : Script.read source = .ok script →
      (s.checking = true → (script.check s.context).2 = .ok ()) →
      Ending s fuel source ((script.exec fuel programScope).startingFrom s.store).1

theorem eval_ending (s : Session) (fuel : Nat) (source : Text) :
    s.Ending fuel source (s.eval fuel source).1 := by
  cases hread : Script.read source with
  | error d =>
      simp only [eval, hread]
      exact .unread hread
  | ok script =>
      have hcheck := contextsAfter_agrees s.context script
      rw [eval_eq_evalScript hread, evalScript_fst]
      cases hcontexts : contextsAfter s.checking s.context script with
      | ok contexts =>
          refine .ran hread fun hchecking => ?_
          rw [hchecking] at hcontexts
          exact hcheck.of_ok hcontexts
      | error d =>
          cases hchecking : s.checking with
          | true =>
              rw [hchecking] at hcontexts
              exact .rejected hread hchecking (hcheck.of_error hcontexts)
          | false =>
              obtain ⟨contexts, hok⟩ := contextsAfter_unchecked s.context script
              rw [hchecking, hok] at hcontexts
              cases hcontexts

structure StageTells (s : Session) (fuel : Nat) (source : Text)
    (result : Except Halt (List Text)) : Prop where
  reports : ∀ d, result = .error (.fault d) →
    d.Reports .parse ∨ d.Reports .typing ∨ d.Reports .runtime
  parse_iff : ∀ d, result = .error (.fault d) ∧ d.stage = .parse ↔ Script.read source = .error d
  typing_iff : ∀ d, result = .error (.fault d) ∧ d.stage = .typing ↔
    s.checking = true ∧ ∃ script, Script.read source = .ok script ∧
      (script.check s.context).2 = .error d
  runtime_iff : ∀ d, result = .error (.fault d) ∧ d.stage = .runtime ↔
    ∃ script, Script.read source = .ok script ∧
      (s.checking = true → (script.check s.context).2 = .ok ()) ∧
      ((script.exec fuel programScope).startingFrom s.store).1 = .error (.fault d)

variable {s : Session} {fuel : Nat} {source : Text} {result : Except Halt (List Text)}

theorem Ending.unique {result' : Except Halt (List Text)} (h : s.Ending fuel source result)
    (h' : s.Ending fuel source result') : result = result' := by
  cases h with
  | unread hread =>
      cases h' with
      | unread hread' =>
          cases hread.symm.trans hread'
          rfl
      | rejected hread' => cases hread.symm.trans hread'
      | ran hread' => cases hread.symm.trans hread'
  | rejected hread hchecking hcheck =>
      cases h' with
      | unread hread' => cases hread.symm.trans hread'
      | rejected hread' _ hcheck' =>
          cases hread.symm.trans hread'
          cases hcheck.symm.trans hcheck'
          rfl
      | ran hread' hpassed =>
          cases hread.symm.trans hread'
          cases hcheck.symm.trans (hpassed hchecking)
  | ran hread hpassed =>
      cases h' with
      | unread hread' => cases hread.symm.trans hread'
      | rejected hread' hchecking hcheck =>
          cases hread.symm.trans hread'
          cases hcheck.symm.trans (hpassed hchecking)
      | ran hread' =>
          cases hread.symm.trans hread'
          rfl

theorem Ending.fault {d : Diagnostic} (h : s.Ending fuel source (.error (.fault d))) :
    (d.Reports .parse ∧ Script.read source = .error d) ∨
    (d.Reports .typing ∧ s.checking = true ∧ ∃ script, Script.read source = .ok script ∧
      (script.check s.context).2 = .error d) ∨
    (d.Reports .runtime ∧ ∃ script, Script.read source = .ok script ∧
      (s.checking = true → (script.check s.context).2 = .ok ()) ∧
      ((script.exec fuel programScope).startingFrom s.store).1 = .error (.fault d)) := by
  generalize hresult : Except.error (Halt.fault d) = result at h
  cases h with
  | unread hread =>
      cases hresult
      exact .inl ⟨(Script.read_reports source).of_error hread, hread⟩
  | @rejected script _ hread hchecking hcheck =>
      cases hresult
      have hreports := (script.check_reports s.context).of_error hcheck
      exact .inr (.inl ⟨hreports, hchecking, script, hread, hcheck⟩)
  | @ran script hread hpassed =>
      have hreports := (script.exec_reports fuel programScope).of_fault hresult.symm
      exact .inr (.inr ⟨hreports, script, hread, hpassed, rfl⟩)

theorem Ending.stageTells (h : s.Ending fuel source result) : s.StageTells fuel source result where
  reports := by
    rintro d rfl
    exact h.fault.imp And.left (Or.imp And.left And.left)
  parse_iff d := by
    constructor
    · rintro ⟨rfl, hstage⟩
      rcases h.fault with ⟨-, hread⟩ | ⟨hreports, -⟩ | ⟨hreports, -⟩
      · exact hread
      · cases hstage.symm.trans hreports.stage_eq
      · cases hstage.symm.trans hreports.stage_eq
    · intro hread
      exact ⟨h.unique (.unread hread), ((Script.read_reports source).of_error hread).stage_eq⟩
  typing_iff d := by
    constructor
    · rintro ⟨rfl, hstage⟩
      rcases h.fault with ⟨hreports, -⟩ | ⟨-, hrejected⟩ | ⟨hreports, -⟩
      · cases hstage.symm.trans hreports.stage_eq
      · exact hrejected
      · cases hstage.symm.trans hreports.stage_eq
    · rintro ⟨hchecking, script, hread, hcheck⟩
      exact ⟨h.unique (.rejected hread hchecking hcheck),
        ((script.check_reports s.context).of_error hcheck).stage_eq⟩
  runtime_iff d := by
    constructor
    · rintro ⟨rfl, hstage⟩
      rcases h.fault with ⟨hreports, -⟩ | ⟨hreports, -⟩ | ⟨-, hran⟩
      · cases hstage.symm.trans hreports.stage_eq
      · cases hstage.symm.trans hreports.stage_eq
      · exact hran
    · rintro ⟨script, hread, hpassed, hexec⟩
      have hreports := (script.exec_reports fuel programScope).of_fault hexec
      exact ⟨(h.unique (.ran hread hpassed)).trans hexec, hreports.stage_eq⟩

end Session

theorem stage_tells_which_step_failed :
    (∀ source, (Legacy.lex source).FailsWith (Reports .lexical)) ∧
    ((∀ tokens, (Legacy.ofTokens tokens).FailsWith (Reports .parse)) ∧
      (∀ source, (Sexp.readAll source).FailsWith (Reports .parse)) ∧
      (∀ s, (Ty.ofSexp s).FailsWith (Reports .parse)) ∧
      (∀ s, (Expr.ofSexp s).FailsWith (Reports .parse)) ∧
      (∀ s, (Stmt.ofSexp s).FailsWith (Reports .parse)) ∧
      (∀ ss, (Script.ofSexps ss).FailsWith (Reports .parse)) ∧
      (∀ source, (Expr.read source).FailsWith (Reports .parse)) ∧
      ∀ source, (Script.read source).FailsWith (Reports .parse)) ∧
    (∀ Γ : Context, (∀ e : Expr, (e.infer Γ).FailsWith (Reports .typing)) ∧
      (∀ stmt : Stmt, (stmt.check Γ).FailsWith (Reports .typing)) ∧
      ∀ script : Script, (script.check Γ).2.FailsWith (Reports .typing)) ∧
    (∀ fuel scope, (∀ e : Expr, Run.FailsWith (e.eval fuel scope) (Reports .runtime)) ∧
      ∀ script : Script, Run.FailsWith (script.exec fuel scope) (Reports .runtime)) ∧
    (∀ (s : Session) fuel source, s.StageTells fuel source (s.eval fuel source).1) ∧
    ∀ checking fuel source, (Session.start checking).StageTells fuel source
      (Program.interpret fuel source checking) := by
  refine ⟨Legacy.Lexer.lexFrom_reports .between 0, ⟨Legacy.ofTokens_reports, Sexp.readAll_reports,
    ?_, ?_, ?_, ?_, Expr.read_reports, Script.read_reports⟩, ?_, ?_, ?_, ?_⟩
  · exact fun s => (Ty.ofSexp_failsWith s).mono fun d hd => hd.reports
  · exact fun s => (Expr.ofSexp_failsWith s).mono fun d hd => hd.reports
  · exact fun s => (Stmt.ofSexp_failsWith s).mono fun d hd => hd.reports
  · exact fun ss => (Script.ofSexps_failsWith ss).mono fun d hd => hd.reports
  · exact fun Γ => ⟨Expr.infer_reports Γ, Stmt.check_reports Γ, Script.check_reports Γ⟩
  · exact fun fuel scope => ⟨Expr.eval_reports fuel scope, Script.exec_reports fuel scope⟩
  · exact fun s fuel source => (s.eval_ending fuel source).stageTells
  · intro checking fuel source
    rw [Session.interpret_eq_eval]
    exact ((Session.start checking).eval_ending fuel source).stageTells

end TypedSexp
