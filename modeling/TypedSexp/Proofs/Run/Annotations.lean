import TypedSexp.Proofs.Run.Fuel
import TypedSexp.Proofs.Run.Relabel

namespace TypedSexp

open Store (programScope)

def Relabeling.untyped : Relabeling where
  scope := id
  place range := range
  type _ := .nat
  scope_lt h := h
  place_none := rfl

open Relabeling (untyped)

def Script.unannotated (script : Script) : Script := script.map (Stmt.relabel id fun _ => .nat)

def Store.shown (s : Store) : List (Name × Text) :=
  (s.bindings programScope).map fun binding => (binding.1, binding.2.toText)

def Script.outcome (fuel : Nat) (script : Script) : Except Halt (List Text) × Store :=
  (script.exec fuel programScope).startingFrom Store.initial

def Cause.withoutTarget : Cause → Cause
  | .invalidTarget _ stage => .invalidTarget [] stage
  | cause => cause

def Halt.withoutTarget : Halt → Halt
  | .fault d => .fault { d with cause := d.cause.withoutTarget }
  | .outOfFuel => .outOfFuel

theorem Cause.code_withoutTarget (cause : Cause) : cause.withoutTarget.code = cause.code := by
  cases cause <;> rfl

theorem Cause.withoutTarget_eq_self {cause : Cause}
    (h : ∀ target stage, cause ≠ .invalidTarget target stage) : cause.withoutTarget = cause := by
  cases cause with
  | invalidTarget target stage => exact absurd rfl (h target stage)
  | _ => rfl

structure Diagnostic.Resembles (d d' : Diagnostic) : Prop where
  code : d.cause.code = d'.cause.code
  range : d.range = d'.range
  message : (∀ target stage, d.cause ≠ .invalidTarget target stage) → d.message = d'.message

theorem Diagnostic.resembles_of_withoutTarget {d d' : Diagnostic}
    (h : (Halt.fault d).withoutTarget = (Halt.fault d').withoutTarget) : d.Resembles d' := by
  simp only [Halt.withoutTarget, Halt.fault.injEq, Diagnostic.mk.injEq] at h
  obtain ⟨hrange, hcause⟩ := h
  have hcode : d.cause.code = d'.cause.code := by
    rw [← d.cause.code_withoutTarget, hcause, d'.cause.code_withoutTarget]
  refine ⟨hcode, hrange, fun hd => ?_⟩
  have hd' (target : Text) (stage : Stage) : d'.cause ≠ .invalidTarget target stage := by
    intro htarget
    rw [htarget] at hcode
    cases hcause' : d.cause with
    | invalidTarget other stage' => exact hd other stage' hcause'
    | _ => simp [hcause', Cause.code] at hcode
  rw [Cause.withoutTarget_eq_self hd, Cause.withoutTarget_eq_self hd'] at hcause
  rw [Diagnostic.message, hcause, Diagnostic.message]

namespace Run

variable {α β : Type} {s t : Store}

def Mimics (x y : Run α) (s t : Store) : Prop :=
  Ensures x s (fun a s' => ∃ t', y.startingFrom t = (.ok a, t') ∧ untyped.Maps s' t')
    fun halt s' => ∃ halt' t', y.startingFrom t = (.error halt', t') ∧
      halt.withoutTarget = halt'.withoutTarget ∧ untyped.Maps s' t'

theorem Mirrors.mimics {x y : Run α} (h : Mirrors untyped id x y s t) : Mimics x y s t := by
  refine h.mono (fun a s' ha => ha) ?_
  rintro halt s' ⟨t', hy, hmaps⟩
  exact ⟨_, t', hy, congrArg Halt.withoutTarget halt.relocate_id.symm, hmaps⟩

theorem Mimics.bind {x y : Run α} {k k' : α → Run β} (hxy : Mimics x y s t)
    (hk : ∀ a s' t', untyped.Maps s' t' → Mimics (k a) (k' a) s' t') :
    Mimics (x >>= k) (y >>= k') s t := by
  rw [Mimics, ensures_bind]
  refine hxy.mono ?_ ?_
  · rintro a s' ⟨t', hy, hmaps⟩
    rw [startingFrom_bind, hy]
    exact hk a s' t' hmaps
  · rintro halt s' ⟨halt', t', hy, hhalt, hmaps⟩
    exact ⟨halt', t', by rw [startingFrom_bind, hy], hhalt, hmaps⟩

theorem Mirrors.refused {x y : Run Value}
    (hxy : Mirrors untyped (Value.relabel untyped) x y s t) (range : Range)
    (target target' : Text) (stage : Stage) :
    Mimics (x >>= fun _ => (Run.fault range (.invalidTarget target stage) : Run α))
      (y >>= fun _ => Run.fault range (.invalidTarget target' stage)) s t := by
  rw [Mimics, ensures_bind]
  refine hxy.mono ?_ ?_
  · rintro v s' ⟨t', hy, hmaps⟩
    refine ⟨.fault ⟨range, .invalidTarget target' stage⟩, t', ?_, rfl, hmaps⟩
    rw [startingFrom_bind, hy]
    rfl
  · rintro halt s' ⟨t', hy, hmaps⟩
    refine ⟨_, t', ?_, congrArg Halt.withoutTarget halt.relocate_id.symm, hmaps⟩
    rw [startingFrom_bind, hy]
    rfl

end Run

open Run (Mimics)

variable {s t : Store}

theorem Stmt.exec_mimics (fuel scope : Nat) (stmt : Stmt) (h : untyped.Maps s t) :
    Mimics (stmt.exec fuel scope) ((stmt.relabel id fun _ => .nat).exec fuel scope) s t := by
  cases stmt with
  | define range name value =>
      exact (exec_mirrors_of_text fuel scope _ (by simp) h).mimics
  | assign range target value =>
      have hvalue := value.eval_mirrors fuel scope h
      cases target with
      | var place name =>
          refine (exec_mirrors_of_text fuel scope _ ?_ h).mimics
          rintro _ _ _ ⟨⟩
          rfl
      | _ => exact hvalue.refused _ _ _ .runtime
  | print range value =>
      exact (exec_mirrors_of_text fuel scope _ (by simp) h).mimics

theorem Script.exec_mimics (fuel scope : Nat) (script : Script) (h : untyped.Maps s t) :
    Mimics (script.exec fuel scope) (script.unannotated.exec fuel scope) s t := by
  induction script generalizing s t with
  | nil => exact ⟨t, rfl, h⟩
  | cons stmt rest ih =>
      refine (stmt.exec_mimics fuel scope h).bind fun line s₁ t₁ h₁ => ?_
      exact (ih h₁).bind fun lines s₂ t₂ h₂ => ⟨t₂, rfl, h₂⟩

theorem Relabeling.untyped_maps_initial : untyped.Maps Store.initial Store.initial where
  size k := rfl
  scope? id := by
    match id with
    | 0 => rfl
    | 1 => rfl
    | id + 2 => rfl

theorem Relabeling.Maps.shown_eq (h : untyped.Maps s t) : t.shown = s.shown := by
  have hbindings : t.bindings programScope = _ := h.bindings programScope
  rw [Store.shown, hbindings, Value.relabelFields_eq_map, List.map_map, Store.shown]
  exact List.map_congr_left fun binding _ => congrArg (Prod.mk binding.1) (Value.toText_relabel _ _)

theorem Script.outcome_of_le {fuel more : Nat} (hle : fuel ≤ more) {script : Script}
    {r : Except Halt (List Text)} {s : Store} (h : script.outcome fuel = (r, s))
    (hr : r ≠ .error .outOfFuel) : script.outcome more = (r, s) :=
  (script.exec_below hle programScope Store.initial).eq_of_ne h hr

inductive Run.Alike {α : Type} : Except Halt α → Except Halt α → Prop
  | ok (a : α) : Alike (.ok a) (.ok a)
  | fault {d d' : Diagnostic} : d.Resembles d' → Alike (.error (.fault d)) (.error (.fault d'))
  | outOfFuel : Alike (.error .outOfFuel) (.error .outOfFuel)

theorem Run.alike_of_withoutTarget {α : Type} {halt halt' : Halt}
    (h : halt.withoutTarget = halt'.withoutTarget) :
    Alike (.error halt : Except Halt α) (.error halt') := by
  match halt, halt' with
  | .fault d, .fault d' => exact .fault (Diagnostic.resembles_of_withoutTarget h)
  | .fault d, .outOfFuel => cases h
  | .outOfFuel, .fault d => cases h
  | .outOfFuel, .outOfFuel => exact .outOfFuel

theorem Run.Alike.eq_outOfFuel {α : Type} {r r' : Except Halt α} (h : Alike r r')
    (hr : r = .error .outOfFuel) : r' = .error .outOfFuel := by
  cases h with
  | outOfFuel => rfl
  | _ => cases hr

theorem Script.outcomes_alike {p q : Script} (h : p.unannotated = q.unannotated) (fuel : Nat) :
    Run.Alike (p.outcome fuel).1 (q.outcome fuel).1 ∧
      (p.outcome fuel).2.shown = (q.outcome fuel).2.shown := by
  have hp := p.exec_mimics fuel programScope Relabeling.untyped_maps_initial
  have hq := q.exec_mimics fuel programScope Relabeling.untyped_maps_initial
  rw [h] at hp
  unfold outcome
  -- Both runs are compared with the one run of the script without types.
  rcases hresult : (p.exec fuel programScope).startingFrom Store.initial with ⟨halt | lines, s⟩ <;>
    rcases hresult' : (q.exec fuel programScope).startingFrom Store.initial with
      ⟨halt' | lines', s'⟩
  · obtain ⟨u, t, ht, hhalt, hs⟩ := hp.of_error hresult
    obtain ⟨u', t', ht', hhalt', hs'⟩ := hq.of_error hresult'
    cases ht.symm.trans ht'
    exact ⟨Run.alike_of_withoutTarget (hhalt.trans hhalt'.symm),
      hs.shown_eq.symm.trans hs'.shown_eq⟩
  · obtain ⟨u, t, ht, -, -⟩ := hp.of_error hresult
    obtain ⟨t', ht', -⟩ := hq.of_ok hresult'
    cases ht.symm.trans ht'
  · obtain ⟨t, ht, -⟩ := hp.of_ok hresult
    obtain ⟨u', t', ht', -, -⟩ := hq.of_error hresult'
    cases ht.symm.trans ht'
  · obtain ⟨t, ht, hs⟩ := hp.of_ok hresult
    obtain ⟨t', ht', hs'⟩ := hq.of_ok hresult'
    cases ht.symm.trans ht'
    exact ⟨.ok lines, hs.shown_eq.symm.trans hs'.shown_eq⟩

theorem Script.annotations_are_erased {p q : Script} (h : p.unannotated = q.unannotated) :
    (∀ fuel, (p.outcome fuel).1 = .error .outOfFuel ∧ (q.outcome fuel).1 = .error .outOfFuel) ∨
    (∃ fuel lines s t, s.shown = t.shown ∧
      ∀ more ≥ fuel, p.outcome more = (.ok lines, s) ∧ q.outcome more = (.ok lines, t)) ∨
    ∃ fuel d d' s t, d.Resembles d' ∧ s.shown = t.shown ∧
      ∀ more ≥ fuel, p.outcome more = (.error (.fault d), s) ∧
        q.outcome more = (.error (.fault d'), t) := by
  by_cases hdiverges : ∀ fuel, (p.outcome fuel).1 = .error .outOfFuel
  · exact .inl fun fuel => ⟨hdiverges fuel, (outcomes_alike h fuel).1.eq_outOfFuel (hdiverges fuel)⟩
  · obtain ⟨fuel, hfuel⟩ := Classical.not_forall.mp hdiverges
    obtain ⟨halike, hshown⟩ := outcomes_alike h fuel
    rcases hp : p.outcome fuel with ⟨r, s⟩
    rcases hq : q.outcome fuel with ⟨r', t⟩
    rw [hp, hq] at halike hshown
    rw [hp] at hfuel
    cases halike with
    | outOfFuel => exact absurd rfl hfuel
    | ok lines =>
        refine .inr (.inl ⟨fuel, lines, s, t, hshown, fun more hle => ⟨?_, ?_⟩⟩)
        · exact outcome_of_le hle hp (by simp)
        · exact outcome_of_le hle hq (by simp)
    | @fault d d' hresembles =>
        refine .inr (.inr ⟨fuel, d, d', s, t, hresembles, hshown, fun more hle => ⟨?_, ?_⟩⟩)
        · exact outcome_of_le hle hp (by simp)
        · exact outcome_of_le hle hq (by simp)

def Script.refusedAssignment (type : Ty) : Script :=
  let function (param : Name) (start : Int) (body : Name) : Expr :=
    .lambda ⟨start, start + 17⟩ param type (.var ⟨start + 15, start + 16⟩ body)
  [.define ⟨1, 29⟩ (utf8 "f") (function (utf8 "x") 11 (utf8 "x")),
    .assign ⟨30, 58⟩ (function (utf8 "y") 38 (utf8 "f")) (.var ⟨56, 57⟩ (utf8 "f"))]

theorem Script.annotations_are_erased_refused :
    read (utf8 "(define f (lambda x Nat  x)) (assign (lambda y Nat  f) f)") =
        .ok (refusedAssignment .nat) ∧
      read (utf8 "(define f (lambda x Bool x)) (assign (lambda y Bool f) f)") =
        .ok (refusedAssignment .bool) ∧
      (refusedAssignment .nat).unannotated = (refusedAssignment .bool).unannotated ∧
      ∃ fuel d d' s t, d.Resembles d' ∧ s.shown = t.shown ∧ ∀ more ≥ fuel,
        (refusedAssignment .nat).outcome more = (.error (.fault d), s) ∧
          (refusedAssignment .bool).outcome more = (.error (.fault d'), t) := by
  refine ⟨rfl, rfl, rfl, ?_⟩
  have hfault : ((refusedAssignment .nat).outcome 1).1 = .error (.fault ⟨⟨38, 55⟩,
      .invalidTarget (utf8 "(lambda y Nat f)") .runtime⟩) := rfl
  have hmore (more : Nat) (hle : 1 ≤ more) : ∃ d,
      ((refusedAssignment .nat).outcome more).1 = .error (.fault d) :=
    ⟨_, congrArg Prod.fst (outcome_of_le hle (Prod.ext hfault rfl) (by simp))⟩
  rcases annotations_are_erased (p := refusedAssignment .nat) (q := refusedAssignment .bool) rfl with
    hdiverges | ⟨fuel, lines, s, t, -, hends⟩ | hfails
  · obtain ⟨d, hd⟩ := hmore 1 (Nat.le_refl 1)
    rw [(hdiverges 1).1] at hd
    cases hd
  · obtain ⟨d, hd⟩ := hmore (fuel + 1) (Nat.le_add_left 1 fuel)
    rw [(hends (fuel + 1) (Nat.le_add_right fuel 1)).1] at hd
    cases hd
  · exact hfails

end TypedSexp
