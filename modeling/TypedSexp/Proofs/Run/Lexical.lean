import Mathlib.Data.List.Forall2
import TypedSexp.Proofs.Run.Arithmetic
import TypedSexp.Proofs.Run.Frame
import TypedSexp.Proofs.Run.Fuel

/-!
Evaluation without a store. Here a function carries the bindings it was made with, and a call adds
its argument to them; nothing is ever changed. Evaluation with scopes does the same: a scope that a
function knows by its number stands for the bindings that the function would carry.
-/

namespace TypedSexp

open Store (programScope)

namespace Lexical

inductive Value where
  | num (n : UInt64)
  | bool (b : Bool)
  | prim (p : Primitive)
  | closure (env : List (Name × Value)) (param : Name) (body : Expr)
  | record (fields : List (Name × Value))
  | union (variant : Name) (payload : Value)
deriving Inhabited

abbrev Env := List (Name × Value)

namespace Value

mutual

def toText : Value → Text
  | .num n => Numeral.write n
  | .bool b => Text.ofBool b
  | .prim p => utf8 "<prim " ++ p.name ++ utf8 ">"
  | .closure .. => utf8 "<closure>"
  | .record fields => utf8 "<rec " ++ toTextFields fields ++ utf8 ">"
  | .union variant payload => variant ++ utf8 ", " ++ toText payload

def toTextFields : List (Name × Value) → Text
  | [] => []
  | [(name, v)] => name ++ utf8 ", " ++ toText v
  | (name, v) :: rest => name ++ utf8 ", " ++ toText v ++ utf8 ", " ++ toTextFields rest

end

def ofFields (fields : List (Name × Value)) : Value :=
  .record (Members.listed (Members.names fields) (Members.ofList fields))

end Value

def bounded (p : Primitive) (a b : UInt64) (result : Nat) : Except Diagnostic Value :=
  if result < Numeral.limit then .ok (.num (UInt64.ofNat result)) else p.misuse (.overflow a b)

def onNumbers (p : Primitive) (f : UInt64 → UInt64 → Except Diagnostic Value) :
    List Value → Except Diagnostic Value
  | [.num a, .num b] => f a b
  | [a, b] => p.misuse (.operands (utf8 "two numbers") [a.toText, b.toText])
  | args => p.misuse (.arity 2 args.length)

def onBooleans (p : Primitive) (f : Bool → Bool → Bool) : List Value → Except Diagnostic Value
  | [.bool a, .bool b] => .ok (.bool (f a b))
  | [a, b] => p.misuse (.operands (utf8 "two booleans") [a.toText, b.toText])
  | args => p.misuse (.arity 2 args.length)

def delta (p : Primitive) (args : List Value) : Except Diagnostic Value :=
  match p with
  | .add => onNumbers p (fun a b => bounded p a b (a.toNat + b.toNat)) args
  | .sub => onNumbers p (fun a b => .ok (.num (UInt64.ofNat (a.toNat - b.toNat)))) args
  | .mul => onNumbers p (fun a b => bounded p a b (a.toNat * b.toNat)) args
  | .equal => onNumbers p (fun a b => .ok (.bool (a == b))) args
  | .less => onNumbers p (fun a b => .ok (.bool (a < b))) args
  | .and => onBooleans p (· && ·) args
  | .or => onBooleans p (· || ·) args
  | .isZero =>
      match args with
      | [.num n] => .ok (.bool (n == 0))
      | [v] => p.misuse (.operands (utf8 "a number") [v.toText])
      | args => p.misuse (.arity 1 args.length)
  | .not =>
      match args with
      | [.bool b] => .ok (.bool !b)
      | [v] => p.misuse (.operands (utf8 "a boolean") [v.toText])
      | args => p.misuse (.arity 1 args.length)

def fault {α : Type} (range : Range) (cause : Cause) : Except Halt α :=
  .error (.fault ⟨range, cause⟩)

def project (range : Range) (name : Name) : Value → Except Halt Value
  | .record fields =>
      match fields.lookup name with
      | some v => .ok v
      | none => fault range (.missingMember name (Value.record fields).toText false .runtime)
  | .union variant payload =>
      if variant = name then .ok payload else fault range (.variantMismatch name variant)
  | v => fault range (.notProjectable v.toText name .runtime)

def eval : (fuel : Nat) → (env : Env) → Expr → Except Halt Value
  | 0, _, _ => .error .outOfFuel
  | fuel + 1, env, e =>
      match e with
      | .var range name =>
          match env.lookup name with
          | some v => .ok v
          | none => fault range (.unboundVariable name .runtime)
      | .num _ n => .ok (.num n)
      | .bool _ b => .ok (.bool b)
      | .lambda _ param _ body => .ok (.closure env param body)
      | .apply range head args => do
          match ← eval fuel env head with
          | .closure captured param body =>
              match args with
              | [arg] => do
                  let v ← eval fuel env arg
                  eval fuel ((param, v) :: captured) body
              | args => fault range (.arityMismatch 1 args.length .runtime)
          | .prim p => do
              let vs ← args.mapM (eval fuel env)
              (delta p vs).mapError .fault
          | v => fault range (.notAFunction v.toText .runtime)
      | .cond _ guard thenBranch elseBranch => do
          match ← eval fuel env guard with
          | .bool b => if b then eval fuel env thenBranch else eval fuel env elseBranch
          | v => fault guard.range (.notABoolean v.toText)
      | .record _ fields => do
          let vs ← fields.mapM fun field => do return (field.1, ← eval fuel env field.2)
          return .ofFields vs
      | .project range target name => do project range name (← eval fuel env target)
      | .inject _ variant payload => do return .union variant (← eval fuel env payload)

def primitives : Env := Members.ofList (Primitive.all.map fun p => (p.name, .prim p))

mutual

inductive Denotes (s : Store) : TypedSexp.Value → Value → Prop
  | num (n : UInt64) : Denotes s (.num n) (.num n)
  | bool (b : Bool) : Denotes s (.bool b) (.bool b)
  | prim (p : Primitive) : Denotes s (.prim p) (.prim p)
  | closure {param : Name} {body : Expr} {scope : Nat} {env : Env} :
      DenotesEnv s scope env → Denotes s (.closure param body scope) (.closure env param body)
  | record {fields : List (Name × TypedSexp.Value)} {fields' : List (Name × Value)} :
      DenotesFields s fields fields' → Denotes s (.record fields) (.record fields')
  | union {variant : Name} {payload : TypedSexp.Value} {payload' : Value} :
      Denotes s payload payload' → Denotes s (.union variant payload) (.union variant payload')

inductive DenotesFields (s : Store) :
    List (Name × TypedSexp.Value) → List (Name × Value) → Prop
  | nil : DenotesFields s [] []
  | cons {name : Name} {v : TypedSexp.Value} {w : Value} {fields : List (Name × TypedSexp.Value)}
      {fields' : List (Name × Value)} :
      Denotes s v w → DenotesFields s fields fields' →
      DenotesFields s ((name, v) :: fields) ((name, w) :: fields')

inductive DenotesEnv (s : Store) : Nat → Env → Prop
  | root {id : Nat} {names : List Name} {values : List (Name × TypedSexp.Value)} {env : Env} :
      s.scope? id = some ⟨none, names, values⟩ → DenotesFields s values env → DenotesEnv s id env
  | inner {id outer : Nat} {names : List Name} {values : List (Name × TypedSexp.Value)}
      {front env : Env} :
      s.scope? id = some ⟨some outer, names, values⟩ → outer < id →
      DenotesFields s values front → DenotesEnv s outer env → DenotesEnv s id (front ++ env)

end

variable {s s' : Store}

mutual

theorem Denotes.mono (hext : s.Extends s') {v : TypedSexp.Value} {w : Value} :
    Denotes s v w → Denotes s' v w
  | .num n => .num n
  | .bool b => .bool b
  | .prim p => .prim p
  | .closure henv => .closure (DenotesEnv.mono hext henv)
  | .record hfields => .record (DenotesFields.mono hext hfields)
  | .union hpayload => .union (Denotes.mono hext hpayload)

theorem DenotesFields.mono (hext : s.Extends s') {fields : List (Name × TypedSexp.Value)}
    {fields' : List (Name × Value)} : DenotesFields s fields fields' → DenotesFields s' fields fields'
  | .nil => .nil
  | .cons hv hrest => .cons (Denotes.mono hext hv) (DenotesFields.mono hext hrest)

theorem DenotesEnv.mono (hext : s.Extends s') {id : Nat} {env : Env} :
    DenotesEnv s id env → DenotesEnv s' id env
  | .root hscope hbindings =>
      .root ((hext.scope?_eq id (Store.lt_size_of_scope? hscope)).trans hscope)
        (DenotesFields.mono hext hbindings)
  | .inner hscope hlt hbindings henv =>
      .inner ((hext.scope?_eq id (Store.lt_size_of_scope? hscope)).trans hscope) hlt
        (DenotesFields.mono hext hbindings) (DenotesEnv.mono hext henv)

end

mutual

theorem Denotes.toText_eq {v : TypedSexp.Value} {w : Value} : Denotes s v w → v.toText = w.toText
  | .num n => rfl
  | .bool b => rfl
  | .prim p => rfl
  | .closure henv => rfl
  | .record hfields => by
      rw [TypedSexp.Value.toText, Value.toText, DenotesFields.toTextFields_eq hfields]
  | .union hpayload => by rw [TypedSexp.Value.toText, Value.toText, Denotes.toText_eq hpayload]

theorem DenotesFields.toTextFields_eq {fields : List (Name × TypedSexp.Value)}
    {fields' : List (Name × Value)} :
    DenotesFields s fields fields' →
      TypedSexp.Value.toTextFields fields = Value.toTextFields fields'
  | .nil => rfl
  | .cons hv hrest => by
      have hhead := Denotes.toText_eq hv
      have htail := DenotesFields.toTextFields_eq hrest
      cases hrest with
      | nil => simp only [TypedSexp.Value.toTextFields, Value.toTextFields, hhead]
      | cons hsecond hmore =>
          simp only [TypedSexp.Value.toTextFields, Value.toTextFields, hhead, htail]

end

mutual

theorem Denotes.unique {v : TypedSexp.Value} {w w' : Value} :
    Denotes s v w → Denotes s v w' → w = w'
  | .num n, .num _ => rfl
  | .bool b, .bool _ => rfl
  | .prim p, .prim _ => rfl
  | .closure henv, .closure henv' => by rw [DenotesEnv.unique henv henv']
  | .record hfields, .record hfields' => by rw [DenotesFields.unique hfields hfields']
  | .union hpayload, .union hpayload' => by rw [Denotes.unique hpayload hpayload']

theorem DenotesFields.unique {fields : List (Name × TypedSexp.Value)} {fs fs' : Env} :
    DenotesFields s fields fs → DenotesFields s fields fs' → fs = fs'
  | .nil, .nil => rfl
  | .cons hv hrest, .cons hv' hrest' => by
      rw [Denotes.unique hv hv', DenotesFields.unique hrest hrest']

theorem DenotesEnv.unique {id : Nat} {env env' : Env} :
    DenotesEnv s id env → DenotesEnv s id env' → env = env'
  | .root hscope hbindings, .root hscope' hbindings' => by
      cases hscope.symm.trans hscope'
      exact DenotesFields.unique hbindings hbindings'
  | .root hscope _, .inner hscope' _ _ _ => nomatch hscope.symm.trans hscope'
  | .inner hscope _ _ _, .root hscope' _ => nomatch hscope.symm.trans hscope'
  | .inner hscope _ hbindings henv, .inner hscope' _ hbindings' henv' => by
      cases hscope.symm.trans hscope'
      rw [DenotesFields.unique hbindings hbindings', DenotesEnv.unique henv henv']

end

theorem rel_or {α β : Type} {R : α → β → Prop} {a a' : Option α} {b b' : Option β}
    (h : Option.Rel R a b) (h' : Option.Rel R a' b') : Option.Rel R (a.or a') (b.or b') := by
  cases h with
  | some hab => exact .some hab
  | none => exact h'

theorem DenotesFields.lookup {fields : List (Name × TypedSexp.Value)}
    {fields' : List (Name × Value)} (h : DenotesFields s fields fields') (name : Name) :
    Option.Rel (Denotes s) (fields.lookup name) (fields'.lookup name) := by
  induction fields generalizing fields' with
  | nil =>
      cases h
      exact .none
  | cons field rest ih =>
      cases h with
      | @cons other v w _ rest' hv hrest =>
          rw [Members.lookup_cons, Members.lookup_cons]
          split
          · exact .some hv
          · exact ih hrest

theorem DenotesEnv.lookup {id : Nat} {env : Env} (h : DenotesEnv s id env) (name : Name) :
    Option.Rel (Denotes s) (s.lookup? id name) (env.lookup name) := by
  induction id using Nat.strongRecOn generalizing env with
  | ind id ih =>
      cases h with
      | root hscope hbindings =>
          rw [Store.lookup?_root hscope rfl]
          exact hbindings.lookup name
      | @inner _ outer names values front env hscope hlt hbindings henv =>
          rw [Store.lookup?_inner hscope rfl hlt, List.lookup_append]
          exact rel_or (hbindings.lookup name) (ih outer hlt henv)

theorem DenotesFields.insert {fields : List (Name × TypedSexp.Value)}
    {fields' : List (Name × Value)} (h : DenotesFields s fields fields') (name : Name)
    {v : TypedSexp.Value} {w : Value} (hv : Denotes s v w) :
    DenotesFields s (Members.insert name v fields) (Members.insert name w fields') := by
  induction fields generalizing fields' with
  | nil =>
      cases h
      exact .cons hv .nil
  | cons field rest ih =>
      cases h with
      | cons hw hrest =>
          simp only [Members.insert]
          split
          · exact .cons hv (.cons hw hrest)
          · split
            · exact .cons hv hrest
            · exact .cons hw (ih hrest)

theorem DenotesFields.foldl_insert {fields : List (Name × TypedSexp.Value)}
    {fields' : List (Name × Value)}
    (h : List.Forall₂ (fun a b => a.1 = b.1 ∧ Denotes s a.2 b.2) fields fields')
    {members : List (Name × TypedSexp.Value)} {members' : List (Name × Value)}
    (hmembers : DenotesFields s members members') :
    DenotesFields s
      (fields.foldl (fun members entry => Members.insert entry.1 entry.2 members) members)
      (fields'.foldl (fun members entry => Members.insert entry.1 entry.2 members) members') := by
  induction h generalizing members members' with
  | nil => exact hmembers
  | @cons field field' _ _ hfield _ ih =>
      rw [List.foldl_cons, List.foldl_cons, hfield.1]
      exact ih (hmembers.insert field'.1 hfield.2)

theorem DenotesFields.listed {fields : List (Name × TypedSexp.Value)}
    {fields' : List (Name × Value)} (h : DenotesFields s fields fields') (names : List Name) :
    DenotesFields s (Members.listed names fields) (Members.listed names fields') := by
  induction names with
  | nil => exact .nil
  | cons name rest ih =>
      have hname := h.lookup name
      simp only [Members.listed, List.filterMap_cons] at ih ⊢
      generalize fields.lookup name = left at *
      generalize fields'.lookup name = right at *
      cases hname with
      | none => exact ih
      | some hv => exact .cons hv ih

theorem Denotes.ofFields {fields : List (Name × TypedSexp.Value)} {fields' : List (Name × Value)}
    (h : List.Forall₂ (fun a b => a.1 = b.1 ∧ Denotes s a.2 b.2) fields fields') :
    Denotes s (.ofFields fields) (.ofFields fields') := by
  have hnames : Members.names fields = Members.names fields' := by
    induction h with
    | nil => rfl
    | cons hfield _ ih => simpa [Members.names, hfield.1] using ih
  rw [TypedSexp.Value.ofFields, Value.ofFields, hnames]
  exact .record ((DenotesFields.foldl_insert h .nil).listed _)

theorem DenotesEnv.lt_size {id : Nat} {env : Env} (h : DenotesEnv s id env) : id < s.size := by
  cases h with
  | root hscope => exact Store.lt_size_of_scope? hscope
  | inner hscope => exact Store.lt_size_of_scope? hscope

theorem DenotesEnv.newScope {captured : Nat} {env : Env} (h : DenotesEnv s captured env)
    (param : Name) {v : TypedSexp.Value} {w : Value} (hv : Denotes s v w) :
    DenotesEnv (s.newScope (some captured) [(param, v)]).2 s.size ((param, w) :: env) := by
  have hext := Store.Extends.newScope s (some captured) [(param, v)]
  exact .inner (Store.scope?_newScope_self s _ _) h.lt_size (.cons (hv.mono hext) .nil)
    (h.mono hext)

theorem initial_denotes : DenotesEnv Store.initial programScope primitives := by
  have hprimitives (entries : List (Name × Primitive)) :
      DenotesFields Store.initial (entries.map fun entry => (entry.1, .prim entry.2))
        (entries.map fun entry => (entry.1, .prim entry.2)) := by
    induction entries with
    | nil => exact .nil
    | cons entry rest ih => exact .cons (.prim entry.2) ih
  have hroot : DenotesEnv Store.initial 0 primitives := by
    have hscope : Store.initial.scope? 0 = some ⟨none, _, _⟩ :=
      congrArg some (Scope.holding_eq none _)
    refine .root hscope ?_
    have hnamed := hprimitives (Members.ofList (Primitive.all.map fun p => (p.name, p)))
    rw [← Members.ofList_map, ← Members.ofList_map] at hnamed
    exact hnamed
  have hempty : DenotesFields Store.initial [] [] := .nil
  exact .inner rfl (by decide) hempty hroot

def Agrees {α β : Type} (R : Store → α → β → Prop) (x : Run α) (y : Except Halt β)
    (s : Store) : Prop :=
  Run.Ensures x s (fun a s' => s.Extends s' ∧ ∃ b, y = .ok b ∧ R s' a b) fun halt _ =>
    y = .error halt

section agrees

variable {α α' β β' : Type} {R : Store → α → β → Prop} {R' : Store → α' → β' → Prop}

theorem Agrees.pure {a : α} {b : β} (h : R s a b) : Agrees R (Pure.pure a) (.ok b) s :=
  ⟨.refl s, b, rfl, h⟩

theorem Agrees.fault (range : Range) {cause cause' : Cause} (h : cause = cause') :
    Agrees R (Run.fault range cause) (Lexical.fault range cause') s := by
  subst h
  exact rfl

theorem Agrees.bind {x : Run α} {y : Except Halt β} {k : α → Run α'} {k' : β → Except Halt β'}
    (hxy : Agrees R x y s)
    (hk : ∀ a b s', s.Extends s' → R s' a b → Agrees R' (k a) (k' b) s') :
    Agrees R' (x >>= k) (y >>= k') s := by
  rw [Agrees, Run.ensures_bind]
  refine hxy.mono ?_ ?_
  · rintro a s' ⟨hext, b, rfl, hab⟩
    refine (hk a b s' hext hab).imp ?_
    rintro a' s'' ⟨hext', b', hb', hab'⟩
    exact ⟨hext.trans hext', b', hb', hab'⟩
  · rintro halt s' rfl
    rfl

theorem Agrees.get_bind {k : Store → Run α} {y : Except Halt β} (h : Agrees R (k s) y s) :
    Agrees R (get >>= k) y s := by
  rw [Agrees, Run.ensures_bind]
  exact h

theorem Agrees.newScope {captured : Nat} {bindings : List (Name × TypedSexp.Value)}
    {k : Nat → Run α} {y : Except Halt β}
    (h : Agrees R (k s.size) y (s.newScope (some captured) bindings).2) :
    Agrees R (modifyGet (·.newScope (some captured) bindings) >>= k) y s := by
  rw [Agrees, Run.ensures_bind, Run.ensures_modifyGet]
  refine h.imp ?_
  rintro a s' ⟨hext, b, hb, hab⟩
  exact ⟨(Store.Extends.newScope s _ _).trans hext, b, hb, hab⟩

theorem Agrees.mapM {γ : Type} {x : γ → Run α} {y : γ → Except Halt β} {cs : List γ}
    (hR : ∀ {s s' a b}, s.Extends s' → R s a b → R s' a b) (hrefl : s.Extends s')
    (h : ∀ c ∈ cs, ∀ s', s.Extends s' → Agrees R (x c) (y c) s') :
    Agrees (fun s as bs => List.Forall₂ (R s) as bs) (cs.mapM x) (cs.mapM y) s' := by
  induction cs generalizing s' with
  | nil => exact .pure .nil
  | cons c rest ih =>
      obtain ⟨hc, hrest⟩ := List.forall_mem_cons.mp h
      rw [List.mapM_cons, List.mapM_cons]
      refine (hc s' hrefl).bind fun a b s₁ h₁ hab => ?_
      refine (ih (hrefl.trans h₁) hrest).bind fun as bs s₂ h₂ habs => ?_
      exact .pure (.cons (hR h₂ hab) habs)

end agrees

theorem misuse_agrees (p : Primitive) {m m' : Misuse} (h : m = m') :
    Agrees Denotes (Run.ofExcept (p.misuse m)) ((p.misuse m').mapError .fault) s := by
  subst h
  exact rfl

theorem bounded_agrees (p : Primitive) (a b : UInt64) (n : Nat) :
    Agrees Denotes (Run.ofExcept (if n < Numeral.limit then .ok (.num (.ofNat n))
        else p.misuse (.overflow a b))) ((bounded p a b n).mapError .fault) s := by
  unfold bounded
  split
  · exact .pure (.num _)
  · exact misuse_agrees p rfl

section delta

variable {vs : List TypedSexp.Value} {ws : List Value} (h : List.Forall₂ (Denotes s) vs ws)

include h

theorem onNumbers_agrees (p : Primitive) {f : UInt64 → UInt64 → Except Diagnostic TypedSexp.Value}
    {g : UInt64 → UInt64 → Except Diagnostic Value}
    (hfg : ∀ a b, Agrees Denotes (Run.ofExcept (f a b)) ((g a b).mapError .fault) s) :
    Agrees Denotes (Run.ofExcept (p.onNumbers f vs)) ((onNumbers p g ws).mapError .fault) s := by
  have hlength := h.length_eq
  match h with
  | .nil => exact misuse_agrees p rfl
  | .cons ha .nil => cases ha <;> exact misuse_agrees p rfl
  | .cons ha (.cons hb .nil) =>
      have htexts := congrArg₂ (fun t u => Misuse.operands (utf8 "two numbers") [t, u])
        ha.toText_eq hb.toText_eq
      cases ha with
      | num a =>
          cases hb with
          | num b => exact hfg a b
          | _ => exact misuse_agrees p htexts
      | _ => exact misuse_agrees p htexts
  | .cons _ (.cons _ (.cons _ _)) =>
      simp only [Primitive.onNumbers, onNumbers]
      exact misuse_agrees p (congrArg (Misuse.arity 2) hlength)

theorem onBooleans_agrees (p : Primitive) (f : Bool → Bool → Bool) :
    Agrees Denotes (Run.ofExcept (p.onBooleans f vs)) ((onBooleans p f ws).mapError .fault) s := by
  have hlength := h.length_eq
  match h with
  | .nil => exact misuse_agrees p rfl
  | .cons ha .nil => cases ha <;> exact misuse_agrees p rfl
  | .cons ha (.cons hb .nil) =>
      have htexts := congrArg₂ (fun t u => Misuse.operands (utf8 "two booleans") [t, u])
        ha.toText_eq hb.toText_eq
      cases ha with
      | bool a =>
          cases hb with
          | bool b => exact .pure (.bool _)
          | _ => exact misuse_agrees p htexts
      | _ => exact misuse_agrees p htexts
  | .cons _ (.cons _ (.cons _ _)) =>
      simp only [Primitive.onBooleans, onBooleans]
      exact misuse_agrees p (congrArg (Misuse.arity 2) hlength)

theorem delta_agrees (p : Primitive) :
    Agrees Denotes (Run.ofExcept (p.apply vs)) ((delta p ws).mapError .fault) s := by
  have hlength := h.length_eq
  cases p with
  | add =>
      refine onNumbers_agrees h _ fun a b => ?_
      rw [Primitive.bounded_sum]
      exact bounded_agrees _ a b _
  | sub =>
      refine onNumbers_agrees h _ fun a b => ?_
      rw [Word.truncatedSub_eq]
      exact .pure (.num _)
  | mul =>
      refine onNumbers_agrees h _ fun a b => ?_
      rw [Primitive.bounded_product]
      exact bounded_agrees _ a b _
  | equal => exact onNumbers_agrees h _ fun a b => .pure (.bool _)
  | less => exact onNumbers_agrees h _ fun a b => .pure (.bool _)
  | and => exact onBooleans_agrees h _ _
  | or => exact onBooleans_agrees h _ _
  | isZero =>
      match h with
      | .nil => exact misuse_agrees _ rfl
      | .cons ha .nil =>
          have htext := congrArg (fun t => Misuse.operands (utf8 "a number") [t]) ha.toText_eq
          cases ha with
          | num n => exact .pure (.bool _)
          | _ => exact misuse_agrees _ htext
      | .cons _ (.cons _ _) =>
          simp only [Primitive.apply, delta]
          exact misuse_agrees _ (congrArg (Misuse.arity 1) hlength)
  | not =>
      match h with
      | .nil => exact misuse_agrees _ rfl
      | .cons ha .nil =>
          have htext := congrArg (fun t => Misuse.operands (utf8 "a boolean") [t]) ha.toText_eq
          cases ha with
          | bool b => exact .pure (.bool _)
          | _ => exact misuse_agrees _ htext
      | .cons _ (.cons _ _) =>
          simp only [Primitive.apply, delta]
          exact misuse_agrees _ (congrArg (Misuse.arity 1) hlength)

end delta

theorem project_agrees (range : Range) (name : Name) {v : TypedSexp.Value} {w : Value}
    (h : Denotes s v w) :
    Agrees Denotes (Expr.projectFrom range name v) (project range name w) s := by
  have htext := h.toText_eq
  cases h with
  | @record fields fields' hfields =>
      have hlookup := hfields.lookup name
      simp only [Expr.projectFrom, project]
      cases hv : fields.lookup name <;> cases hw : fields'.lookup name <;> rw [hv, hw] at hlookup
      · exact .fault range (congrArg (Cause.missingMember name · false .runtime) htext)
      · cases hlookup
      · cases hlookup
      · cases hlookup with
        | some hdenotes => exact .pure hdenotes
  | @union variant payload payload' hpayload =>
      simp only [Expr.projectFrom, project]
      split
      · exact .pure hpayload
      · exact .fault range rfl
  | _ => exact .fault range (congrArg (Cause.notProjectable · name .runtime) htext)

theorem eval_agrees (fuel : Nat) {scope : Nat} {env : Env} (henv : DenotesEnv s scope env)
    (e : Expr) : Agrees Denotes (e.eval fuel scope) (eval fuel env e) s := by
  induction fuel generalizing s scope env e with
  | zero => exact rfl
  | succ fuel ih =>
      cases e with
      | var range name =>
          have hlookup := henv.lookup name
          simp only [Expr.eval, eval]
          refine .get_bind ?_
          cases hv : s.lookup? scope name <;> cases hw : env.lookup name <;> rw [hv, hw] at hlookup
          · exact .fault range rfl
          · cases hlookup
          · cases hlookup
          · cases hlookup with
            | some hdenotes => exact .pure hdenotes
      | num range n => exact .pure (.num n)
      | bool range b => exact .pure (.bool b)
      | lambda range param paramType body => exact .pure (.closure henv)
      | apply range head args =>
          refine (ih henv head).bind fun v w s₁ h₁ hvw => ?_
          have htext := hvw.toText_eq
          cases hvw with
          | @closure param body captured capturedEnv hcaptured =>
              rcases args with _ | ⟨arg, _ | ⟨second, rest⟩⟩
              · exact .fault range rfl
              · refine (ih (henv.mono h₁) arg).bind fun u u' s₂ h₂ hu => ?_
                exact .newScope (ih ((hcaptured.mono h₂).newScope param hu) body)
              · exact .fault range rfl
          | prim p =>
              refine (Agrees.mapM (fun hext h => h.mono hext) (.refl s₁) fun arg _ s' h' =>
                ih (henv.mono (h₁.trans h')) arg).bind fun vs ws s₂ _ hvs => ?_
              exact delta_agrees hvs p
          | _ => exact .fault range (congrArg (Cause.notAFunction · .runtime) htext)
      | cond range guard thenBranch elseBranch =>
          refine (ih henv guard).bind fun v w s₁ h₁ hvw => ?_
          have htext := hvw.toText_eq
          cases hvw with
          | bool b =>
              cases b with
              | true => exact ih (henv.mono h₁) thenBranch
              | false => exact ih (henv.mono h₁) elseBranch
          | _ => exact .fault guard.range (congrArg Cause.notABoolean htext)
      | record range fields =>
          refine Agrees.bind (R := fun s as bs =>
            List.Forall₂ (fun a b => a.1 = b.1 ∧ Denotes s a.2 b.2) as bs) ?_ ?_
          · refine .mapM (fun hext h => ⟨h.1, h.2.mono hext⟩) (.refl s) fun field _ s' h' => ?_
            exact (ih (henv.mono h') field.2).bind fun v w s₁ _ hvw => .pure ⟨rfl, hvw⟩
          · exact fun vs ws s₁ _ hvs => .pure (.ofFields hvs)
      | project range target name =>
          exact (ih henv target).bind fun v w s₁ _ hvw => project_agrees range name hvw
      | inject range variant payload =>
          exact (ih henv payload).bind fun v w s₁ _ hvw => .pure (.union hvw)

theorem eval_refines_lexical (e : Expr) :
    (∀ fuel, ((e.eval fuel programScope).startingFrom Store.initial).1 = .error .outOfFuel ∧
      eval fuel primitives e = .error .outOfFuel) ∨
    (∃ fuel d, ∀ more ≥ fuel,
      ((e.eval more programScope).startingFrom Store.initial).1 = .error (.fault d) ∧
      eval more primitives e = .error (.fault d)) ∨
    ∃ fuel v w s, Denotes s v w ∧ v.toText = w.toText ∧ ∀ more ≥ fuel,
      (e.eval more programScope).startingFrom Store.initial = (.ok v, s) ∧
      eval more primitives e = .ok w := by
  have hagrees (fuel : Nat) := eval_agrees fuel initial_denotes e
  by_cases hdiverges : ∀ fuel,
      ((e.eval fuel programScope).startingFrom Store.initial).1 = .error .outOfFuel
  · exact .inl fun fuel => ⟨hdiverges fuel, (hagrees fuel).of_error (Prod.ext (hdiverges fuel) rfl)⟩
  · obtain ⟨fuel, hfuel⟩ := Classical.not_forall.mp hdiverges
    rcases hresult : (e.eval fuel programScope).startingFrom Store.initial with ⟨result, s⟩
    have hne : result ≠ .error .outOfFuel := by
      rw [hresult] at hfuel
      exact hfuel
    have hmore (more : Nat) (hle : fuel ≤ more) :
        (e.eval more programScope).startingFrom Store.initial = (result, s) :=
      (e.eval_below hle programScope Store.initial).eq_of_ne hresult hne
    match result with
    | .error .outOfFuel => exact absurd rfl hne
    | .error (.fault d) =>
        refine .inr (.inl ⟨fuel, d, fun more hle => ⟨by rw [hmore more hle], ?_⟩⟩)
        exact (hagrees more).of_error (hmore more hle)
    | .ok v =>
        obtain ⟨-, w, -, hw⟩ := (hagrees fuel).of_ok hresult
        refine .inr (.inr ⟨fuel, v, w, s, hw, hw.toText_eq, fun more hle => ⟨hmore more hle, ?_⟩⟩)
        obtain ⟨-, w', hw', hdenotes⟩ := (hagrees more).of_ok (hmore more hle)
        rw [hw', hw.unique hdenotes]

end Lexical

end TypedSexp
