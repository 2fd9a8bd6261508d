import TypedSexp.Proofs.Expr.WellFormed
import TypedSexp.Typing.Check

namespace TypedSexp

namespace Context

def Within (Γ Δ : Context) : Prop := ∀ x t, Γ.lookup? x = some t → Δ.lookup? x = some t

theorem Within.refl (Γ : Context) : Γ.Within Γ := fun _ _ h => h

theorem Within.trans {Γ Δ Θ : Context} (h : Γ.Within Δ) (h' : Δ.Within Θ) : Γ.Within Θ :=
  fun x t hx => h' x t (h x t hx)

theorem Within.extend {Γ Δ : Context} (h : Γ.Within Δ) (name : Name) (t : Ty) :
    (Γ.extend name t).Within (Δ.extend name t) := by
  intro x u hx
  rw [lookup?_extend] at hx ⊢
  split <;> simp_all [Within]

def All (T : Ty → Prop) (Γ : Context) : Prop := ∀ x t, Γ.lookup? x = some t → T t

theorem All.extend {T : Ty → Prop} {Γ : Context} (h : Γ.All T) (name : Name) {t : Ty} (ht : T t) :
    (Γ.extend name t).All T := by
  intro x u hx
  rw [lookup?_extend] at hx
  split at hx
  · cases hx
    exact ht
  · exact h x u hx

def Ordered (Γ : Context) : Prop := Γ.All Ty.Ordered

end Context

namespace Expr

mutual

def mentions (x : Name) : Expr → Bool
  | .var _ name => name = x
  | .num .. => false
  | .bool .. => false
  | .lambda _ param _ body => param ≠ x && mentions x body
  | .apply _ head args => mentions x head || mentionsAny x args
  | .cond _ guard thenBranch elseBranch =>
      mentions x guard || mentions x thenBranch || mentions x elseBranch
  | .record _ fields => mentionsField x fields
  | .project _ target _ => mentions x target
  | .inject _ _ payload => mentions x payload

def mentionsAny (x : Name) : List Expr → Bool
  | [] => false
  | e :: rest => mentions x e || mentionsAny x rest

def mentionsField (x : Name) : List (Name × Expr) → Bool
  | [] => false
  | (_, e) :: rest => mentions x e || mentionsField x rest

end

mutual

def captures (x : Name) : Expr → Bool
  | .var .. => false
  | .num .. => false
  | .bool .. => false
  | .lambda range param paramType body => mentions x (.lambda range param paramType body)
  | .apply _ head args => captures x head || capturesAny x args
  | .cond _ guard thenBranch elseBranch =>
      captures x guard || captures x thenBranch || captures x elseBranch
  | .record _ fields => capturesField x fields
  | .project _ target _ => captures x target
  | .inject _ _ payload => captures x payload

def capturesAny (x : Name) : List Expr → Bool
  | [] => false
  | e :: rest => captures x e || capturesAny x rest

def capturesField (x : Name) : List (Name × Expr) → Bool
  | [] => false
  | (_, e) :: rest => captures x e || capturesField x rest

end

theorem inferAll_congr {args : List Expr} {Γ Δ : Context}
    (h : ∀ e ∈ args, infer Γ e = infer Δ e) : inferAll Γ args = inferAll Δ args := by
  induction args with
  | nil => rfl
  | cons e rest ih =>
      obtain ⟨he, hrest⟩ := List.forall_mem_cons.mp h
      simp only [inferAll, he, ih hrest]

theorem inferFields_congr {fields : List (Name × Expr)} {Γ Δ : Context}
    (h : ∀ field ∈ fields, infer Γ field.2 = infer Δ field.2) :
    inferFields Γ fields = inferFields Δ fields := by
  induction fields with
  | nil => rfl
  | cons field rest ih =>
      obtain ⟨hfield, hrest⟩ := List.forall_mem_cons.mp h
      simp only [inferFields, hfield, ih hrest]

theorem mentionsAny_of_mem {x : Name} {args : List Expr} {e : Expr} (hmem : e ∈ args)
    (h : e.mentions x = true) : mentionsAny x args = true := by
  induction args with
  | nil => simp at hmem
  | cons first rest ih =>
      rcases List.mem_cons.mp hmem with rfl | hmem
      · simp [mentionsAny, h]
      · simp [mentionsAny, ih hmem]

theorem mentionsField_of_mem {x : Name} {fields : List (Name × Expr)} {field : Name × Expr}
    (hmem : field ∈ fields) (h : field.2.mentions x = true) :
    mentionsField x fields = true := by
  induction fields with
  | nil => simp at hmem
  | cons first rest ih =>
      rcases List.mem_cons.mp hmem with rfl | hmem
      · simp [mentionsField, h]
      · simp [mentionsField, ih hmem]

theorem infer_congr (e : Expr) {Γ Δ : Context}
    (h : ∀ x, e.mentions x = true → Γ.lookup? x = Δ.lookup? x) : infer Γ e = infer Δ e := by
  induction e using Expr.induct generalizing Γ Δ with
  | var range name => simp only [infer, h name (by simp [mentions])]
  | num => rfl
  | bool => rfl
  | lambda range param paramType body ih =>
      have hbody : infer (Γ.extend param paramType) body = infer (Δ.extend param paramType) body := by
        refine ih fun x hx => ?_
        rw [Context.lookup?_extend, Context.lookup?_extend]
        split
        · rfl
        case isFalse hne => exact h x (by simp [mentions, hx, Ne.symm hne])
      simp only [infer, hbody]
  | apply range head args ihhead ihargs =>
      have hhead := ihhead fun x hx => h x (by simp [mentions, hx])
      have hargs := inferAll_congr fun e he => ihargs e he fun x hx =>
        h x (by simp [mentions, mentionsAny_of_mem he hx])
      simp only [infer, hhead, hargs]
  | cond range guard thenBranch elseBranch ihguard ihthen ihelse =>
      have hguard := ihguard fun x hx => h x (by simp [mentions, hx])
      have hthen := ihthen fun x hx => h x (by simp [mentions, hx])
      have helse := ihelse fun x hx => h x (by simp [mentions, hx])
      simp only [infer, hguard, hthen, helse]
  | record range fields ih =>
      have hfields := inferFields_congr fun field hfield => ih field hfield fun x hx =>
        h x (by simp [mentions, mentionsField_of_mem hfield hx])
      simp only [infer, hfields]
  | project range target name ih =>
      have htarget := ih fun x hx => h x (by simp [mentions, hx])
      simp only [infer, htarget]
  | inject range variant payload ih =>
      have hpayload := ih fun x hx => h x (by simp [mentions, hx])
      simp only [infer, hpayload]

theorem bound_of_inferAll {args : List Expr} {Γ : Context} {types : List Ty} {x : Name}
    (h : ∀ e ∈ args, ∀ t, infer Γ e = .ok t → e.mentions x = true → ∃ u, Γ.lookup? x = some u)
    (ht : inferAll Γ args = .ok types) (hx : mentionsAny x args = true) :
    ∃ u, Γ.lookup? x = some u := by
  induction args generalizing types with
  | nil => simp [mentionsAny] at hx
  | cons e rest ih =>
      obtain ⟨he, hrest⟩ := List.forall_mem_cons.mp h
      simp only [inferAll, Except.bind_eq_ok_iff] at ht
      obtain ⟨t, het, types', htypes, -⟩ := ht
      simp only [mentionsAny, Bool.or_eq_true] at hx
      rcases hx with hx | hx
      · exact he t het hx
      · exact ih hrest htypes hx

theorem bound_of_inferFields {fields : List (Name × Expr)} {Γ : Context}
    {entries : List (Name × Ty)} {x : Name}
    (h : ∀ field ∈ fields, ∀ t, infer Γ field.2 = .ok t → field.2.mentions x = true →
      ∃ u, Γ.lookup? x = some u)
    (ht : inferFields Γ fields = .ok entries) (hx : mentionsField x fields = true) :
    ∃ u, Γ.lookup? x = some u := by
  induction fields generalizing entries with
  | nil => simp [mentionsField] at hx
  | cons field rest ih =>
      obtain ⟨hfield, hrest⟩ := List.forall_mem_cons.mp h
      simp only [inferFields, Except.bind_eq_ok_iff] at ht
      obtain ⟨t, het, entries', hentries, -⟩ := ht
      simp only [mentionsField, Bool.or_eq_true] at hx
      rcases hx with hx | hx
      · exact hfield t het hx
      · exact ih hrest hentries hx

theorem bound_of_infer (e : Expr) {Γ : Context} {t : Ty} {x : Name} (ht : infer Γ e = .ok t)
    (hx : e.mentions x = true) : ∃ u, Γ.lookup? x = some u := by
  induction e using Expr.induct generalizing Γ t with
  | var range name =>
      obtain rfl : name = x := by simpa [mentions] using hx
      simp only [infer] at ht
      split at ht
      case h_1 u hu => exact ⟨u, hu⟩
      case h_2 => simp at ht
  | num => simp [mentions] at hx
  | bool => simp [mentions] at hx
  | lambda range param paramType body ih =>
      simp only [infer, Except.bind_eq_ok_iff] at ht
      obtain ⟨output, hbody, -⟩ := ht
      simp only [mentions, Bool.and_eq_true, decide_eq_true_eq] at hx
      obtain ⟨u, hu⟩ := ih hbody hx.2
      rw [Context.lookup?_extend, if_neg (Ne.symm hx.1)] at hu
      exact ⟨u, hu⟩
  | apply range head args ihhead ihargs =>
      simp only [infer, Except.bind_eq_ok_iff] at ht
      obtain ⟨headType, hhead, argTypes, hargs, -⟩ := ht
      simp only [mentions, Bool.or_eq_true] at hx
      rcases hx with hx | hx
      · exact ihhead hhead hx
      · exact bound_of_inferAll (fun e he t ht hx => ihargs e he ht hx) hargs hx
  | cond range guard thenBranch elseBranch ihguard ihthen ihelse =>
      simp only [infer, Except.bind_eq_ok_iff] at ht
      obtain ⟨guardType, hguard, ht⟩ := ht
      split at ht
      case isTrue =>
        simp only [Except.bind_eq_ok_iff] at ht
        obtain ⟨thenType, hthen, elseType, helse, -⟩ := ht
        simp only [mentions, Bool.or_eq_true] at hx
        rcases hx with (hx | hx) | hx
        · exact ihguard hguard hx
        · exact ihthen hthen hx
        · exact ihelse helse hx
      case isFalse => simp [mismatch] at ht
  | record range fields ih =>
      simp only [infer, Except.bind_eq_ok_iff] at ht
      obtain ⟨entries, hfields, -⟩ := ht
      exact bound_of_inferFields (fun field hfield t ht hx => ih field hfield ht hx) hfields hx
  | project range target name ih =>
      simp only [infer, Except.bind_eq_ok_iff] at ht
      obtain ⟨targetType, htarget, -⟩ := ht
      exact ih htarget hx
  | inject range variant payload ih =>
      simp only [infer, Except.bind_eq_ok_iff] at ht
      obtain ⟨payloadType, hpayload, -⟩ := ht
      exact ih hpayload hx

theorem infer_of_agree {e : Expr} {Γ Δ : Context} {t : Ty} (ht : infer Γ e = .ok t)
    (h : ∀ x u, e.mentions x = true → Γ.lookup? x = some u → Δ.lookup? x = some u) :
    infer Δ e = .ok t := by
  rw [← ht]
  refine (infer_congr e fun x hx => ?_).symm
  obtain ⟨u, hu⟩ := bound_of_infer e ht hx
  rw [hu, h x u hx hu]

theorem infer_of_within {e : Expr} {Γ Δ : Context} {t : Ty} (ht : infer Γ e = .ok t)
    (h : Γ.Within Δ) : infer Δ e = .ok t :=
  infer_of_agree ht fun x u _ hu => h x u hu

end Expr

end TypedSexp
