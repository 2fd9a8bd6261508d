import Mathlib.Logic.Relation
import TypedSexp.Proofs.Run.Representation

namespace TypedSexp

open Store (programScope)

/-- A store in use: the scopes and the values that the caller has been given, and the scopes that
calls of functions have made. -/
structure World where
  store : Store
  handles : List Nat
  values : List Value
  called : List Nat

namespace World

def empty : World := ⟨Store.root, [0], [], []⟩

def initial : World := ⟨Store.initial, [programScope], [], []⟩

/-- One use of a store. A use that fails changes nothing but for what evaluation had done. -/
inductive Step : World → World → Prop
  | child {w : World} {h : Nat} :
      h ∈ w.handles →
      Step w ⟨(w.store.newScope (some h) []).2, w.store.size :: w.handles, w.values, w.called⟩
  | extend {w : World} {h : Nat} {name : Name} {v : Value} :
      h ∈ w.handles → v ∈ w.values →
      Step w ⟨(w.store.newScope (some h) [(name, v)]).2, w.store.size :: w.handles, w.values,
        w.called⟩
  | parent {w : World} {h outer : Nat} :
      h ∈ w.handles → w.store.parent? h = some outer →
      Step w ⟨w.store, outer :: w.handles, w.values, w.called⟩
  | define {w : World} {h : Nat} {range : Range} {name : Name} {v : Value} {store : Store} :
      h ∈ w.handles → v ∈ w.values → w.store.define h range name v = .ok store →
      Step w ⟨store, w.handles, w.values, w.called⟩
  | update {w : World} {h : Nat} {name : Name} {v : Value} {store : Store} :
      h ∈ w.handles → v ∈ w.values → w.store.update h name v = .ok store →
      Step w ⟨store, w.handles, w.values, w.called⟩
  | evaluate {w : World} {h fuel : Nat} {e : Expr} {result : Except Halt Value} {store : Store} :
      h ∈ w.handles → (e.eval fuel h).startingFrom w.store = (result, store) →
      Step w ⟨store, w.handles, result.toOption.toList ++ w.values,
        w.called ++ List.range' w.store.size (e.activations fuel h w.store).length⟩
  | execute {w : World} {h fuel : Nat} {script : Script} {result : Except Halt (List Text)}
      {store : Store} :
      h ∈ w.handles → (script.exec fuel h).startingFrom w.store = (result, store) →
      Step w ⟨store, w.handles, w.values,
        w.called ++ List.range' w.store.size (script.activations fuel h w.store).length⟩

abbrev Steps : World → World → Prop := Relation.ReflTransGen Step

def Reachable (w : World) : Prop := Steps empty w ∨ Steps initial w

/-- No scope of a call is seen from a scope that the caller has been given. A caller that took the
scope out of a function could write to the scopes of earlier calls. -/
def Outside (w : World) : Prop := ∀ h ∈ w.handles, ∀ id ∈ w.called, id ∉ w.store.chain h

structure Valid (w : World) : Prop where
  linked : w.store.Linked
  handles : ∀ h ∈ w.handles, h < w.store.size
  values : ∀ v ∈ w.values, v.Within w.store.size
  called : ∀ id ∈ w.called, id < w.store.size
  outside : w.Outside

theorem empty_valid : empty.Valid where
  linked := Store.root_linked
  handles := by simp [empty, Store.root, Store.size]
  values := by simp [empty]
  called := by simp [empty]
  outside := by simp [Outside, empty]

theorem initial_valid : initial.Valid where
  linked := Store.initial_sound.toLinked
  handles := by simpa [initial] using Store.initial_sound.program
  values := by simp [initial]
  called := by simp [initial]
  outside := by simp [Outside, initial]

variable {w w' : World}

theorem Valid.newScope (hw : w.Valid) {h : Nat} (hh : h ∈ w.handles)
    {bindings : List (Name × Value)}
    (hbindings : ∀ binding ∈ bindings, binding.2.Within w.store.size)
    (hnodup : (Members.names bindings).Nodup) :
    Valid ⟨(w.store.newScope (some h) bindings).2, w.store.size :: w.handles, w.values,
      w.called⟩ := by
  have hlt := hw.handles h hh
  have hsize := Store.size_newScope w.store (some h) bindings
  have hkeeps := Store.Extends.newScope w.store (some h) bindings
  constructor
  case linked => exact hw.linked.newScope hlt hbindings hnodup
  case handles =>
    refine List.forall_mem_cons.mpr ⟨by simp [hsize], fun i hi => ?_⟩
    exact Nat.lt_of_lt_of_le (hw.handles i hi) hkeeps.size_le
  case values => exact fun v hv => (hw.values v hv).mono hkeeps.size_le
  case called => exact fun i hi => Nat.lt_of_lt_of_le (hw.called i hi) hkeeps.size_le
  case outside =>
    refine List.forall_mem_cons.mpr ⟨fun i hi => ?_, fun j hj i hi => ?_⟩
    · rw [Store.chain_newScope hlt bindings, List.mem_cons, not_or]
      exact ⟨Nat.ne_of_lt (hw.called i hi), hw.outside h hh i hi⟩
    · rw [hkeeps.chain_eq (hw.handles j hj)]
      exact hw.outside j hj i hi

theorem Valid.course (hw : w.Valid) {h : Nat} {assigned : List Name} {calls : List Activation}
    {store : Store} (hcourse : w.store.Course h assigned calls store) (hlinked : store.Linked)
    {values : List Value} (hvalues : ∀ v ∈ values, v.Within store.size) :
    Valid ⟨store, w.handles, values,
      w.called ++ List.range' w.store.size calls.length⟩ := by
  constructor
  case linked => exact hlinked
  case handles =>
    intro i hi
    exact Nat.lt_of_lt_of_le (hw.handles i hi) hcourse.size_le
  case values => exact hvalues
  case called =>
    intro i hi
    rcases List.mem_append.mp hi with hold | hnew
    · exact Nat.lt_of_lt_of_le (hw.called i hold) hcourse.size_le
    · rw [hcourse.size]
      exact (List.mem_range'_1.mp hnew).2
  case outside =>
    intro j hj i hi
    have hlt := hw.handles j hj
    rw [hcourse.chain_eq hlt]
    rcases List.mem_append.mp hi with hold | hnew
    · exact hw.outside j hj i hold
    · intro hmem
      have hle := Store.le_of_mem_chain hmem
      have hge := (List.mem_range'_1.mp hnew).1
      omega

def Keeps (w w' : World) : Prop :=
  ∀ id ∈ w.called, id ∈ w'.called ∧ w'.store.scope? id = w.store.scope? id

theorem Valid.keeps_newScope (hw : w.Valid) (parent : Option Nat)
    (bindings : List (Name × Value)) (handles : List Nat) (values : List Value) :
    w.Keeps ⟨(w.store.newScope parent bindings).2, handles, values, w.called⟩ :=
  fun id hid => ⟨hid,
    (Store.Extends.newScope w.store parent bindings).scope?_eq id (hw.called id hid)⟩

theorem Valid.keeps_course (hw : w.Valid) {h : Nat} (hh : h ∈ w.handles) {assigned : List Name}
    {calls : List Activation} {store : Store} (hcourse : w.store.Course h assigned calls store)
    (values : List Value) (called : List Nat) :
    w.Keeps ⟨store, w.handles, values, w.called ++ called⟩ :=
  fun id hid => ⟨List.mem_append_left _ hid,
    hcourse.offChain id (hw.called id hid) (hw.outside h hh id hid)⟩

theorem Step.valid_and_keeps (hstep : Step w w') (hw : w.Valid) : w'.Valid ∧ w.Keeps w' := by
  cases hstep with
  | child hh => exact ⟨hw.newScope hh (by simp) List.nodup_nil, hw.keeps_newScope _ _ _ _⟩
  | extend hh hv =>
      exact ⟨hw.newScope hh (by simpa using hw.values _ hv) (by simp [Members.names]),
        hw.keeps_newScope _ _ _ _⟩
  | @parent h outer hh houter =>
      have hlt := hw.linked.parent houter
      have hchain := Store.chain_of_parent houter hlt
      refine ⟨{ hw with handles := ?_, outside := ?_ }, fun id hid => ⟨hid, rfl⟩⟩
      · exact List.forall_mem_cons.mpr ⟨Nat.lt_trans hlt (hw.handles h hh), hw.handles⟩
      · refine List.forall_mem_cons.mpr ⟨fun id hid hmem => ?_, hw.outside⟩
        exact hw.outside h hh id hid (hchain ▸ List.mem_cons_of_mem _ hmem)
  | @define h range name v store hh hv hdefine =>
      have hcourse := Store.Course.define (hw.handles h hh) hdefine
      have hvalid := hw.course hcourse (hw.linked.define (hw.values v hv) hdefine)
        fun v hv => (hw.values v hv).mono hcourse.size_le
      have hkeeps := hw.keeps_course hh hcourse w.values []
      simpa using And.intro hvalid hkeeps
  | @update h name v store hh hv hupdate =>
      have hcourse := Store.Course.update hupdate
      have hvalid := hw.course hcourse (hw.linked.update (hw.values v hv) hupdate)
        fun v hv => (hw.values v hv).mono hcourse.size_le
      have hkeeps := hw.keeps_course hh hcourse w.values []
      simpa using And.intro hvalid hkeeps
  | @evaluate h fuel e result store hh hresult =>
      have hlt := hw.handles h hh
      have hhandles := e.eval_handles fuel hw.linked hlt
      have hcourse := Store.Course.of_scopes hlt (e.eval_appends fuel h w.store)
      have hlinked := hhandles.linked
      rw [hresult] at hcourse hlinked
      refine ⟨hw.course hcourse hlinked ?_, hw.keeps_course hh hcourse _ _⟩
      refine List.forall_mem_append.mpr
        ⟨fun v hv => ?_, fun v hv => (hw.values v hv).mono hcourse.size_le⟩
      cases result with
      | error halt => cases hv
      | ok u =>
          obtain rfl : v = u := by simpa [Except.toOption] using hv
          exact (hhandles.of_ok hresult).2.2
  | @execute h fuel script result store hh hresult =>
      have hlt := hw.handles h hh
      have hcourse := script.exec_course fuel hlt
      have hlinked := (script.exec_handles fuel hw.linked hlt).linked
      rw [hresult] at hcourse hlinked
      exact ⟨hw.course hcourse hlinked fun v hv => (hw.values v hv).mono hcourse.size_le,
        hw.keeps_course hh hcourse _ _⟩

theorem Steps.valid_and_keeps (hsteps : Steps w w') (hw : w.Valid) : w'.Valid ∧ w.Keeps w' := by
  induction hsteps with
  | refl => exact ⟨hw, fun id hid => ⟨hid, rfl⟩⟩
  | tail _ hstep ih =>
      obtain ⟨hvalid, hkeeps⟩ := ih
      obtain ⟨hvalid', hkeeps'⟩ := hstep.valid_and_keeps hvalid
      refine ⟨hvalid', fun id hid => ?_⟩
      obtain ⟨hid₁, hscope₁⟩ := hkeeps id hid
      obtain ⟨hid₂, hscope₂⟩ := hkeeps' id hid₁
      exact ⟨hid₂, hscope₂.trans hscope₁⟩

theorem Reachable.valid (hw : w.Reachable) : w.Valid := by
  rcases hw with hsteps | hsteps
  · exact (Steps.valid_and_keeps hsteps empty_valid).1
  · exact (Steps.valid_and_keeps hsteps initial_valid).1

theorem Step.usage (hstep : Step w w') (hw : w.Valid) (entries : List (Nat × Name)) :
    ∃ entries', Usage.Steps ⟨w.store, w.values, entries⟩ ⟨w'.store, w'.values, entries'⟩ := by
  cases hstep with
  | child hh => exact ⟨_, .single (.child (hw.handles _ hh))⟩
  | extend hh hv => exact ⟨_, .single (.extend (hw.handles _ hh) hv)⟩
  | parent => exact ⟨entries, .refl⟩
  | @define h range name v store hh hv hdefine =>
      have hresult : (Run.change (·.define h range name v)).startingFrom w.store =
          (.ok (), store) := by
        rw [Run.startingFrom_change, hdefine]
      exact ⟨_, .single (.define (hw.handles h hh) hv hresult)⟩
  | @update h name v store hh hv hupdate =>
      have hresult : (Run.change (·.update h name v)).startingFrom w.store = (.ok (), store) := by
        rw [Run.startingFrom_change, hupdate]
      exact ⟨_, .single (.update (hw.handles h hh) hv hresult)⟩
  | evaluate hh hresult => exact ⟨_, .single (.evaluate (hw.handles _ hh) hresult)⟩
  | execute hh hresult => exact ⟨_, .single (.execute (hw.handles _ hh) hresult)⟩

theorem Steps.usage (hsteps : Steps w w') (hw : w.Valid) (entries : List (Nat × Name)) :
    ∃ entries', Usage.Steps ⟨w.store, w.values, entries⟩ ⟨w'.store, w'.values, entries'⟩ := by
  induction hsteps with
  | refl => exact ⟨entries, .refl⟩
  | tail hsteps hstep ih =>
      obtain ⟨entries₁, hfirst⟩ := ih
      obtain ⟨entries₂, hsecond⟩ := hstep.usage (Steps.valid_and_keeps hsteps hw).1 entries₁
      exact ⟨entries₂, hfirst.trans hsecond⟩

theorem Reachable.usage (hw : w.Reachable) : ∃ u : Usage, u.Reachable ∧ u.store = w.store := by
  rcases hw with hsteps | hsteps
  · obtain ⟨entries, hentries⟩ := hsteps.usage empty_valid Usage.empty.entries
    exact ⟨_, .inl hentries, rfl⟩
  · obtain ⟨entries, hentries⟩ := hsteps.usage initial_valid Usage.initial.entries
    exact ⟨_, .inr hentries, rfl⟩

theorem scopes_change_by_statements_alone :
    (∀ u : Usage, u.Reachable →
      (u.store.Linked ∧ ∀ v ∈ u.values, v.Within u.store.size) ∧
      (∀ fuel id (e : Expr), id < u.store.size →
        u.store.Grown (e.activations fuel id u.store) ((e.eval fuel id).startingFrom u.store).2) ∧
      (∀ fuel id (stmt : Stmt), Run.Ensures (stmt.exec fuel id) u.store
        (fun _ s' => ∃ v s₁, (stmt.value.eval fuel id).startingFrom u.store = (.ok v, s₁) ∧
          stmt.Writes id v s₁ s')
        fun _ s' => s' = ((stmt.value.eval fuel id).startingFrom u.store).2) ∧
      ∀ fuel id (script : Script), id < u.store.size →
        u.store.Course id script.assigned (script.activations fuel id u.store)
          ((script.exec fuel id).startingFrom u.store).2) ∧
    ∀ w : World, w.Reachable →
      (∃ u : Usage, u.Reachable ∧ u.store = w.store) ∧
      (∀ h ∈ w.handles, h < w.store.size) ∧ w.Outside ∧
      ∀ w', Steps w w' → ∀ id ∈ w.called, w'.store.scope? id = w.store.scope? id := by
  constructor
  · intro u hu
    obtain ⟨hvalid, -⟩ := hu.layout
    exact ⟨⟨hvalid.linked, hvalid.values⟩, fun fuel id e hid => e.eval_grows fuel hvalid.linked hid,
      fun fuel id stmt => stmt.exec_effect fuel id u.store,
      fun fuel id script hid => script.exec_course fuel hid⟩
  · intro w hw
    have hvalid := hw.valid
    refine ⟨hw.usage, hvalid.handles, hvalid.outside, fun w' hsteps id hid => ?_⟩
    exact ((Steps.valid_and_keeps hsteps hvalid).2 id hid).2

theorem scopes_change_by_statements_alone_call :
    ∃ w : World, Usage.initial.Reachable ∧ w.Reachable ∧ w.called = [2] ∧
      Store.initial.Grown [⟨programScope, utf8 "x", .num 7⟩] w.store ∧
      ∀ w', Steps w w' → w'.store.scope? 2 = w.store.scope? 2 := by
  let e : Expr := .apply Range.none (.lambda Range.none (utf8 "x") .nat
    (.lambda Range.none (utf8 "y") .nat (.var Range.none (utf8 "x")))) [.num Range.none 7]
  have husage : Usage.initial.Reachable := .inr .refl
  have hgrown := (scopes_change_by_statements_alone.1 Usage.initial husage).2.1 2 programScope e
    (by decide)
  have hreachable : Reachable ⟨((e.eval 2 programScope).startingFrom Store.initial).2,
      [programScope], [.closure (utf8 "y") (.var Range.none (utf8 "x")) 2], [2]⟩ :=
    .inr (.single (.evaluate (List.mem_singleton_self programScope) rfl))
  obtain ⟨-, -, -, hkeeps⟩ := scopes_change_by_statements_alone.2 _ hreachable
  exact ⟨_, husage, hreachable, rfl, hgrown,
    fun w' hsteps => hkeeps w' hsteps 2 (List.mem_singleton_self 2)⟩

end World

end TypedSexp
