import TypedSexp.Proofs.Expr.Places
import TypedSexp.Proofs.Session.Batch

/-!
The places that diagnostics of reading and checking name. Reading and checking move with the places
of what they look at, so they can only report places that are there.
-/

namespace TypedSexp

theorem Range.holds_of_fixed {W : Range → Prop} {r : Range}
    (h : ∀ f : Range → Range, (∀ r', W r' → f r' = r') → f r = r) : W r := by
  classical
  by_contra hr
  -- this moves exactly the places without `W`
  have hmoved := h (fun r' => if W r' then r' else ⟨r'.start + 1, r'.stop⟩) fun r' hr' => if_pos hr'
  rw [if_neg hr] at hmoved
  have hstart := congrArg Range.start hmoved
  simp only at hstart
  omega

theorem Diagnostic.holds_of_relocate {α : Type} {W : Range → Prop} {x : Except Diagnostic α}
    {d : Diagnostic} (hx : x = .error d)
    (h : ∀ f : Range → Range, (∀ r, W r → f r = r) → ∃ g, x = x.relocate f g) : W d.range := by
  refine Range.holds_of_fixed fun f hf => ?_
  obtain ⟨g, hmoved⟩ := h f hf
  rw [hx] at hmoved
  have hd : d = d.relocate f := Except.error.inj hmoved
  exact (congrArg Diagnostic.range hd).symm

variable {f : Range → Range} {d : Diagnostic}

theorem Sexp.relocate_eq_self {s : Sexp} (h : ∀ r, s.HasPlace r → f r = r) : s.relocate f = s := by
  induction s using Sexp.induct with
  | atom range text =>
      have hrange : f range = range := h range ⟨_, .self, rfl⟩
      rw [relocate, hrange]
  | list range elems ih =>
      have hrange : f range = range := h range ⟨_, .self, rfl⟩
      have helems : ∀ s ∈ elems, s.relocate f = s := fun s hs => ih s hs fun r hr => by
        obtain ⟨part, hpart, hr⟩ := hr
        exact h r ⟨part, .inside hs hpart, hr⟩
      rw [relocate, relocateAll_eq_map, hrange, List.map_congr_left helems, List.map_id']

theorem Expr.relabel_eq_self {e : Expr} (h : ∀ r, e.HasPlace r → f r = r) : e.relabel f id = e := by
  induction e using Expr.induct with
  | var range name => exact congrArg (Expr.var · name) (h range ⟨_, .self, rfl⟩)
  | num range value => exact congrArg (Expr.num · value) (h range ⟨_, .self, rfl⟩)
  | bool range value => exact congrArg (Expr.bool · value) (h range ⟨_, .self, rfl⟩)
  | lambda range param paramType body ih =>
      have hrange : f range = range := h range ⟨_, .self, rfl⟩
      have hbody := ih fun r hr => h r (hr.inside (by simp [children]))
      rw [relabel, hrange, hbody, id_eq]
  | apply range head args ihhead ihargs =>
      have hrange : f range = range := h range ⟨_, .self, rfl⟩
      have hhead := ihhead fun r hr => h r (hr.inside (by simp [children]))
      have hargs : ∀ arg ∈ args, arg.relabel f id = arg := fun arg harg =>
        ihargs arg harg fun r hr => h r (hr.inside (by simp [children, harg]))
      rw [relabel, relabelAll_eq_map, hrange, hhead, List.map_congr_left hargs, List.map_id']
  | cond range guard thenBranch elseBranch ihguard ihthen ihelse =>
      have hrange : f range = range := h range ⟨_, .self, rfl⟩
      have hguard := ihguard fun r hr => h r (hr.inside (by simp [children]))
      have hthen := ihthen fun r hr => h r (hr.inside (by simp [children]))
      have helse := ihelse fun r hr => h r (hr.inside (by simp [children]))
      rw [relabel, hrange, hguard, hthen, helse]
  | record range fields ih =>
      have hrange : f range = range := h range ⟨_, .self, rfl⟩
      have hfields : ∀ field ∈ fields, field.2.relabel f id = field.2 := fun field hfield =>
        ih field hfield fun r hr => h r (hr.inside (List.mem_map_of_mem hfield))
      rw [relabel, relabelFields_eq_map, hrange, Members.map_eq_self hfields]
  | project range target name ih =>
      have hrange : f range = range := h range ⟨_, .self, rfl⟩
      have htarget := ih fun r hr => h r (hr.inside (by simp [children]))
      rw [relabel, hrange, htarget]
  | inject range variant payload ih =>
      have hrange : f range = range := h range ⟨_, .self, rfl⟩
      have hpayload := ih fun r hr => h r (hr.inside (by simp [children]))
      rw [relabel, hrange, hpayload]

namespace Stmt

def HasPlace (stmt : Stmt) (r : Range) : Prop :=
  stmt.range = r ∨ ∃ e ∈ stmt.children, e.HasPlace r

theorem relabel_eq_self {stmt : Stmt} (h : ∀ r, stmt.HasPlace r → f r = r) :
    stmt.relabel f id = stmt := by
  have hrange : f stmt.range = stmt.range := h _ (.inl rfl)
  have hchild : ∀ e ∈ stmt.children, e.relabel f id = e := fun e he =>
    Expr.relabel_eq_self fun r hr => h r (.inr ⟨e, he, hr⟩)
  cases stmt with
  | define range name value =>
      have hvalue := hchild value (by simp [children])
      rw [relabel, hvalue]
      exact congrArg (Stmt.define · name value) hrange
  | assign range target value =>
      have htarget := hchild target (by simp [children])
      have hvalue := hchild value (by simp [children])
      rw [relabel, htarget, hvalue]
      exact congrArg (Stmt.assign · target value) hrange
  | print range value =>
      have hvalue := hchild value (by simp [children])
      rw [relabel, hvalue]
      exact congrArg (Stmt.print · value) hrange

end Stmt

theorem Script.hasPlace_of_ofSexps_error {ss : List Sexp} (h : ofSexps ss = .error d) :
    ∃ s ∈ ss, s.HasPlace d.range := by
  refine Diagnostic.holds_of_relocate (W := fun r => ∃ s ∈ ss, s.HasPlace r) h fun f hf => ?_
  have hss : ss.map (Sexp.relocate f) = ss := by
    have hs : ∀ s ∈ ss, s.relocate f = s := fun s hs =>
      Sexp.relocate_eq_self fun r hr => hf r ⟨s, hs, hr⟩
    rw [List.map_congr_left hs, List.map_id']
  have hmoved := Script.ofSexps_relocate f ss
  rw [hss] at hmoved
  exact ⟨_, hmoved⟩

theorem Session.hasPlace_of_contextsAfter_error {checking : Bool} {Γ : Context} {script : Script}
    (h : contextsAfter checking Γ script = .error d) : ∃ stmt ∈ script, stmt.HasPlace d.range := by
  refine Diagnostic.holds_of_relocate (W := fun r => ∃ stmt ∈ script, stmt.HasPlace r) h
    fun f hf => ?_
  have hscript : script.map (Stmt.relabel f id) = script := by
    have hstmt : ∀ stmt ∈ script, stmt.relabel f id = stmt := fun stmt hstmt =>
      Stmt.relabel_eq_self fun r hr => hf r ⟨stmt, hstmt, hr⟩
    rw [List.map_congr_left hstmt, List.map_id']
  have hmoved := contextsAfter_relabel f checking Γ script
  rw [hscript] at hmoved
  exact ⟨_, hmoved⟩

def Sexp.IsPlace (source : Text) (r : Range) : Prop := ∃ s, IsNode source s ∧ s.range = r

theorem Script.isPlace_of_hasPlace {source : Text} {script : Script} {stmt : Stmt} {r : Range}
    (hread : Script.read source = .ok script) (hstmt : stmt ∈ script) (hr : stmt.HasPlace r) :
    Sexp.IsPlace source r := by
  obtain ⟨s, hnode, hspelled⟩ := Script.exists_node_of_mem hread hstmt
  rcases hr with rfl | ⟨e, he, part, hpart, rfl⟩
  · exact ⟨s, hnode, (Stmt.ofSexp_spelledIn hspelled).1.symm⟩
  · obtain ⟨s', hnode', hpart'⟩ := Stmt.exists_node_of_partOf he hpart hnode hspelled
    exact ⟨s', hnode', hpart'.2.symm⟩

namespace Diagnostic

structure PointsInto (source : Text) (d : Diagnostic) : Prop where
  bounds : 1 ≤ d.range.start ∧ d.range.start < d.range.stop ∧ d.range.stop ≤ source.length + 1
  place : Sexp.IsPlace source d.range ∨
    ∃ (fault : ReadFault) (k : Nat), d = ⟨Range.ofOffsets k (k + 1), .unreadable fault⟩ ∧
      (Sexp.StandsAt source Byte.openParen k ∨ Sexp.StandsAt source Byte.closeParen k)
  shown : ∃ place, LineCol.ofPosition? source d.range.start = some place ∧
    ∀ file, d.format file source = file ++ utf8 ":" ++ Text.ofNat place.line ++ utf8 ":" ++
      Text.ofNat place.column ++ utf8 ": " ++ d.withCode

variable {source : Text}

theorem shown_of_bounds (h : 1 ≤ d.range.start ∧ d.range.start ≤ source.length + 1) :
    ∃ place, LineCol.ofPosition? source d.range.start = some place ∧
      ∀ file, d.format file source = file ++ utf8 ":" ++ Text.ofNat place.line ++ utf8 ":" ++
        Text.ofNat place.column ++ utf8 ": " ++ d.withCode := by
  have hplace : LineCol.ofPosition? source d.range.start =
      some (LineCol.advance ⟨1, 1⟩ (source.take (d.range.start - 1).toNat)) := if_pos h
  refine ⟨_, hplace, fun file => ?_⟩
  rw [format, hplace]

theorem pointsInto_of_isPlace (h : Sexp.IsPlace source d.range) : d.PointsInto source := by
  obtain ⟨s, hnode, hrange⟩ := h
  have hbounds := hnode.takenFrom.bounds
  rw [hrange] at hbounds
  exact ⟨hbounds, .inl ⟨s, hnode, hrange⟩, shown_of_bounds (by omega)⟩

theorem pointsInto_of_flaw (h : Sexp.Flaw source d) : d.PointsInto source := by
  have hparen {c : UInt8} {k : Nat} {fault : ReadFault} (hk : Sexp.StandsAt source c k)
      (hc : c = Byte.openParen ∨ c = Byte.closeParen) :
      PointsInto source ⟨Range.ofOffsets k (k + 1), .unreadable fault⟩ := by
    have hlength := hk.lt_length
    refine ⟨?_, .inr ⟨fault, k, rfl, ?_⟩, shown_of_bounds ?_⟩
    · simp only [Range.ofOffsets]
      omega
    · rcases hc with rfl | rfl
      · exact .inl hk
      · exact .inr hk
    · simp only [Range.ofOffsets]
      omega
  cases h with
  | unmatched h => exact hparen h.1 (.inr rfl)
  | unclosed _ h => exact hparen h.1 (.inl rfl)

theorem pointsInto_of_read_error (h : Script.read source = .error d) : d.PointsInto source := by
  cases hread : Sexp.readAll source with
  | error d' =>
      obtain rfl : d' = d := by
        rw [Script.read, hread] at h
        cases h
        rfl
      exact pointsInto_of_flaw (Sexp.readAll_flaw hread)
  | ok ss =>
      rw [Script.read, hread] at h
      obtain ⟨s, hs, part, hpart, hrange⟩ := Script.hasPlace_of_ofSexps_error h
      exact pointsInto_of_isPlace ⟨part, ⟨ss, hread, s, hs, hpart⟩, hrange⟩

theorem pointsInto_of_contextsAfter_error {script : Script} {checking : Bool} {Γ : Context}
    (hread : Script.read source = .ok script)
    (h : Session.contextsAfter checking Γ script = .error d) : d.PointsInto source := by
  obtain ⟨stmt, hstmt, hplace⟩ := Session.hasPlace_of_contextsAfter_error h
  exact pointsInto_of_isPlace (Script.isPlace_of_hasPlace hread hstmt hplace)

end Diagnostic

end TypedSexp
