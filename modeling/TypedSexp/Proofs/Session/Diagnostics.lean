import TypedSexp.Proofs.Diagnostic.Places
import TypedSexp.Proofs.Run.Places

namespace TypedSexp

def Script.IsBodyPlace (source : Text) (r : Range) : Prop :=
  ∃ script, Script.read source = .ok script ∧ ∃ stmt ∈ script, ∃ e ∈ stmt.children,
    ∃ range param paramType body,
      Expr.PartOf (.lambda range param paramType body) e ∧ body.HasPlace r

theorem Script.IsBodyPlace.isPlace {source : Text} {r : Range} (h : IsBodyPlace source r) :
    Sexp.IsPlace source r := by
  obtain ⟨script, hread, stmt, hstmt, e, he, range, param, paramType, body, hpart, hr⟩ := h
  have hlambda : (Expr.lambda range param paramType body).HasPlace r :=
    hr.inside (by simp [Expr.children])
  exact Script.isPlace_of_hasPlace hread hstmt (.inr ⟨e, he, hpart.hasPlace hlambda⟩)

theorem Script.sited_of_read {source : Text} {script : Script} {stmt : Stmt} {V W : Range → Prop}
    (hread : Script.read source = .ok script) (hstmt : stmt ∈ script)
    (hV : ∀ r, IsBodyPlace source r → V r) (hW : ∀ r, Sexp.IsPlace source r → W r) :
    stmt.Sited V W where
  range := hW _ (Script.isPlace_of_hasPlace hread hstmt (.inl rfl))
  children e he :=
    { places := fun r hr => hW r (Script.isPlace_of_hasPlace hread hstmt (.inr ⟨e, he, hr⟩))
      bodies := fun range param paramType body hpart r hr =>
        hV r ⟨script, hread, stmt, hstmt, e, he, range, param, paramType, body, hpart, hr⟩ }

theorem Diagnostic.not_isMisuse_of_stage {d : Diagnostic} {stage : Stage} (h : d.IsAt stage)
    (hstage : stage ≠ .runtime) : ¬d.IsMisuse := by
  rintro ⟨name, misuse, hcause⟩
  rw [IsAt, hcause] at h
  exact hstage h.symm

namespace Session

variable {V W : Range → Prop} {s : Session} {fuel : Nat} {source : Text} {d : Diagnostic}

structure Sited (V : Range → Prop) (s : Session) : Prop where
  context : s.context.Ordered
  bodies : s.store.BodiesIn V

theorem contextsAfter_ordered {script : Script} (hscript : ∀ stmt ∈ script, stmt.Readable)
    (checking : Bool) {Γ : Context} (hΓ : Γ.Ordered) :
    (contextsAfter checking Γ script).Ensures (fun contexts => ∀ Δ ∈ contexts, Δ.Ordered)
      (Diagnostic.IsAt .typing) := by
  induction script generalizing Γ with
  | nil => simp [contextsAfter]
  | cons stmt rest ih =>
      obtain ⟨hstmt, hrest⟩ := List.forall_mem_cons.mp hscript
      have hcons {Δ : Context} (hΔ : Δ.Ordered) :
          (contextsAfter checking Δ rest).Ensures (fun contexts => ∀ Δ' ∈ Δ :: contexts, Δ'.Ordered)
            (Diagnostic.IsAt .typing) :=
        (ih hrest hΔ).imp fun contexts hcontexts => List.forall_mem_cons.mpr ⟨hΔ, hcontexts⟩
      cases checking with
      | true =>
          simp only [contextsAfter, if_true, Except.ensures_bind, Except.ensures_pure]
          exact (Stmt.check_ensures hstmt hΓ).imp fun Δ hΔ => hcons hΔ
      | false =>
          have hskip : contextsAfter false Γ (stmt :: rest) =
              (contextsAfter false Γ rest >>= fun contexts => .ok (Γ :: contexts)) := rfl
          rw [hskip, Except.ensures_bind]
          exact hcons hΓ

theorem execute_traces (hVW : ∀ r, V r → W r) {todo : List (Stmt × Context)}
    (htodo : ∀ pair ∈ todo, pair.1.Sited V W ∧ pair.2.Ordered) (hs : s.Sited V) :
    (execute fuel s todo).2.Sited V ∧
      ∀ d, (execute fuel s todo).1 = .error (.fault d) → d.RunsInto W := by
  induction todo generalizing s with
  | nil => exact ⟨hs, by simp [execute]⟩
  | cons pair rest ih =>
      obtain ⟨stmt, Δ⟩ := pair
      obtain ⟨⟨hstmt, hΔ⟩, hrest⟩ := List.forall_mem_cons.mp htodo
      have hexec := Stmt.exec_traces hVW fuel hstmt hs.bodies
      rw [execute_cons]
      rcases hresult : (stmt.exec fuel Store.programScope).startingFrom s.store
        with ⟨halt | line, store⟩
      · obtain ⟨hstore, hhalt⟩ := hexec.of_error hresult
        refine ⟨⟨hs.context, hstore⟩, fun d hd => ?_⟩
        obtain rfl : halt = .fault d := by simpa using hd
        exact hhalt
      · have hstore := (hexec.of_ok hresult).1
        obtain ⟨hsited, hfault⟩ := ih hrest (s := { s with store := store, context := Δ })
          ⟨hΔ, hstore⟩
        rcases hrest : execute fuel { s with store := store, context := Δ } rest
          with ⟨halt | more, s'⟩
        · simp only [hrest] at hsited hfault ⊢
          exact ⟨hsited, hfault⟩
        · simp only [hrest] at hsited ⊢
          exact ⟨hsited, by simp⟩

theorem eval_traces (fuel : Nat) (source : Text) (hVW : ∀ r, V r → W r)
    (hV : ∀ r, Script.IsBodyPlace source r → V r) (hW : ∀ r, Sexp.IsPlace source r → W r)
    (hs : s.Sited V) :
    (s.eval fuel source).2.Sited V ∧ ∀ d, (s.eval fuel source).1 = .error (.fault d) →
      (¬d.IsMisuse ∧ d.PointsInto source) ∨ d.RunsInto W := by
  cases hread : Script.read source with
  | error d' =>
      simp only [eval, hread]
      refine ⟨hs, fun d hd => ?_⟩
      obtain rfl : d' = d := by simpa using hd
      have hstage := (Script.read_ensures source).of_error hread
      exact .inl ⟨Diagnostic.not_isMisuse_of_stage hstage (by simp),
        Diagnostic.pointsInto_of_read_error hread⟩
  | ok script =>
      have hreadable := (Script.read_ensures source).of_ok hread
      have hcontexts := contextsAfter_ordered hreadable s.checking hs.context
      rw [eval_eq_evalScript hread, evalScript]
      cases hafter : contextsAfter s.checking s.context script with
      | error d' =>
          refine ⟨hs, fun d hd => ?_⟩
          obtain rfl : d' = d := by simpa using hd
          exact .inl ⟨Diagnostic.not_isMisuse_of_stage (hcontexts.of_error hafter) (by simp),
            Diagnostic.pointsInto_of_contextsAfter_error hread hafter⟩
      | ok contexts =>
          have htodo : ∀ pair ∈ script.zip contexts, pair.1.Sited V W ∧ pair.2.Ordered := by
            rintro ⟨stmt, Δ⟩ hmem
            obtain ⟨hstmt, hΔ⟩ := List.of_mem_zip hmem
            exact ⟨Script.sited_of_read hread hstmt hV hW, hcontexts.of_ok hafter Δ hΔ⟩
          obtain ⟨hsited, hfault⟩ := execute_traces hVW htodo hs
          exact ⟨hsited, fun d hd => .inr (hfault d hd)⟩

theorem start_sited (checking : Bool) : (start checking).Sited V :=
  ⟨Context.initial_ordered, Store.initial_bodiesIn⟩

theorem after_sited (checking : Bool) {inputs : List (Nat × Text)}
    (hV : ∀ input ∈ inputs, ∀ r, Script.IsBodyPlace input.2 r → V r) :
    ((start checking).after (inputs.map fun input => .eval input.1 input.2)).Sited V := by
  have hgeneral (s : Session) (hs : s.Sited V) :
      (s.after (inputs.map fun input => .eval input.1 input.2)).Sited V := by
    induction inputs generalizing s with
    | nil => exact hs
    | cons input rest ih =>
        obtain ⟨hinput, hrest⟩ := List.forall_mem_cons.mp hV
        -- only what the input leaves matters here, not where it fails
        have hnext := (eval_traces (W := fun _ => True) input.1 input.2 (fun _ _ => trivial) hinput
          (fun _ _ => trivial) hs).1
        exact ih hrest _ hnext
  exact hgeneral _ (start_sited checking)

theorem fault_points_into_input_or_function {checking : Bool} {inputs : List (Nat × Text)}
    (h : (((start checking).after (inputs.map fun input => .eval input.1 input.2)).eval fuel
      source).1 = .error (.fault d)) :
    (d.IsMisuse ∧ d.range = Range.none) ∨ (¬d.IsMisuse ∧ d.PointsInto source) ∨
      (¬d.IsMisuse ∧ d.stage = .runtime ∧
        ∃ input ∈ inputs, Script.IsBodyPlace input.2 d.range) := by
  have hsited := after_sited checking
    (V := fun r => Script.IsBodyPlace source r ∨ ∃ input ∈ inputs, Script.IsBodyPlace input.2 r)
    fun input hinput r hr => .inr ⟨input, hinput, hr⟩
  have hfault := (eval_traces fuel source
    (W := fun r => Sexp.IsPlace source r ∨ ∃ input ∈ inputs, Script.IsBodyPlace input.2 r)
    (fun r hr => hr.imp_left Script.IsBodyPlace.isPlace) (fun r hr => .inl hr)
    (fun r hr => .inl hr) hsited).2 d h
  rcases hfault with hrejected | ⟨hstage, hmisuse | ⟨hmisuse, hplace | hbody⟩⟩
  · exact .inr (.inl hrejected)
  · exact .inl hmisuse
  · exact .inr (.inl ⟨hmisuse, Diagnostic.pointsInto_of_isPlace hplace⟩)
  · exact .inr (.inr ⟨hmisuse, hstage, hbody⟩)

theorem fault_points_into_input_or_function_shadowed :
    (((start true).after ([(5, utf8 "(define f (lambda x Nat (+ x 1)))"),
        (5, utf8 "(define + 5)")].map fun input => .eval input.1 input.2)).eval 5
      (utf8 "(print (f 1))")).1 =
        .error (.fault ⟨⟨25, 32⟩, .notAFunction (utf8 "5") .runtime⟩) ∧
    ∃ input ∈ [(5, utf8 "(define f (lambda x Nat (+ x 1)))"), (5, utf8 "(define + 5)")],
      Script.IsBodyPlace input.2 ⟨25, 32⟩ := by
  have hfault : (((start true).after ([(5, utf8 "(define f (lambda x Nat (+ x 1)))"),
        (5, utf8 "(define + 5)")].map fun input => .eval input.1 input.2)).eval 5
      (utf8 "(print (f 1))")).1 =
        .error (.fault ⟨⟨25, 32⟩, .notAFunction (utf8 "5") .runtime⟩) := rfl
  refine ⟨hfault, ?_⟩
  rcases fault_points_into_input_or_function hfault with ⟨-, hnone⟩ | ⟨-, hpoints⟩ | ⟨-, -, hbody⟩
  · exact absurd hnone (by decide)
  · exact absurd hpoints.bounds.2.2 (by decide)
  · exact hbody

/-- A failure inside a function of an earlier input is shown at a line and column of the latest one,
where nothing begins. -/
theorem fault_points_beside_input :
    ∃ d, (((start false).after [.eval 5 (utf8 "(define f (lambda x Nat (x 1)))")]).eval 5
        (utf8 "(print (f 2)) (print true) (print false)")).1 = .error (.fault d) ∧
      d.range ≠ Range.none ∧
      ¬Sexp.IsPlace (utf8 "(print (f 2)) (print true) (print false)") d.range ∧
      (∀ k : Nat, d.range ≠ Range.ofOffsets k (k + 1)) ∧
      d.format (utf8 "<repl>") (utf8 "(print (f 2)) (print true) (print false)") =
        utf8 "<repl>:1:25: (E011) runtime error: cannot apply non-function value '2'" := by
  refine ⟨⟨⟨25, 30⟩, .notAFunction (utf8 "2") .runtime⟩, rfl, by decide, ?_, ?_, by decide⟩
  · -- an s-expression begins with a token, and the bytes at 23 and 24 belong to one atom
    rintro ⟨s, hnode, hrange⟩
    obtain ⟨i, n, hcovers⟩ := hnode.takenFrom.covers
    obtain ⟨t, ht, hstart⟩ := hcovers.first
    have hi : t.start = 24 := by
      have hplace := congrArg Range.start (hcovers.range.symm.trans hrange)
      simp only [Range.ofOffsets] at hplace
      omega
    have hbounded := (hnode.takenFrom.occursIn t ht).bounded_start (k := 23) (by omega)
    rw [hi] at hbounded
    exact hbounded ⟨⟨117, by decide, by decide⟩, ⟨101, by decide, by decide⟩⟩
  · intro k hk
    have hstart := congrArg Range.start hk
    have hstop := congrArg Range.stop hk
    simp only [Range.ofOffsets] at hstart hstop
    omega

end Session

namespace Program

theorem fault_points_into_source {fuel : Nat} {source : Text} {checking : Bool} {d : Diagnostic}
    (h : interpret fuel source checking = .error (.fault d)) :
    (d.IsMisuse ∧ d.range = Range.none ∧ ∀ file, d.format file source =
        if file.isEmpty then d.withCode else file ++ utf8 ": " ++ d.withCode) ∨
      (¬d.IsMisuse ∧ d.PointsInto source) := by
  rw [Session.interpret_eq_eval] at h
  have hfault := (Session.eval_traces fuel source (W := Sexp.IsPlace source)
    (fun r => Script.IsBodyPlace.isPlace) (fun r hr => hr) (fun r hr => hr)
    (Session.start_sited checking)).2 d h
  rcases hfault with hrejected | ⟨-, ⟨hmisuse, hnone⟩ | ⟨hmisuse, hplace⟩⟩
  · exact .inr hrejected
  · refine .inl ⟨hmisuse, hnone, fun file => ?_⟩
    rw [Diagnostic.format, hnone]
    rfl
  · exact .inr ⟨hmisuse, Diagnostic.pointsInto_of_isPlace hplace⟩

theorem fault_points_into_source_body :
    interpret 5 (utf8 "(define f (lambda x Nat\n  (x 1)))\n(print (f 2))") false =
        .error (.fault ⟨⟨27, 32⟩, .notAFunction (utf8 "2") .runtime⟩) ∧
      Diagnostic.PointsInto (utf8 "(define f (lambda x Nat\n  (x 1)))\n(print (f 2))")
        ⟨⟨27, 32⟩, .notAFunction (utf8 "2") .runtime⟩ := by
  have hfault : interpret 5 (utf8 "(define f (lambda x Nat\n  (x 1)))\n(print (f 2))") false =
      .error (.fault ⟨⟨27, 32⟩, .notAFunction (utf8 "2") .runtime⟩) := rfl
  refine ⟨hfault, ?_⟩
  rcases fault_points_into_source hfault with ⟨-, hnone, -⟩ | ⟨-, hpoints⟩
  · exact absurd hnone (by decide)
  · exact hpoints

end Program

end TypedSexp
