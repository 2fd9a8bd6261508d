import Mathlib.Data.List.Flatten
import TypedSexp.Proofs.Diagnostic.Stages
import TypedSexp.Proofs.Session.Queries
import TypedSexp.Proofs.Sexp.Depth
import TypedSexp.Repl

namespace TypedSexp.Repl

structure Turn where
  before : Repl
  line : Text

namespace Turn

def source (t : Turn) : Text := t.before.pending ++ t.line ++ [Byte.newline]

def Consumed (t : Turn) : Prop :=
  t.before.pending = [] ∧ (t.line.trim = [] ∨ t.line.trim.head? = some Byte.dot)

instance : DecidablePred Consumed := fun t =>
  inferInstanceAs (Decidable (t.before.pending = [] ∧
    (t.line.trim = [] ∨ t.line.trim.head? = some Byte.dot)))

def submitted? (t : Turn) : Option Text :=
  match fate t.before.pending t.line with
  | .submitted source => some source
  | _ => none

def response (fuel : Nat) (t : Turn) : Response := (t.before.handleLine fuel t.line).1

def after (fuel : Nat) (t : Turn) : Repl := (t.before.handleLine fuel t.line).2

end Turn

def turns (fuel : Nat) (r : Repl) : List Text → List Turn
  | [] => []
  | line :: rest => ⟨r, line⟩ :: turns fuel (Turn.after fuel ⟨r, line⟩) rest

def afterAll (fuel : Nat) (r : Repl) (lines : List Text) : Repl :=
  lines.foldl (fun r line => Turn.after fuel ⟨r, line⟩) r

def submissions (fuel : Nat) (r : Repl) (lines : List Text) : List Text :=
  (turns fuel r lines).filterMap Turn.submitted?

def inputLines (fuel : Nat) (r : Repl) (lines : List Text) : List Text :=
  ((turns fuel r lines).filter fun t => ¬t.Consumed).map Turn.line

def Response.append (first second : Response) : Response :=
  ⟨first.out ++ second.out, first.err ++ second.err, first.quit || second.quit⟩

def transcript (fuel : Nat) (r : Repl) (lines : List Text) : Response :=
  ((turns fuel r lines).map (Turn.response fuel)).foldr Response.append {}

def report (source : Text) : Except Halt (List Text) → Response
  | .ok lines => { out := Text.lines lines }
  | .error halt => failure source halt

structure Completes (pending : Text) (lines : List Text) : Prop where
  begins : ∃ first rest, lines = first :: rest ∧
    ¬(pending = [] ∧ (first.trim = [] ∨ first.trim.head? = some Byte.dot))
  opened : ∀ n < lines.length, 0 < n → 0 < Sexp.depth (pending ++ Text.lines (lines.take n))
  closed : Sexp.depth (pending ++ Text.lines lines) ≤ 0

variable {fuel : Nat}

theorem answer_snd (r : Repl) (c : Command) : (r.answer fuel c).2 = r := by
  cases c with
  | type source =>
      simp only [answer]
      split
      · rfl
      · split <;> rfl
  | legacy source =>
      have hsession := r.session.legacy_snd fuel source
      simp only [answer]
      split
      · rfl
      · split
        case h_1 shown session hlegacy =>
          rw [hlegacy] at hsession
          rw [show session = r.session from hsession]
        case h_2 halt session hlegacy =>
          rw [hlegacy] at hsession
          rw [show session = r.session from hsession]
  | _ => rfl

theorem submit_eq (session : Session) (source : Text) :
    submit fuel session source =
      (report source (session.eval fuel source).1, ⟨(session.eval fuel source).2, []⟩) := by
  unfold submit
  rcases session.eval fuel source with ⟨halt | lines, session'⟩ <;> rfl

namespace Turn

inductive Step (fuel : Nat) (t : Turn) : Prop
  | consumed : t.Consumed → t.submitted? = none → t.after fuel = t.before → Step fuel t
  | kept : ¬t.Consumed → t.submitted? = none → 0 < Sexp.depth t.source → t.response fuel = {} →
      t.after fuel = ⟨t.before.session, t.source⟩ → Step fuel t
  | submitted : ¬t.Consumed → t.submitted? = some t.source → Sexp.depth t.source ≤ 0 →
      t.response fuel = report t.source (t.before.session.eval fuel t.source).1 →
      t.after fuel = ⟨(t.before.session.eval fuel t.source).2, []⟩ → Step fuel t

theorem step (fuel : Nat) (t : Turn) : t.Step fuel := by
  have hfate := fate.eq_def t.before.pending t.line
  dsimp only at hfate
  split at hfate
  case isTrue h =>
    obtain ⟨hpending, hblank⟩ : t.before.pending = [] ∧ t.line.trim = [] := by simpa using h
    refine .consumed ⟨hpending, .inl hblank⟩ ?_ ?_
    · simp only [submitted?, hfate]
    · simp only [after, handleLine, hfate]
  case isFalse hblank =>
    split at hfate
    case isTrue h =>
      obtain ⟨hpending, hdot⟩ : t.before.pending = [] ∧ t.line.trim.head? = some Byte.dot := by
        simpa using h
      refine .consumed ⟨hpending, .inr hdot⟩ ?_ ?_
      · simp only [submitted?, hfate]
      · simp only [after, handleLine, hfate, answer_snd]
    case isFalse hdot =>
      have hnot : ¬t.Consumed := by
        rintro ⟨hpending, htrim | hhead⟩
        · exact hblank (by simp [hpending, htrim])
        · exact hdot (by simp [hpending, hhead])
      split at hfate
      case isTrue hdepth =>
        refine .kept hnot ?_ hdepth ?_ ?_
        · simp only [submitted?, hfate]
        · simp only [response, handleLine, hfate]
        · simp only [after, handleLine, hfate, source]
      case isFalse hdepth =>
        refine .submitted hnot ?_ (Int.not_lt.mp hdepth) ?_ ?_
        · simp only [submitted?, hfate, source]
        · simp only [response, handleLine, hfate, submit_eq, source]
        · simp only [after, handleLine, hfate, submit_eq, source]

theorem kept_of_pending {t : Turn} (h : (t.after fuel).pending ≠ []) :
    0 < Sexp.depth (t.after fuel).pending ∧ t.response fuel = {} := by
  cases t.step fuel with
  | consumed hconsumed _ hafter =>
      rw [hafter] at h
      exact absurd hconsumed.1 h
  | kept _ _ hdepth hresponse hafter =>
      rw [hafter]
      exact ⟨hdepth, hresponse⟩
  | submitted _ _ _ _ hafter =>
      rw [hafter] at h
      exact absurd rfl h

theorem depth_of_submitted {t : Turn} {source : Text} (h : t.submitted? = some source) :
    Sexp.depth source ≤ 0 := by
  -- which text is submitted does not depend on the fuel
  cases t.step 0 with
  | consumed _ hnone => cases hnone.symm.trans h
  | kept _ hnone => cases hnone.symm.trans h
  | submitted _ hsome hdepth =>
      cases hsome.symm.trans h
      exact hdepth

end Turn

variable {r : Repl} {line : Text} {lines : List Text}

theorem afterAll_cons (line : Text) (rest : List Text) :
    afterAll fuel r (line :: rest) = afterAll fuel (Turn.after fuel ⟨r, line⟩) rest :=
  List.foldl_cons ..

theorem submissions_cons (line : Text) (rest : List Text) :
    submissions fuel r (line :: rest) = (Turn.submitted? ⟨r, line⟩).toList ++
      submissions fuel (Turn.after fuel ⟨r, line⟩) rest := by
  rw [submissions, turns, List.filterMap_cons]
  cases Turn.submitted? ⟨r, line⟩ <;> rfl

theorem inputLines_cons (line : Text) (rest : List Text) :
    inputLines fuel r (line :: rest) = (if Turn.Consumed ⟨r, line⟩ then [] else [line]) ++
      inputLines fuel (Turn.after fuel ⟨r, line⟩) rest := by
  rw [inputLines, turns, List.filter_cons]
  by_cases h : Turn.Consumed ⟨r, line⟩ <;> simp [h, inputLines]

theorem submissions_append_pending (fuel : Nat) (r : Repl) (lines : List Text) :
    (submissions fuel r lines).flatten ++ (afterAll fuel r lines).pending =
      r.pending ++ Text.lines (inputLines fuel r lines) := by
  induction lines generalizing r with
  | nil => simp [submissions, afterAll, inputLines, turns, Text.lines]
  | cons line rest ih =>
      have hrest := ih (Turn.after fuel ⟨r, line⟩)
      rw [submissions_cons, afterAll_cons, inputLines_cons, List.flatten_append, List.append_assoc,
        hrest]
      cases Turn.step fuel ⟨r, line⟩ with
      | consumed hconsumed hsubmitted hafter => simp [hconsumed, hsubmitted, hafter]
      | kept hconsumed hsubmitted _ _ hafter =>
          simp [hconsumed, hsubmitted, hafter, Turn.source, Text.lines]
      | submitted hconsumed hsubmitted _ _ hafter =>
          simp [hconsumed, hsubmitted, hafter, Turn.source, Text.lines]

theorem afterAll_session (fuel : Nat) (r : Repl) (lines : List Text) :
    (afterAll fuel r lines).session =
      (submissions fuel r lines).foldl (fun s source => (s.eval fuel source).2) r.session := by
  induction lines generalizing r with
  | nil => rfl
  | cons line rest ih =>
      rw [submissions_cons, afterAll_cons, ih, List.foldl_append]
      cases Turn.step fuel ⟨r, line⟩ with
      | consumed _ hsubmitted hafter => simp [hsubmitted, hafter]
      | kept _ hsubmitted _ _ hafter => simp [hsubmitted, hafter]
      | submitted _ hsubmitted _ _ hafter => simp [hsubmitted, hafter]

theorem transcript_cons (line : Text) (rest : List Text) :
    transcript fuel r (line :: rest) = (Turn.response fuel ⟨r, line⟩).append
      (transcript fuel (Turn.after fuel ⟨r, line⟩) rest) := rfl

theorem Response.append_empty (response : Response) : response.append {} = response := by
  simp [append]

theorem Response.empty_append (response : Response) : append {} response = response := by
  simp [append]

theorem Turn.source_eq (session : Session) (pending line : Text) :
    Turn.source ⟨⟨session, pending⟩, line⟩ = pending ++ Text.lines [line] := by
  simp [Turn.source, Text.lines]

theorem append_lines_cons (pending line : Text) (rest : List Text) :
    pending ++ Text.lines (line :: rest) = pending ++ Text.lines [line] ++ Text.lines rest := by
  simp [Text.lines]

theorem completes_cons (session : Session) {pending line : Text} {rest : List Text} :
    Completes pending (line :: rest) ↔ ¬Turn.Consumed ⟨⟨session, pending⟩, line⟩ ∧
      ((rest = [] ∧ Sexp.depth (pending ++ Text.lines [line]) ≤ 0) ∨
        (0 < Sexp.depth (pending ++ Text.lines [line]) ∧
          Completes (pending ++ Text.lines [line]) rest)) := by
  constructor
  · rintro ⟨⟨first, others, hlines, hfirst⟩, hopened, hclosed⟩
    cases hlines
    refine ⟨hfirst, ?_⟩
    cases rest with
    | nil => exact .inl ⟨rfl, hclosed⟩
    | cons second rest =>
        refine .inr ⟨hopened 1 (by simp) Nat.one_pos, ⟨second, rest, rfl, ?_⟩, ?_, ?_⟩
        · rintro ⟨hpending, -⟩
          simp [Text.lines] at hpending
        · intro n hn hpos
          rw [← append_lines_cons]
          exact hopened (n + 1) (by simpa using hn) (Nat.succ_pos n)
        · rwa [← append_lines_cons]
  · rintro ⟨hline, ⟨rfl, hclosed⟩ | ⟨hopen, hrest⟩⟩
    · refine ⟨⟨line, [], rfl, hline⟩, ?_, hclosed⟩
      intro n hn hpos
      simp only [List.length_singleton] at hn
      omega
    · refine ⟨⟨line, rest, rfl, hline⟩, ?_, ?_⟩
      · intro n hn hpos
        obtain ⟨m, rfl⟩ : ∃ m, n = m + 1 := ⟨n - 1, by omega⟩
        rw [List.take_succ_cons, append_lines_cons]
        rcases Nat.eq_zero_or_pos m with rfl | hm
        · simpa [Text.lines] using hopen
        · exact hrest.opened m (by simpa using hn) hm
      · rw [append_lines_cons]
        exact hrest.closed

theorem Completes.run_together (fuel : Nat) (session : Session) {pending : Text}
    {lines : List Text} (h : Completes pending lines) :
    submissions fuel ⟨session, pending⟩ lines = [pending ++ Text.lines lines] ∧
      transcript fuel ⟨session, pending⟩ lines = report (pending ++ Text.lines lines)
        (session.eval fuel (pending ++ Text.lines lines)).1 ∧
      afterAll fuel ⟨session, pending⟩ lines =
        ⟨(session.eval fuel (pending ++ Text.lines lines)).2, []⟩ := by
  induction lines generalizing pending with
  | nil =>
      obtain ⟨first, rest, hlines, -⟩ := h.begins
      cases hlines
  | cons line rest ih =>
      obtain ⟨hline, hcases⟩ := (completes_cons session).mp h
      rw [submissions_cons, transcript_cons, afterAll_cons]
      cases Turn.step fuel ⟨⟨session, pending⟩, line⟩ with
      | consumed hconsumed => exact absurd hconsumed hline
      | kept _ hnone hdepth hresponse hafter =>
          rw [Turn.source_eq] at hdepth hafter
          rcases hcases with ⟨-, hclosed⟩ | ⟨-, hrest⟩
          · exact absurd hdepth (Int.not_lt.mpr hclosed)
          · rw [hnone, hresponse, hafter, append_lines_cons pending line rest, Response.empty_append]
            exact ih hrest
      | submitted _ hsome hdepth hresponse hafter =>
          rw [Turn.source_eq] at hsome hdepth hresponse hafter
          rcases hcases with ⟨rfl, -⟩ | ⟨hopen, -⟩
          · rw [hsome, hresponse, hafter]
            exact ⟨rfl, Response.append_empty _, rfl⟩
          · exact absurd hopen (Int.not_lt.mpr hdepth)

theorem map_line_turns (fuel : Nat) (r : Repl) (lines : List Text) :
    (turns fuel r lines).map Turn.line = lines := by
  induction lines generalizing r with
  | nil => rfl
  | cons line rest ih => rw [turns, List.map_cons, ih]

theorem lines_inputLines_sublist (fuel : Nat) (r : Repl) (lines : List Text) :
    (Text.lines (inputLines fuel r lines)).Sublist (Text.lines lines) := by
  have hsublist : (inputLines fuel r lines).Sublist ((turns fuel r lines).map Turn.line) :=
    List.filter_sublist.map Turn.line
  rw [map_line_turns] at hsublist
  exact hsublist.flatMap _

theorem completes_of_submissions {session : Session} {pending : Text} {lines : List Text}
    (h : submissions fuel ⟨session, pending⟩ lines = [pending ++ Text.lines lines]) :
    Completes pending lines := by
  induction lines generalizing pending with
  | nil => cases h
  | cons line rest ih =>
      rw [submissions_cons] at h
      refine (completes_cons session).mpr ?_
      cases Turn.step fuel ⟨⟨session, pending⟩, line⟩ with
      | consumed _ hnone hafter =>
          -- the line would have to come out of the lines after it
          exfalso
          simp only [hnone, hafter, Option.toList_none, List.nil_append] at h
          have hbytes := submissions_append_pending fuel ⟨session, pending⟩ rest
          have hle := (lines_inputLines_sublist fuel ⟨session, pending⟩ rest).length_le
          have hlt : (Text.lines rest).length < (Text.lines (line :: rest)).length := by
            simp only [Text.lines, List.flatMap_cons, List.length_append, List.length_singleton]
            omega
          rw [h] at hbytes
          have hlength := congrArg List.length hbytes
          simp only [List.flatten_singleton, List.length_append] at hlength
          omega
      | kept hline hnone hdepth _ hafter =>
          rw [Turn.source_eq] at hdepth hafter
          rw [hnone, hafter, append_lines_cons pending line rest] at h
          exact ⟨hline, .inr ⟨hdepth, ih h⟩⟩
      | submitted hline hsome hdepth _ _ =>
          rw [Turn.source_eq] at hsome hdepth
          rw [hsome, append_lines_cons pending line rest] at h
          have hrest : Text.lines rest = [] := List.self_eq_append_right.mp (List.cons.inj h).1
          refine ⟨hline, .inl ⟨?_, hdepth⟩⟩
          cases rest with
          | nil => rfl
          | cons second rest => simp [Text.lines] at hrest

/-- No line is lost or used twice. What is given to the session and what is kept at the end are the
lines that are not consumed, in order; the session changes only by what it is given; while an input
is open nothing is written; and the lines that make up one input have the effect of running them as
one text. -/
theorem lines_neither_lost_nor_repeated (session : Session) (fuel : Nat) (lines : List Text) :
    (submissions fuel ⟨session, []⟩ lines).flatten ++ (afterAll fuel ⟨session, []⟩ lines).pending =
      Text.lines (inputLines fuel ⟨session, []⟩ lines) ∧
    (afterAll fuel ⟨session, []⟩ lines).session =
      (submissions fuel ⟨session, []⟩ lines).foldl (fun s source => (s.eval fuel source).2)
        session ∧
    (∀ t ∈ turns fuel ⟨session, []⟩ lines, (t.after fuel).pending ≠ [] → t.response fuel = {}) ∧
    (submissions fuel ⟨session, []⟩ lines = [Text.lines lines] ↔ Completes [] lines) ∧
    (Completes [] lines →
      transcript fuel ⟨session, []⟩ lines =
        report (Text.lines lines) (session.eval fuel (Text.lines lines)).1 ∧
      afterAll fuel ⟨session, []⟩ lines = ⟨(session.eval fuel (Text.lines lines)).2, []⟩) := by
  refine ⟨submissions_append_pending fuel ⟨session, []⟩ lines,
    afterAll_session fuel ⟨session, []⟩ lines, fun t _ h => (Turn.kept_of_pending h).2,
    ⟨completes_of_submissions, ?_⟩, ?_⟩
  · intro h
    exact (h.run_together fuel session).1
  · intro h
    exact (h.run_together fuel session).2

theorem lines_neither_lost_nor_repeated_print :
    Completes [] [utf8 "(print ; a sum )", [], utf8 "(+ 1 2))"] ∧
      transcript 3 ⟨Session.start true, []⟩ [utf8 "(print ; a sum )", [], utf8 "(+ 1 2))"] =
        { out := utf8 "3\n" } := by
  have hinput : Completes [] [utf8 "(print ; a sum )", [], utf8 "(+ 1 2))"] :=
    ⟨⟨_, _, rfl, by decide⟩, by decide, by decide⟩
  refine ⟨hinput, ?_⟩
  rw [((lines_neither_lost_nor_repeated (Session.start true) 3 _).2.2.2.2 hinput).1]
  rfl

theorem eval_ne_unclosed {source : Text} (h : Sexp.depth source ≤ 0) (session : Session)
    (range : Range) :
    (session.eval fuel source).1 ≠ .error (.fault ⟨range, .unreadable .unclosed⟩) := by
  intro hresult
  have hread := ((session.eval_ending fuel source).stageTells.parse_iff _).mp ⟨hresult, rfl⟩
  obtain ⟨reading, htaken, hpos⟩ :=
    Sexp.taken_of_unclosed (Script.readAll_of_unreadable hread rfl)
  have hdepth := Sexp.depth_eq_size htaken
  omega

/-- Counting parentheses and reading agree, on all byte strings: what is read in full leaves none
open, and where a list is not closed the count is the number of lists that are open at the end. So
no text that is given to a session lacks a closing parenthesis, and none that is kept could be read
already. -/
theorem depth_agrees_with_reader :
    (∀ source ss, Sexp.readAll source = .ok ss → Sexp.depth source = 0) ∧
    (∀ source range, Sexp.readAll source = .error ⟨range, .unreadable .unclosed⟩ →
      0 < Sexp.depth source ∧ ∃ reading, Sexp.LeavesOpen source reading ∧
        Sexp.depth source = reading.pending.size) ∧
    ∀ fuel r lines, ∀ t ∈ turns fuel r lines,
      (∀ source, t.submitted? = some source → ∀ range,
        (t.before.session.eval fuel source).1 ≠ .error (.fault ⟨range, .unreadable .unclosed⟩)) ∧
      ((t.after fuel).pending ≠ [] → ∀ ss, Sexp.readAll (t.after fuel).pending ≠ .ok ss) := by
  refine ⟨fun source ss => Sexp.depth_of_readAll, ?_, ?_⟩
  · intro source range h
    obtain ⟨reading, htaken, hpos⟩ := Sexp.taken_of_unclosed h
    have hdepth := Sexp.depth_eq_size htaken
    exact ⟨by omega, reading, Sexp.leavesOpen_of_taken htaken, hdepth⟩
  · intro fuel r lines t _
    constructor
    · intro source hsource range
      exact eval_ne_unclosed (Turn.depth_of_submitted hsource) t.before.session range
    · intro hpending ss hread
      have hpos := (Turn.kept_of_pending hpending).1
      have hzero := Sexp.depth_of_readAll hread
      omega

end TypedSexp.Repl
