import TypedSexp.Proofs.Expr.Relabel
import TypedSexp.Sexp.Reader

namespace TypedSexp

theorem Range.ofOffsets_shift (k start stop : Nat) (n : Int) :
    Range.ofOffsets (start + k : Nat) ((stop + k : Nat) + n) =
      (Range.ofOffsets start (stop + n)).shift k := by
  simp only [shift, ofOffsets, Range.mk.injEq]
  omega

namespace Sexp

@[elab_as_elim]
theorem induct {motive : Sexp → Prop} (atom : ∀ range text, motive (.atom range text))
    (list : ∀ range elems, (∀ s ∈ elems, motive s) → motive (.list range elems)) (s : Sexp) :
    motive s :=
  @Sexp.rec motive (fun elems => ∀ s ∈ elems, motive s) atom list (by simp)
    (fun _ _ hhead htail => List.forall_mem_cons.mpr ⟨hhead, htail⟩) s

mutual

def relocate (f : Range → Range) : Sexp → Sexp
  | .atom range text => .atom (f range) text
  | .list range elems => .list (f range) (relocateAll f elems)

def relocateAll (f : Range → Range) : List Sexp → List Sexp
  | [] => []
  | s :: rest => relocate f s :: relocateAll f rest

end

variable (f : Range → Range)

theorem relocateAll_eq_map (ss : List Sexp) : relocateAll f ss = ss.map (relocate f) := by
  induction ss with
  | nil => rfl
  | cons s rest ih => simp [relocateAll, ih]

theorem toTextAll_relocate {ss : List Sexp} (h : ∀ s ∈ ss, (s.relocate f).toText = s.toText) :
    toTextAll (ss.map (relocate f)) = toTextAll ss := by
  induction ss with
  | nil => rfl
  | cons s rest ih =>
      obtain ⟨hs, hrest⟩ := List.forall_mem_cons.mp h
      cases rest with
      | nil => simpa only [List.map_cons, List.map_nil, toTextAll] using hs
      | cons second rest =>
          have ih := ih hrest
          simp only [List.map_cons] at ih
          simp only [List.map_cons, toTextAll, hs, ih]

theorem toText_relocate (s : Sexp) : (s.relocate f).toText = s.toText := by
  induction s using Sexp.induct with
  | atom => rfl
  | list range elems ih =>
      simp only [relocate, relocateAll_eq_map, toText, toTextAll_relocate f ih]

namespace Token

def shift (k : Nat) : Token → Token
  | .opening offset => .opening (offset + k)
  | .closing offset => .closing (offset + k)
  | .atom offset text => .atom (offset + k) text

def Mode.shift (k : Nat) : Mode → Mode
  | .between => .between
  | .comment => .comment
  | .word offset bytes => .word (offset + k) bytes

theorem Mode.shift_eq_comment_iff {k : Nat} {mode : Mode} :
    mode.shift k = .comment ↔ mode = .comment := by
  cases mode <;> simp [Mode.shift]

theorem Mode.flush_shift (k : Nat) (mode : Mode) :
    (mode.shift k).flush = mode.flush.map (Token.shift k) := by
  cases mode <;> rfl

theorem Mode.extend_shift (k offset : Nat) (c : UInt8) (mode : Mode) :
    (mode.shift k).extend (offset + k) c = (mode.extend offset c).shift k := by
  cases mode <;> rfl

theorem Mode.afterDelimiter_shift (k : Nat) (c : UInt8) :
    (Mode.afterDelimiter c).shift k = Mode.afterDelimiter c := by
  unfold Mode.afterDelimiter
  split <;> rfl

theorem ofDelimiter_shift (k offset : Nat) (c : UInt8) :
    ofDelimiter (offset + k) c = (ofDelimiter offset c).map (Token.shift k) := by
  unfold ofDelimiter
  split
  · rfl
  · split <;> rfl

theorem scanFrom_shift (k : Nat) (mode : Mode) (offset : Nat) (text : Text) :
    scanFrom (mode.shift k) (offset + k) text = (scanFrom mode offset text).map (shift k) := by
  induction text generalizing mode offset with
  | nil => exact mode.flush_shift k
  | cons c rest ih =>
      have hoffset : offset + k + 1 = offset + 1 + k := by omega
      simp only [scanFrom, Mode.shift_eq_comment_iff, hoffset]
      split
      · rw [← ih]
        split <;> rfl
      · split
        · rw [List.map_append, List.map_append, ← ih, Mode.flush_shift, ofDelimiter_shift,
            Mode.afterDelimiter_shift]
        · rw [← ih, Mode.extend_shift]

/-- A line break ends an atom and a comment alike, so nothing before it matters after it. -/
theorem scanFrom_line (mode : Mode) (offset : Nat) (text rest : Text) :
    scanFrom mode offset (text ++ Byte.newline :: rest) =
      scanFrom mode offset text ++ scanFrom .between (offset + text.length + 1) rest := by
  induction text generalizing mode offset with
  | nil => cases mode <;> rfl
  | cons c text ih =>
      have hoffset : offset + (c :: text).length + 1 = offset + 1 + text.length + 1 := by
        simp only [List.length_cons]
        omega
      simp only [List.cons_append, scanFrom, ih, hoffset]
      split
      · rfl
      · split
        · simp only [List.append_assoc]
        · rfl

end Token

def OpenList.shift (k : Nat) (inner : OpenList) : OpenList :=
  ⟨inner.offset + k, inner.elems.map (relocate (Range.shift k))⟩

namespace Reading

def shift (k : Nat) (before : List Sexp) (reading : Reading) : Reading :=
  ⟨reading.complete.map (relocate (Range.shift k)) ++ before,
    ⟨reading.pending.items.map (OpenList.shift k)⟩⟩

variable (k : Nat) (before : List Sexp)

theorem add_shift (reading : Reading) (s : Sexp) :
    (reading.shift k before).add (s.relocate (Range.shift k)) = (reading.add s).shift k before := by
  rcases reading with ⟨complete, ⟨_ | ⟨inner, outer⟩⟩⟩ <;> rfl

theorem step_shift (reading : Reading) (token : Token) :
    (reading.shift k before).step (token.shift k) =
      (reading.step token).relocate (Range.shift k) (shift k before) := by
  cases token with
  | opening offset => rfl
  | atom offset text =>
      simp only [Token.shift, step, Except.relocate, ← add_shift, relocate, Range.ofOffsets_shift]
  | closing offset =>
      rcases reading with ⟨complete, ⟨_ | ⟨inner, outer⟩⟩⟩
      · simp [Token.shift, step, shift, Stack.pop?, Except.relocate, Diagnostic.relocate,
          ← Range.ofOffsets_shift]
      · have hlist : Sexp.list (Range.ofOffsets (inner.offset + k : Nat) ((offset + k : Nat) + 1))
            (inner.elems.map (relocate (Range.shift k))).reverse =
            (Sexp.list (Range.ofOffsets inner.offset (offset + 1)) inner.elems.reverse).relocate
              (Range.shift k) := by
          rw [relocate, relocateAll_eq_map, Range.ofOffsets_shift, List.map_reverse]
        have hadd := add_shift k before ⟨complete, ⟨outer⟩⟩
          (.list (Range.ofOffsets inner.offset (offset + 1)) inner.elems.reverse)
        rw [← hlist] at hadd
        exact congrArg Except.ok hadd

theorem foldlM_step_shift (reading : Reading) (tokens : List Token) :
    (tokens.map (Token.shift k)).foldlM step (reading.shift k before) =
      (tokens.foldlM step reading).relocate (Range.shift k) (shift k before) := by
  induction tokens generalizing reading with
  | nil => rfl
  | cons token rest ih =>
      rw [List.map_cons, List.foldlM_cons, List.foldlM_cons, step_shift]
      exact Except.relocate_bind ih

theorem finish_shift (reading : Reading) :
    (reading.shift k before).finish =
      reading.finish.relocate (Range.shift k)
        fun ss => before.reverse ++ ss.map (relocate (Range.shift k)) := by
  rcases reading with ⟨complete, ⟨_ | ⟨inner, outer⟩⟩⟩
  · simp [finish, shift, Stack.top?, Except.relocate]
  · simp [finish, shift, Stack.top?, OpenList.shift, Except.relocate, Diagnostic.relocate,
      ← Range.ofOffsets_shift]

theorem eq_of_finish {reading : Reading} {ss : List Sexp} (h : reading.finish = .ok ss) :
    reading = shift k ss.reverse {} := by
  rcases reading with ⟨complete, ⟨_ | ⟨inner, outer⟩⟩⟩
  · obtain rfl : complete.reverse = ss := by simpa [finish, Stack.top?] using h
    simp [shift]
  · simp [finish, Stack.top?] at h

end Reading

theorem readAll_line {text : Text} {ss : List Sexp} (h : readAll text = .ok ss) (rest : Text) :
    readAll (text ++ Byte.newline :: rest) =
      (readAll rest).relocate (Range.shift (text.length + 1 : Nat))
        fun more => ss ++ more.map (relocate (Range.shift (text.length + 1 : Nat))) := by
  obtain ⟨reading, hreading, hfinish⟩ := Except.bind_eq_ok_iff.mp h
  have htokens : Token.scan (text ++ Byte.newline :: rest) =
      Token.scan text ++ (Token.scan rest).map (Token.shift (text.length + 1)) := by
    have hscan := Token.scanFrom_shift (text.length + 1) .between 0 rest
    rw [Token.scan, Token.scanFrom_line, Token.scan, Token.scan, ← hscan]
    simp [Token.Mode.shift]
  have hfold : (Token.scan (text ++ Byte.newline :: rest)).foldlM Reading.step {} =
      ((Token.scan rest).foldlM Reading.step {}).relocate (Range.shift (text.length + 1 : Nat))
        (Reading.shift (text.length + 1) ss.reverse) := by
    rw [htokens, List.foldlM_append, hreading, ← Reading.foldlM_step_shift,
      ← Reading.eq_of_finish (text.length + 1) hfinish]
    rfl
  rw [readAll, ofTokens, hfold]
  refine Except.relocate_bind fun reading => ?_
  rw [Reading.finish_shift, List.reverse_reverse]

end Sexp

end TypedSexp
