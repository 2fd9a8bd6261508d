import TypedSexp.Proofs.Ensures
import TypedSexp.Sexp.Reader

namespace TypedSexp.Sexp

def IsWord (t : Text) : Prop := t ≠ [] ∧ ∀ c ∈ t, isDelimiter c = false

instance (t : Text) : Decidable (IsWord t) :=
  decidable_of_iff ((!t.isEmpty && !t.any isDelimiter) = true) (by simp [IsWord])

inductive OfWords : Sexp → Prop
  | atom {range : Range} {text : Text} : IsWord text → OfWords (.atom range text)
  | list {range : Range} {elems : List Sexp} :
      (∀ s ∈ elems, OfWords s) → OfWords (.list range elems)

theorem ofWords_atom_iff {range : Range} {text : Text} :
    OfWords (.atom range text) ↔ IsWord text := by
  constructor
  · rintro ⟨h⟩
    exact h
  · exact .atom

theorem ofWords_list_iff {range : Range} {elems : List Sexp} :
    OfWords (.list range elems) ↔ ∀ s ∈ elems, OfWords s := by
  constructor
  · intro h
    cases h with
    | list h => exact h
  · exact .list

def elems : Sexp → List Sexp
  | .atom .. => []
  | .list _ elems => elems

namespace Token

def OfWords : Token → Prop
  | .atom _ text => IsWord text
  | _ => True

def Mode.OfWords : Mode → Prop
  | .word _ bytes => IsWord bytes.reverse
  | _ => True

theorem flush_ofWords {mode : Mode} (h : mode.OfWords) : ∀ token ∈ mode.flush, token.OfWords := by
  cases mode with
  | between => simp [Mode.flush]
  | comment => simp [Mode.flush]
  | word offset bytes => simpa [Mode.flush, OfWords, Mode.OfWords] using h

theorem ofDelimiter_ofWords (offset : Nat) (c : UInt8) :
    ∀ token ∈ ofDelimiter offset c, token.OfWords := by
  unfold ofDelimiter
  split
  · simp [OfWords]
  · split <;> simp [OfWords]

theorem extend_ofWords {mode : Mode} (offset : Nat) {c : UInt8} (h : mode.OfWords)
    (hc : isDelimiter c = false) : (mode.extend offset c).OfWords := by
  cases mode with
  | between => simp [Mode.extend, Mode.OfWords, IsWord, hc]
  | comment => simp [Mode.extend, Mode.OfWords, IsWord, hc]
  | word start bytes =>
      refine ⟨by simp, ?_⟩
      intro b hb
      have hmem : b = c ∨ b ∈ bytes := by simpa [or_comm] using hb
      rcases hmem with rfl | hmem
      · exact hc
      · exact h.2 b (by simpa using hmem)

theorem scanFrom_ofWords (text : Text) (mode : Mode) (offset : Nat) (h : mode.OfWords) :
    ∀ token ∈ scanFrom mode offset text, token.OfWords := by
  induction text generalizing mode offset with
  | nil => exact flush_ofWords h
  | cons c rest ih =>
      unfold scanFrom
      split
      · exact ih _ (offset + 1) (by split <;> trivial)
      · split
        case isTrue =>
          intro token hmem
          rcases List.mem_append.mp hmem with hmem | hmem
          · rcases List.mem_append.mp hmem with hmem | hmem
            · exact flush_ofWords h token hmem
            · exact ofDelimiter_ofWords offset c token hmem
          · refine ih _ (offset + 1) ?_ token hmem
            unfold Mode.afterDelimiter
            split <;> trivial
        case isFalse hc => exact ih _ (offset + 1) (extend_ofWords offset h (by simpa using hc))

end Token

namespace Reading

structure OfWords (reading : Reading) : Prop where
  complete : ∀ s ∈ reading.complete, s.OfWords
  pending : ∀ inner ∈ reading.pending.items, ∀ s ∈ inner.elems, s.OfWords

theorem OfWords.add {reading : Reading} {s : Sexp} (h : reading.OfWords) (hs : s.OfWords) :
    (reading.add s).OfWords := by
  obtain ⟨complete, ⟨pending⟩⟩ := reading
  cases pending with
  | nil =>
      refine ⟨?_, h.pending⟩
      intro t ht
      rcases List.mem_cons.mp ht with rfl | hmem
      · exact hs
      · exact h.complete t hmem
  | cons inner outer =>
      refine ⟨h.complete, ?_⟩
      intro first hfirst
      rcases List.mem_cons.mp hfirst with rfl | hmem
      · intro t ht
        rcases List.mem_cons.mp ht with rfl | hmem
        · exact hs
        · exact h.pending inner (by simp) t hmem
      · exact h.pending first (List.mem_cons_of_mem _ hmem)

theorem OfWords.step {reading : Reading} {token : Token} (h : reading.OfWords)
    (htoken : token.OfWords) :
    (reading.step token).Ensures OfWords (Diagnostic.IsAt .parse) := by
  cases token with
  | atom offset text => exact h.add (.atom htoken)
  | opening offset =>
      refine ⟨h.complete, ?_⟩
      intro inner hmem
      rcases List.mem_cons.mp hmem with rfl | hmem
      · simp
      · exact h.pending inner hmem
  | closing offset =>
      obtain ⟨complete, ⟨pending⟩⟩ := reading
      cases pending with
      | nil => exact (rfl : Cause.stage (.unreadable .unmatched) = .parse)
      | cons inner outer =>
          have houter : Reading.OfWords ⟨complete, ⟨outer⟩⟩ :=
            ⟨h.complete, fun inner hmem => h.pending inner (List.mem_cons_of_mem _ hmem)⟩
          refine houter.add (.list ?_)
          intro s hs
          exact h.pending inner (by simp) s (by simpa using hs)

theorem OfWords.foldlM {tokens : List Token} {reading : Reading} (h : reading.OfWords)
    (htokens : ∀ token ∈ tokens, token.OfWords) :
    (tokens.foldlM Reading.step reading).Ensures OfWords (Diagnostic.IsAt .parse) := by
  induction tokens generalizing reading with
  | nil => simpa using h
  | cons token rest ih =>
      simp only [List.foldlM_cons, Except.ensures_bind]
      refine (h.step (htokens token (by simp))).imp ?_
      intro next hnext
      exact ih hnext fun later hmem => htokens later (List.mem_cons_of_mem _ hmem)

theorem OfWords.finish {reading : Reading} (h : reading.OfWords) :
    reading.finish.Ensures (fun ss => ∀ s ∈ ss, s.OfWords) (Diagnostic.IsAt .parse) := by
  unfold Reading.finish
  split
  · exact (rfl : Cause.stage (.unreadable .unclosed) = .parse)
  · intro s hs
    exact h.complete s (by simpa using hs)

end Reading

theorem readAll_ofWords (source : Text) :
    (readAll source).Ensures (fun ss => ∀ s ∈ ss, s.OfWords) (Diagnostic.IsAt .parse) := by
  have hstart : Reading.OfWords {} := ⟨by simp, by simp⟩
  have hscan := Token.scanFrom_ofWords source .between 0 trivial
  simp only [readAll, ofTokens, Except.ensures_bind]
  exact (hstart.foldlM hscan).imp fun _ hreading => hreading.finish

end TypedSexp.Sexp
