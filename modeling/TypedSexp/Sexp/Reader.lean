import TypedSexp.Diagnostic.Basic
import TypedSexp.Sexp.Basic
import TypedSexp.Sexp.Token
import TypedSexp.Stack

namespace TypedSexp.Sexp

/-- A list that is still open: where it began and its elements so far, last one first. -/
structure OpenList where
  offset : Nat
  elems : List Sexp
deriving Repr

/-- What has been read so far: the s-expressions that are complete, last one first, and the open
lists, innermost on top. -/
structure Reading where
  complete : List Sexp := []
  pending : Stack OpenList := {}
deriving Repr

namespace Reading

def add (reading : Reading) (s : Sexp) : Reading :=
  match reading.pending.pop? with
  | some (inner, outer) =>
      { reading with pending := outer.push { inner with elems := s :: inner.elems } }
  | none => { reading with complete := s :: reading.complete }

def step (reading : Reading) : Token → Except Diagnostic Reading
  | .atom offset text =>
      .ok (reading.add (.atom (Range.ofOffsets offset (offset + text.length)) text))
  | .opening offset => .ok { reading with pending := reading.pending.push ⟨offset, []⟩ }
  | .closing offset =>
      match reading.pending.pop? with
      | some (inner, outer) =>
          .ok ({ reading with pending := outer }.add
            (.list (Range.ofOffsets inner.offset (offset + 1)) inner.elems.reverse))
      | none => .error ⟨Range.ofOffsets offset (offset + 1), .unreadable .unmatched⟩

def finish (reading : Reading) : Except Diagnostic (List Sexp) :=
  match reading.pending.top? with
  | some inner => .error ⟨Range.ofOffsets inner.offset (inner.offset + 1), .unreadable .unclosed⟩
  | none => .ok reading.complete.reverse

end Reading

def ofTokens (tokens : List Token) : Except Diagnostic (List Sexp) := do
  let reading ← tokens.foldlM Reading.step {}
  reading.finish

def readAll (source : Text) : Except Diagnostic (List Sexp) := ofTokens (Token.scan source)

end TypedSexp.Sexp
