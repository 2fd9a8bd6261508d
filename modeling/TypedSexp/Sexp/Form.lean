import TypedSexp.Diagnostic.Basic
import TypedSexp.Sexp.Basic

namespace TypedSexp.Sexp.Form

def wrongCount {α : Type} (range : Range) (form expected : Text) (args : List Sexp) :
    Except Diagnostic α :=
  .error ⟨range, .malformedForm form expected (utf8 "got " ++ Text.ofNat args.length)⟩

def wrongPart {α : Type} (range : Range) (form expected : Text) (part : Sexp) :
    Except Diagnostic α :=
  .error ⟨range, .malformedForm form expected (utf8 "got " ++ part.toText.inQuotes)⟩

def repeated {α : Type} (range : Range) (form what : Text) (name : Name) : Except Diagnostic α :=
  .error ⟨range, .malformedForm form (utf8 "unique " ++ what ++ utf8 " names")
    (name.inQuotes ++ utf8 " appears more than once")⟩

end TypedSexp.Sexp.Form
