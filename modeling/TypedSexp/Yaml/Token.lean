import TypedSexp.Yaml.Fault

namespace TypedSexp.Yaml

inductive Token.Kind where
  | streamEnd
  | version (major minor : Nat)
  | handle (handle start : Text)
  | documentStart
  | documentEnd
  | blockSequenceStart
  | blockMappingStart
  | blockEnd
  | flowSequenceStart
  | flowSequenceEnd
  | flowMappingStart
  | flowMappingEnd
  | blockEntry
  | flowEntry
  | key
  | value
  | alias (name : Text)
  | anchor (name : Text)
  | tag (handle suffix : Text)
  | scalar (text : Text) (plain : Bool)
deriving DecidableEq, Repr, Inhabited

structure Token where
  kind : Token.Kind
  mark : Mark
deriving DecidableEq, Repr, Inhabited

end TypedSexp.Yaml
