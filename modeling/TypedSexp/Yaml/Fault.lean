import TypedSexp.Text.Quoted

namespace TypedSexp.Yaml

structure Mark where
  index : Nat
  line : Nat
  column : Nat
deriving DecidableEq, Repr, Inhabited

inductive Problem where
  | leadingByte
  | cutSequence
  | trailingByte
  | longSequence
  | noCharacter
  | cutUnit
  | lowSurrogate
  | cutPair
  | noLowSurrogate
  | controlCharacter
  | noToken
  | missingColon
  | entryNotAllowed
  | keyNotAllowed
  | valueNotAllowed
  | depth
  | directiveName
  | directiveLetter
  | unknownDirective
  | directiveEnd
  | versionDot
  | versionLong
  | versionNumber
  | tagBlank
  | tagEnd
  | tagMark
  | tagUri
  | tagClosing
  | escapedOctet
  | escapedLeading
  | escapedTrailing
  | anchorName
  | zeroIndent
  | blockEnd
  | blockTab
  | quotedIndicator
  | quotedEnd
  | unknownEscape
  | escapeDigits
  | escapeCode
  | plainTab
  | duplicateVersion
  | otherVersion
  | duplicateTag
  | documentStart
  | undefinedHandle
  | nodeContent
  | entryMark
  | keyMark
  | sequenceMark
  | mappingMark
  | unknownAnchor (name : Text)
  | recursiveAnchor (name : Text)
  | aliasing
  | mergeValue
  | binary
  | keyValue
  | otherTag (found text expected : Text)
  | unknown
deriving DecidableEq, Repr

def Problem.message : Problem → Text
  | .leadingByte => utf8 "invalid leading UTF-8 octet"
  | .cutSequence => utf8 "incomplete UTF-8 octet sequence"
  | .trailingByte => utf8 "invalid trailing UTF-8 octet"
  | .longSequence => utf8 "invalid length of a UTF-8 sequence"
  | .noCharacter => utf8 "invalid Unicode character"
  | .cutUnit => utf8 "incomplete UTF-16 character"
  | .lowSurrogate => utf8 "unexpected low surrogate area"
  | .cutPair => utf8 "incomplete UTF-16 surrogate pair"
  | .noLowSurrogate => utf8 "expected low surrogate area"
  | .controlCharacter => utf8 "control characters are not allowed"
  | .noToken => utf8 "found character that cannot start any token"
  | .missingColon => utf8 "could not find expected ':'"
  | .entryNotAllowed => utf8 "block sequence entries are not allowed in this context"
  | .keyNotAllowed => utf8 "mapping keys are not allowed in this context"
  | .valueNotAllowed => utf8 "mapping values are not allowed in this context"
  | .depth => utf8 "exceeded max depth of 10000"
  | .directiveName => utf8 "could not find expected directive name"
  | .directiveLetter => utf8 "found unexpected non-alphabetical character"
  | .unknownDirective => utf8 "found unknown directive name"
  | .directiveEnd => utf8 "did not find expected comment or line break"
  | .versionDot => utf8 "did not find expected digit or '.' character"
  | .versionLong => utf8 "found extremely long version number"
  | .versionNumber => utf8 "did not find expected version number"
  | .tagBlank => utf8 "did not find expected whitespace"
  | .tagEnd => utf8 "did not find expected whitespace or line break"
  | .tagMark => utf8 "did not find expected '!'"
  | .tagUri => utf8 "did not find expected tag URI"
  | .tagClosing => utf8 "did not find the expected '>'"
  | .escapedOctet => utf8 "did not find URI escaped octet"
  | .escapedLeading => utf8 "found an incorrect leading UTF-8 octet"
  | .escapedTrailing => utf8 "found an incorrect trailing UTF-8 octet"
  | .anchorName => utf8 "did not find expected alphabetic or numeric character"
  | .zeroIndent => utf8 "found an indentation indicator equal to 0"
  | .blockEnd => utf8 "did not find expected comment or line break"
  | .blockTab => utf8 "found a tab character where an indentation space is expected"
  | .quotedIndicator => utf8 "found unexpected document indicator"
  | .quotedEnd => utf8 "found unexpected end of stream"
  | .unknownEscape => utf8 "found unknown escape character"
  | .escapeDigits => utf8 "did not find expected hexdecimal number"
  | .escapeCode => utf8 "found invalid Unicode character escape code"
  | .plainTab => utf8 "found a tab character that violates indentation"
  | .duplicateVersion => utf8 "found duplicate %YAML directive"
  | .otherVersion => utf8 "found incompatible YAML document"
  | .duplicateTag => utf8 "found duplicate %TAG directive"
  | .documentStart => utf8 "did not find expected <document start>"
  | .undefinedHandle => utf8 "found undefined tag handle"
  | .nodeContent => utf8 "did not find expected node content"
  | .entryMark => utf8 "did not find expected '-' indicator"
  | .keyMark => utf8 "did not find expected key"
  | .sequenceMark => utf8 "did not find expected ',' or ']'"
  | .mappingMark => utf8 "did not find expected ',' or '\x7d'"
  | .unknownAnchor name => utf8 "unknown anchor " ++ name.inQuotes ++ utf8 " referenced"
  | .recursiveAnchor name => utf8 "anchor " ++ name.inQuotes ++ utf8 " value contains itself"
  | .aliasing => utf8 "document contains excessive aliasing"
  | .mergeValue => utf8 "map merge requires map or sequence of maps as the value"
  | .binary => utf8 "!!binary value contains invalid base64 data"
  | .keyValue => utf8 "invalid map key"
  | .otherTag found text expected =>
      utf8 "cannot decode " ++ found ++ utf8 " \x60" ++ text ++ utf8 "\x60 as a " ++ expected
  | .unknown => utf8 "unknown problem parsing YAML content"

inductive Misfit where
  | duplicateKey (line : Nat) (key : Text) (earlier : Nat)
  | otherKind (line : Nat) (tag text wanted : Text)
deriving DecidableEq, Repr

def collectionTags : List Text := [utf8 "!!seq", utf8 "!!map"]

def excerpt (text : Text) : Text :=
  if 10 < text.length then utf8 " \x60" ++ text.take 7 ++ utf8 "...\x60"
  else utf8 " \x60" ++ text ++ utf8 "\x60"

def Misfit.message : Misfit → Text
  | .duplicateKey line key earlier =>
      utf8 "line " ++ Text.ofNat line ++ utf8 ": mapping key " ++ key.quoted ++
        utf8 " already defined at line " ++ Text.ofNat earlier
  | .otherKind line tag text wanted =>
      utf8 "line " ++ Text.ofNat line ++ utf8 ": cannot unmarshal " ++ tag ++
        (if collectionTags.contains tag then text else excerpt text) ++ utf8 " into " ++ wanted

inductive Fault where
  /-- A problem at a line; at line zero, nowhere in particular. -/
  | malformed (line : Nat) (problem : Problem)
  | misfits (found : List Misfit)
deriving DecidableEq, Repr

namespace Fault

def message : Fault → Text
  | .malformed line problem =>
      let place := if line = 0 then [] else utf8 "line " ++ Text.ofNat line ++ utf8 ": "
      utf8 "yaml: " ++ place ++ problem.message
  | .misfits found =>
      utf8 "yaml: unmarshal errors:\n  " ++ Text.join (utf8 "\n  ") (found.map Misfit.message)

def plain (problem : Problem) : Fault := .malformed 0 problem

/-- A problem with a token that started at `start`, found at `here`. The first line is not told, as
a line of its own is left for problems that have none. -/
def inToken (start here : Mark) (problem : Problem) : Fault :=
  .malformed (if start.line ≠ 0 then start.line + 1 else if here.line ≠ 0 then here.line + 1 else 0)
    problem

/-- A problem with the order of tokens, found at `here` in what started at `start`. The line told is
the one before. -/
def inOrder (start here : Mark) (problem : Problem) : Fault :=
  .malformed (if start.line ≠ 0 then start.line else here.line) problem

end Fault

end TypedSexp.Yaml
