import TypedSexp.Files.Path

namespace TypedSexp

inductive FileFault where
  | missing
  | notDirectory
  | isDirectory
  | tooLong
  | badPath
deriving DecidableEq, Repr

def FileFault.message (path : Text) : FileFault → Text
  | .missing => utf8 "open " ++ path ++ utf8 ": no such file or directory"
  | .notDirectory => utf8 "open " ++ path ++ utf8 ": not a directory"
  | .isDirectory => utf8 "read " ++ path ++ utf8 ": is a directory"
  | .tooLong => utf8 "open " ++ path ++ utf8 ": file name too long"
  | .badPath => utf8 "open " ++ path ++ utf8 ": invalid argument"

abbrev Disk := Text → Except FileFault Text

/-- Files by their paths. A directory is there when a file is in it. -/
structure Tree where
  files : List (Text × Text)
deriving Repr

namespace Tree

def isDirectory (tree : Tree) (parts : List Text) : Bool :=
  parts.isEmpty || tree.files.any fun file =>
    parts.isPrefixOf (Path.parts file.1) && parts ≠ Path.parts file.1

def file? (tree : Tree) (parts : List Text) : Option Text :=
  tree.files.lookup (Text.join [Byte.slash] parts)

inductive Place where
  | inside (parts : List Text)
  | around
deriving DecidableEq, Repr

def follow (tree : Tree) (place : Place) : List Text → Except FileFault Place
  | [] => .ok place
  | part :: rest =>
      if Path.isIdle part then follow tree place rest
      else if part = Path.up then
        match place with
        | .inside [] => follow tree .around rest
        | .inside parts => follow tree (.inside parts.dropLast) rest
        | .around => follow tree .around rest
      else if Path.maxPart < part.length then .error .tooLong
      else match place with
        | .around => .error .missing
        | .inside parts =>
            let next := parts ++ [part]
            if tree.isDirectory next then follow tree (.inside next) rest
            else if (tree.file? next).isSome then
              if rest.isEmpty then .ok (.inside next) else .error .notDirectory
            else .error .missing

/-- Reads a path from the root of all files, where every system has a file without content and a
few directories. -/
def readRooted (path : Text) : Except FileFault Text :=
  let cleaned := Path.clean path
  if cleaned = utf8 "/dev/null" then .ok []
  else if Path.systemDirectories.contains cleaned then .error .isDirectory
  else if (Path.parts path).any (Path.maxPart < ·.length) then .error .tooLong
  else .error .missing

def disk (tree : Tree) : Disk := fun path => do
  if path.contains 0 then .error .badPath
  else if path.isEmpty then .error .missing
  else if Path.maxLength < path.length then .error .tooLong
  else if Path.isRooted path then readRooted path
  else
    match ← tree.follow (.inside []) (Path.parts path) with
    | .around => .error .isDirectory
    | .inside parts =>
        match tree.file? parts with
        | some content => .ok content
        | none => .error .isDirectory

def fetch (tree : Tree) (path : Text) : Except Text Text :=
  if Path.isCanonical path then
    match tree.files.lookup path with
    | some content => .ok content
    | none =>
        if path = Path.here || tree.isDirectory (Path.parts path) then
          .error (utf8 "read " ++ path ++ utf8 ": invalid argument")
        else .error (utf8 "open " ++ path ++ utf8 ": file does not exist")
  else .error (utf8 "open " ++ path ++ utf8 ": file does not exist")

end Tree

end TypedSexp
