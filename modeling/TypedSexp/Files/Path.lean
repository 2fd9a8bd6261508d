import TypedSexp.Text.Utf8

namespace TypedSexp.Path

def parts (path : Text) : List Text := path.splitOn Byte.slash

def isRooted (path : Text) : Bool := path.head? = some Byte.slash

def here : Text := utf8 "."

def up : Text := utf8 ".."

def maxPart : Nat := 255

def maxLength : Nat := 4095

def systemDirectories : List Text :=
  [utf8 "/", utf8 "/dev", utf8 "/etc", utf8 "/proc", utf8 "/tmp", utf8 "/usr", utf8 "/var"]

def isIdle (part : Text) : Bool := part.isEmpty || part = here

def cleanStep (rooted : Bool) (kept : List Text) (part : Text) : List Text :=
  if isIdle part then kept
  else if part = up then
    match kept with
    | [] => if rooted then [] else [up]
    | last :: rest => if last = up then up :: last :: rest else rest
  else part :: kept

def clean (path : Text) : Text :=
  let kept := ((parts path).foldl (cleanStep (isRooted path)) []).reverse
  let joined := Text.join [Byte.slash] kept
  if isRooted path then Byte.slash :: joined else if kept.isEmpty then here else joined

def base (path : Text) : Text :=
  match ((parts path).filter (!·.isEmpty)).getLast? with
  | some last => last
  | none => if path.isEmpty then here else [Byte.slash]

/-- The one spelling by which a bundle of files knows a path: no part is empty, `.` or `..`, and the
text is valid UTF-8. The bundle itself is `.`. -/
def isCanonical (path : Text) : Bool :=
  path = here ||
    ((parts path).all (fun part => !isIdle part && part ≠ up) &&
      path.symbols.all fun
        | .scalar _ => true
        | .stray _ => false)

end TypedSexp.Path
