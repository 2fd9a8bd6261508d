import TypedSexp.Text.Letters
import TypedSexp.Text.Width

namespace TypedSexp.Table

structure Rule where
  left : Text
  cross : Text
  right : Text

def Rule.top : Rule := ⟨utf8 "┌", utf8 "┬", utf8 "┐"⟩

def Rule.middle : Rule := ⟨utf8 "├", utf8 "┼", utf8 "┤"⟩

def Rule.bottom : Rule := ⟨utf8 "└", utf8 "┴", utf8 "┘"⟩

def Rule.draw (rule : Rule) (widths : List Nat) : Text :=
  let dashes (width : Nat) : Text := (List.replicate (width + 2) (utf8 "─")).flatten
  rule.left ++ Text.join rule.cross (widths.map dashes) ++ rule.right

def drawRow (widths : List Nat) (cells : List Text) : Text :=
  let padded := (cells.zip widths).map fun entry =>
    utf8 " " ++ entry.1.padRight entry.2 ++ utf8 " "
  utf8 "│" ++ Text.join (utf8 "│") padded ++ utf8 "│"

def widthsOf (heading : List Text) (rows : List (List Text)) : List Nat :=
  rows.foldl (fun widths row => List.zipWith max widths (row.map Text.width))
    (heading.map Text.width)

def draw (heading : List Text) (rows : List (List Text)) : Text :=
  let heading := heading.map Text.toUpper
  let widths := widthsOf heading rows
  Text.lines ([Rule.top.draw widths, drawRow widths heading, Rule.middle.draw widths] ++
    rows.map (drawRow widths) ++ [Rule.bottom.draw widths])

end TypedSexp.Table
