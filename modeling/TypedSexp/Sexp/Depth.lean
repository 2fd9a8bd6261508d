import TypedSexp.Text.Utf8

namespace TypedSexp.Sexp

def depthFrom (inComment : Bool) (depth : Int) : List Symbol → Int
  | [] => depth
  | s :: rest =>
      if inComment then depthFrom (s.code != Byte.newline.toNat) depth rest
      else if s.code = Byte.semicolon.toNat then depthFrom true depth rest
      else if s.code = Byte.openParen.toNat then depthFrom false (depth + 1) rest
      else if s.code = Byte.closeParen.toNat then depthFrom false (depth - 1) rest
      else depthFrom false depth rest

def depth (source : Text) : Int := depthFrom false 0 source.symbols

end TypedSexp.Sexp
