namespace TypedSexp.Word

/-- The carry out of the sum of two words, which is set in the highest bit of what is shifted: where
both have that bit, or one has it and the sum has not. -/
def carry (x y : UInt64) : UInt64 := ((x &&& y) ||| ((x ||| y) &&& ~~~(x + y))) >>> 63

def lower (x : UInt64) : UInt64 := x &&& 0xFFFFFFFF

def upper (x : UInt64) : UInt64 := x >>> 32

def high (x y : UInt64) : UInt64 :=
  let middle := upper x * lower y + upper (lower x * lower y)
  upper x * upper y + upper middle + upper (lower middle + lower x * upper y)

def truncatedSub (x y : UInt64) : UInt64 := if y > x then 0 else x - y

end TypedSexp.Word
