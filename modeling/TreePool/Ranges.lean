/-! # Ranges of numbers

Worker counts and levels are signed words of 32 bits; sizes and indices are words of 64 bits.
-/

namespace TreePool

/-- The largest signed word of 32 bits. -/
def int32Max : Nat := 0x7FFFFFFF

def isInt32 (n : Int) : Bool := -0x80000000 ≤ n && n ≤ int32Max

/-- The number of words of 64 bits. -/
def wordCount : Nat := 0x10000000000000000

end TreePool
