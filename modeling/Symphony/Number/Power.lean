/-!
# Powers of two and of ten
-/

namespace Symphony

/-- `2 ^ n`. -/
abbrev twoPow (n : Nat) : Nat := Nat.pow 2 n

/-- `10 ^ n`. -/
abbrev tenPow (n : Nat) : Nat := Nat.pow 10 n

end Symphony
