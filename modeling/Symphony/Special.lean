import Symphony.Ty

/-!
# Signatures of special functions

Functions that are part of the language. Two of their names are reserved without a signature.
-/

namespace Symphony.Special

structure Signature where
  /-- The type of the result, if there is one. -/
  result : Option Ty
  /-- The types each argument may have. -/
  parameters : List (List Ty)
deriving DecidableEq

/-- The signature of a special function. -/
def signature? : String → Option Signature
  | "print" => some ⟨none, [Ty.all]⟩
  | "println" => some ⟨none, [Ty.all]⟩
  | "to_str" => some ⟨some .str, [Ty.all]⟩
  | "get" => some ⟨some .char, [[.str], [.int]]⟩
  | "sqrt" => some ⟨some .dec, [[.int, .dec]]⟩
  | "log" => some ⟨some .dec, [[.int, .dec]]⟩
  | "random" => some ⟨some .dec, []⟩
  | "little_star" => some ⟨none, []⟩
  | "A" => some ⟨none, []⟩
  | "B" => some ⟨none, []⟩
  | "C" => some ⟨none, []⟩
  | "D" => some ⟨none, []⟩
  | "E" => some ⟨none, []⟩
  | "F" => some ⟨none, []⟩
  | "G" => some ⟨none, []⟩
  | "length" => some ⟨some .int, [[.str]]⟩
  | "copy" => some ⟨none, [[.str], [.str]]⟩
  | "input" => some ⟨some .str, []⟩
  | "floor" => some ⟨some .int, [[.dec]]⟩
  | "ceil" => some ⟨some .int, [[.dec]]⟩
  | _ => none

end Symphony.Special
