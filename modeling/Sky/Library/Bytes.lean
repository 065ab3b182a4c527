import Mathlib

/-! # Bytes as numbers below 256 -/

namespace Sky.Library

/-- The instance that every byte literal uses. -/
instance neZero_byte : NeZero 256 := ⟨by decide⟩

end Sky.Library
