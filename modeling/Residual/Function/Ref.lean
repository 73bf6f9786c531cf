import Residual.Text.Hex

/-!
# Function references

A function reference is a function's address or table index with its type forgotten. Zero stands for
"no function" wherever references are stored, so it is not a reference.
-/

namespace Residual

/-- A non-null function address or table index. -/
structure FuncRef where
  raw : UInt64
  raw_ne_zero : raw ≠ 0
  deriving DecidableEq

namespace FuncRef

/-- The reference with the given address or index; none for zero. -/
def ofRaw? (raw : UInt64) : Option FuncRef :=
  if h : raw ≠ 0 then some ⟨raw, h⟩ else none

/-- The reference as messages show it, such as `func@0x40`. -/
def label (func : FuncRef) : String := "func@" ++ Text.hex func.raw.toNat

/-- The reference as state reports show it, such as `FuncRef(64)`. -/
def inspect (func : FuncRef) : String := "FuncRef(" ++ toString func.raw.toNat ++ ")"

theorem ofRaw?_raw (func : FuncRef) : ofRaw? func.raw = some func := by
  simp [ofRaw?, func.raw_ne_zero]

theorem ofRaw?_eq_some_iff (raw : UInt64) (func : FuncRef) :
    ofRaw? raw = some func ↔ raw = func.raw := by
  constructor
  · intro h
    unfold ofRaw? at h
    split at h
    · cases h
      rfl
    · cases h
  · rintro rfl
    exact ofRaw?_raw func

end FuncRef

end Residual
