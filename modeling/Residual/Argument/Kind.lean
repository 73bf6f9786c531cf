/-!
# Kinds of argument

An encoded argument names its kind by a 32-bit tag. All kinds but `runtime` ask for specialization,
which the flag word of the encoding repeats.
-/

namespace Residual

/-- What an argument description holds: a value of a fixed width, a copied memory region, or
nothing. -/
inductive ArgKind where
  | i32
  | i64
  | f32
  | f64
  | buffer
  | runtime
  deriving DecidableEq

namespace ArgKind

/-- Every kind, in tag order. -/
def all : List ArgKind := [i32, i64, f32, f64, buffer, runtime]

/-- The tag of a kind in the encoding. -/
def tag : ArgKind → UInt32
  | i32 => 0
  | i64 => 1
  | f32 => 2
  | f64 => 3
  | buffer => 4
  | runtime => 255

/-- The kind with a given tag. -/
def ofTag? (tag : UInt32) : Option ArgKind :=
  if tag = 0 then some i32
  else if tag = 1 then some i64
  else if tag = 2 then some f32
  else if tag = 3 then some f64
  else if tag = 4 then some buffer
  else if tag = 255 then some runtime
  else none

/-- Whether an argument of this kind is specialized on. -/
def isSpecialized : ArgKind → Bool
  | runtime => false
  | _ => true

/-- The name of a kind in messages. -/
def name : ArgKind → String
  | i32 => "I32"
  | i64 => "I64"
  | f32 => "F32"
  | f64 => "F64"
  | buffer => "Buffer"
  | runtime => "None"

theorem ofTag?_tag (kind : ArgKind) : ofTag? kind.tag = some kind := by
  cases kind <;> rfl

theorem ofTag?_eq_some_iff (tag : UInt32) (kind : ArgKind) :
    ofTag? tag = some kind ↔ tag = kind.tag := by
  constructor
  · intro h
    unfold ofTag? at h
    repeat' split at h
    all_goals
      cases h
      try assumption
  · rintro rfl
    exact ofTag?_tag kind

end ArgKind

/-- The flag word of an encoded argument: its lowest bit asks for specialization, no other bit is
known. -/
def flagWord (specialized : Bool) : UInt32 := if specialized then 1 else 0

/-- The set flags in messages. -/
def flagText (specialized : Bool) : String :=
  if specialized then "ArgFlags(SPECIALIZE)" else "ArgFlags(0x0)"

end Residual
