import Residual.Error

/-!
# Function numbering

Guest memory names functions by 32-bit table indices, and a function table gives them out. Either
references are such indices already, or they are numbered densely from one, in the order of their
first use.
-/

namespace Residual

/-- A function table. What it keeps may change whenever it is asked for an index, also if it has
none to give. -/
class FuncTable (Funcs : Type) where
  /-- Gives a function its index. -/
  assign : Funcs → FuncRef → Except Error UInt32 × Funcs

/-- The table in which every reference is its own index. -/
structure DirectIndex where
  deriving DecidableEq

instance : FuncTable DirectIndex where
  assign index func :=
    (if func.raw.toNat < 0x100000000 then .ok func.raw.toUInt32
      else .error (.malformed (.wideFunction func)), index)

/-- A dense numbering of functions: the first reference has number one. -/
structure FuncIndex where
  refs : List FuncRef
  nodup : refs.Nodup
  deriving DecidableEq

namespace FuncIndex

/-- The numbering of no functions. -/
def empty : FuncIndex := ⟨[], .nil⟩

/-- The number of functions that have a number. -/
def size (index : FuncIndex) : Nat := index.refs.length

/-- The function with a given number. -/
def get? (index : FuncIndex) (number : UInt32) : Option FuncRef :=
  match number.toNat with
  | 0 => none
  | position + 1 => index.refs[position]?

/-- The position of a function: that of its first use, or the next one. -/
def position (index : FuncIndex) (func : FuncRef) : Nat := index.refs.idxOf func

/-- The number of a function that has one, or would get as the next. -/
def number (index : FuncIndex) (func : FuncRef) : UInt32 := .ofNat (index.position func + 1)

/-- The numbering in which a function has a number, even one that does not fit into a word. -/
def enroll (index : FuncIndex) (func : FuncRef) : FuncIndex :=
  if h : func ∈ index.refs then index
  else
    ⟨index.refs ++ [func], by
      rw [List.nodup_append]
      refine ⟨index.nodup, List.nodup_cons.mpr ⟨List.not_mem_nil, List.nodup_nil⟩, ?_⟩
      intro known hknown other hother heq
      rw [List.mem_singleton] at hother
      exact h (hother ▸ heq ▸ hknown)⟩

end FuncIndex

instance : FuncTable FuncIndex where
  assign index func :=
    (if index.position func + 1 < 0x100000000 then .ok (index.number func)
      else .error (.malformed .functionTableFull), index.enroll func)

/-- One of the two tables, chosen while the program runs. -/
inductive Numbering where
  /-- A reference is its own index. -/
  | direct
  /-- References are numbered in the order of their first use. -/
  | dense (index : FuncIndex)
  deriving DecidableEq

namespace Numbering

/-- The index of a function that has one. -/
def index (numbering : Numbering) (func : FuncRef) : UInt32 :=
  match numbering with
  | direct => func.raw.toUInt32
  | dense index => index.number func

/-- Gives a function its index. -/
def assign (numbering : Numbering) (func : FuncRef) : Except Error UInt32 × Numbering :=
  match numbering with
  | direct =>
    let (number, _) := FuncTable.assign DirectIndex.mk func
    (number, direct)
  | dense index =>
    let (number, index) := FuncTable.assign index func
    (number, dense index)

end Numbering

instance : FuncTable Numbering := ⟨Numbering.assign⟩

end Residual
