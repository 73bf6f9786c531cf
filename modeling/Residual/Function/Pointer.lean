import Residual.Function.Ref

/-!
# Function pointers

A function pointer is a function reference together with the number of arguments that the function
takes. The number belongs to the type: it is forgotten when the pointer is erased to a reference,
and whoever restores the pointer states it again.
-/

namespace Residual

/-- A pointer to a function of `arity` arguments. -/
structure FuncPtr (arity : Nat) where
  ref : FuncRef
  deriving DecidableEq

namespace FuncPtr

/-- The reference that is left when the type of a pointer is forgotten. -/
def erase {arity : Nat} (pointer : FuncPtr arity) : FuncRef := pointer.ref

/-- The pointer of a given type behind a reference. -/
def restore (arity : Nat) (func : FuncRef) : FuncPtr arity := ⟨func⟩

@[simp] theorem restore_erase {arity : Nat} (pointer : FuncPtr arity) :
    restore arity pointer.erase = pointer := rfl

end FuncPtr

end Residual
