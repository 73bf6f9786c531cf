import Residual.Function.Pointer

/-!
# Weighted sums

Sample functions of every arity in two calling conventions. All arithmetic is on 64-bit words and
wraps.
-/

namespace Residual.Sample

/-- How a function takes its arguments. -/
inductive Convention where
  | plain
  | foreign
  deriving DecidableEq

/-- A sum of words in which the first counts `weight` times, the next once more than that, and so
on. -/
def weightedSum : (weight : UInt64) → List UInt64 → UInt64
  | _, [] => 0
  | weight, value :: rest => weight * value + weightedSum (weight + 1) rest

/-- The sample function of a convention. -/
def sumOf : Convention → List UInt64 → UInt64
  | .plain, args => weightedSum 1 args
  | .foreign, args => 7 + weightedSum 2 args

/-- The pointer to the sample function of a convention with a given arity. -/
def sumPointer (convention : Convention) (arity : Nat) : FuncPtr arity :=
  match convention with
  | .plain => ⟨⟨1, by decide⟩⟩
  | .foreign => ⟨⟨2, by decide⟩⟩

/-- Calls the sample function behind a pointer. -/
def callSum {arity : Nat} (pointer : FuncPtr arity) (args : List UInt64) : UInt64 :=
  if pointer = sumPointer .plain arity then sumOf .plain args else sumOf .foreign args

/-- Calls the sample function of a convention through its erased pointer. -/
def callErased (convention : Convention) (args : List UInt64) : UInt64 :=
  callSum (FuncPtr.restore args.length (sumPointer convention args.length).erase) args

end Residual.Sample
