import Residual.Argument.Buffer

/-!
# Runs of an argument buffer

A run is a sequence of commands. Bytes are added in three ways, and what was added can be taken out
at any time. The next command works on what the one before it has left, also where that was refused.
-/

namespace Residual

/-- A way to add bytes to a buffer. -/
inductive Addition where
  /-- Zero bytes, which the caller then fills in from the front. -/
  | allocate (count : Nat) (fill : Bytes)
  | write (value : Scalar)
  | describe (descriptor : Descriptor)
  deriving DecidableEq

/-- What can be asked of a buffer. -/
inductive BufferCommand where
  | add (addition : Addition)
  | take
  deriving DecidableEq

/-- What a buffer answers. -/
inductive BufferReply where
  | added (result : Except Error Unit)
  | taken (bytes : Bytes)

namespace ArgBuffer

/-- Adds the bytes of an addition. -/
def add : Addition → InPlace ArgBuffer Unit
  | .allocate count fill => do
    let buffer ← get
    allocate count
    copy buffer.size (fill.take count)
  | .write value => write value
  | .describe descriptor => describe descriptor

/-- The answer to a command and the buffer that it leaves. -/
def step (buffer : ArgBuffer) : BufferCommand → BufferReply × ArgBuffer
  | .add addition =>
    let (answer, next) := (add addition).outcome buffer
    (.added answer, next)
  | .take => (.taken buffer.take.1, buffer.take.2)

/-- The buffer after a sequence of commands. -/
def run (buffer : ArgBuffer) (commands : List BufferCommand) : ArgBuffer :=
  commands.foldl (fun buffer command => (buffer.step command).2) buffer

end ArgBuffer

end Residual
