import Rdwarfs.Source.Error
import Rdwarfs.Lib.Streams

/-!
# Output caps

compression/capped.rs:10-74: the sink that a decoder owning the output loop writes into. It
refuses the write that would pass its cap, whole. What a sink reserves at first matters only
where no vector can be that large; running out of memory as it grows is not modelled.
-/
namespace Rdwarfs.Source.Codecs

open Lib.Machine Lib.Streams

structure CappedWriter where
  buf : Bytes
  cap : Nat
  deriving DecidableEq, Repr

def CappedWriter.new (cap : Nat) : CappedWriter where
  buf := []
  cap := cap

/-- Reserves what is expected, clamped to the cap. -/
def CappedWriter.withExpectedSize (cap expected : Nat) : Result CappedWriter := do
  allocate (min expected cap)
  return .new cap

def CappedWriter.intoInner (writer : CappedWriter) : Bytes := writer.buf

def CappedWriter.write (writer : CappedWriter) (data : Bytes) : CappedWriter × Option IoError :=
  if saturatingAddWord writer.buf.length data.length > writer.cap then
    (writer, some {
      interrupted := false
      message := s!"output exceeded cap of {writer.cap} bytes" })
  else ({ writer with buf := writer.buf ++ data }, none)

/-- `write_all`: a write that does not fail takes everything, and no data is no call. -/
def CappedWriter.writeAll (writer : CappedWriter) (data : Bytes) :
    CappedWriter × Option IoError :=
  if data = [] then (writer, none) else writer.write data

end Rdwarfs.Source.Codecs
