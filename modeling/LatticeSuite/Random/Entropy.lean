import LatticeSuite.Bytes
import LatticeSuite.Random.Error
import LatticeSuite.Random.Request

/-!
# The sources of entropy

What surrounds the library is a value too: the callback that the application
installed, and the host's own sources. Both answer by the number of the call,
so a run is determined by them, and the call counters say how far it went.

A callback is given a buffer. It may fail, or succeed and leave bytes in the
front of the buffer, as few as it likes.
-/

namespace LatticeSuite

/-- The application's callback: from the number of the call and the size of
the buffer to the bytes it leaves in front, or nothing if it fails. -/
abbrev EntropyCallback := (call : Nat) → (size : Nat) → Option Bytes

/-- The host's answer to a request for bytes, by source and number of the
request. -/
abbrev HostEntropy := EntropySource → (call : Nat) → (size : Nat) → Except EntropyError Bytes

/-- Everything that random bytes may come from, and how often it was asked. -/
structure Entropy where
  callback : Option EntropyCallback := none
  /-- How often a callback was called, whatever came of it. -/
  calls : Nat := 0
  host : HostEntropy := fun _ _ _ => .error (.os "no host")
  /-- How often the host was asked. -/
  hostCalls : Nat := 0

namespace Entropy

/-- The buffer after `written` was left in front of it. -/
def overlay (written buffer : Bytes) : Bytes :=
  written.take buffer.length ++ buffer.drop written.length

@[simp] theorem length_overlay (written buffer : Bytes) :
    (overlay written buffer).length = buffer.length := by
  simp [overlay]
  omega

/-- Ask the host for `n` bytes. -/
def askHost (e : Entropy) (source : EntropySource) (n : Nat) :
    Except EntropyError Bytes × Entropy :=
  (e.host source e.hostCalls n, { e with hostCalls := e.hostCalls + 1 })

/-- Fill a buffer from a source. -/
def gather (e : Entropy) (source : EntropySource) (buffer : Bytes) :
    Except EntropyError Bytes × Entropy :=
  match source with
  | .callback =>
    match e.callback with
    | none => (.error .noCallback, e)
    | some f =>
      let e' := { e with calls := e.calls + 1 }
      match f e.calls buffer.length with
      | none => (.error .callback, e')
      | some written => (.ok (overlay written buffer), e')
  | source =>
    let (r, e') := e.askHost source buffer.length
    (r.map fun bs => overlay bs buffer, e')

end Entropy

end LatticeSuite
