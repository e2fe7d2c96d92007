import LatticeSuite.Coding.RangeCoder
import LatticeSuite.Coding.RunLength

/-!
# Run lengths behind the range coder

The pairs of a byte string, range coded, behind their number of bytes. Every
pair yields at least one byte, so a count above twice the declared length is
refused before anything is decoded.
-/

namespace LatticeSuite.RunCoder

def encode (raw : Bytes) : Bytes :=
  let runs := RunLength.encode raw
  Bytes.toBE 4 runs.length ++ RangeCoder.encode runs

/-- The `rawLength` bytes that a buffer codes. -/
def decode (coded : Bytes) (rawLength : Nat) : Decoded Bytes :=
  if coded.length < 4 then .error .truncated
  else
    let count := Bytes.ofBE (coded.take 4)
    if count > 2 * rawLength then .error (.malformed "run stream longer than output")
    else
      match RangeCoder.decode (coded.drop 4) count with
      | .error e => .error e
      | .ok runs => RunLength.decode runs rawLength

end LatticeSuite.RunCoder
