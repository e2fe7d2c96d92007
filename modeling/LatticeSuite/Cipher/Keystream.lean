import LatticeSuite.Bytes

/-!
# Keystreams

A cipher in counter mode gives block after block; a reader sees one endless
byte string. `Keystream.slice` cuts a piece out of it by its position, so a
stream cipher needs no buffer: its whole state is the position reached.
-/

namespace LatticeSuite.Keystream

/-- The `n` bytes at offset `position` of the stream whose `i`th block is
`block i`, all blocks having `width` bytes. -/
def slice (width : Nat) (block : Nat → Bytes) (position n : Nat) : Bytes :=
  let first := position / width
  let skip := position % width
  (((List.range' first ((skip + n + width - 1) / width)).flatMap block).drop skip).take n

theorem length_slice {width : Nat} {block : Nat → Bytes} (hw : 0 < width)
    (h : ∀ i, (block i).length = width) (position n : Nat) :
    (slice width block position n).length = n := by
  simp only [slice, List.length_take, List.length_drop, Bytes.length_flatMap h,
    List.length_range']
  have := Nat.div_add_mod (position % width + n + width - 1) width
  have := Nat.mod_lt (position % width + n + width - 1) hw
  omega

end LatticeSuite.Keystream
