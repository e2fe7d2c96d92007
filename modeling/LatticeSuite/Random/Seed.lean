import LatticeSuite.Bytes

/-!
# Seed material

Every generator is seeded with 48 bytes of entropy. The generators that
condense it mix in a fixed personalization string.
-/

namespace LatticeSuite.Seed

/-- The bytes of entropy drawn for a seeding. -/
def size : Nat := 48

/-- The string mixed into every seeding that condenses its input. -/
def personalization : Bytes :=
  "pqc-engine csprng".toUTF8.toList

/-- The words of `words` with the words of a seed added to them. A short seed
leaves the later words alone; of a long one the end is not used. -/
def addTo : (words : List UInt64) → (seed : Bytes) → List UInt64
  | [], _ => []
  | w :: ws, seed => (w ^^^ Bytes.toWord64LE seed) :: addTo ws (seed.drop 8)

@[simp] theorem length_addTo (words : List UInt64) (seed : Bytes) :
    (addTo words seed).length = words.length := by
  induction words generalizing seed with
  | nil => rfl
  | cons w ws ih => simp [addTo, ih]

end LatticeSuite.Seed
