import LatticeSuite.Cipher.ChaCha20
import LatticeSuite.Cipher.Keystream
import LatticeSuite.Cipher.Poly1305

/-!
# ChaCha20-Poly1305 without associated data

Encryption adds the keystream from its second block on and a tag over the
result; the first block is the one-time key of the tag. Decryption checks the
tag first and yields nothing if it differs. `decrypt?_encrypt` says that it
gives the message back under the same key and nonce.
-/

namespace LatticeSuite.Sealed

/-- Block `i` of the keystream of a key of 32 bytes and a nonce of 12. -/
def block (key nonce : Bytes) (i : Nat) : Bytes :=
  ChaCha20.block (ChaCha20.keyOf key)
    ⟨UInt32.ofNat i, Bytes.toWord32LE nonce, Bytes.toWord32LE (nonce.drop 4),
     Bytes.toWord32LE (nonce.drop 8)⟩

@[simp] theorem length_block (key nonce : Bytes) (i : Nat) : (block key nonce i).length = 64 :=
  rfl

/-- The bytes added to a message of `n` bytes. -/
def stream (key nonce : Bytes) (n : Nat) : Bytes :=
  Keystream.slice 64 (block key nonce) 64 n

/-- The tag of an encrypted message: over the message, filled up to a multiple
of sixteen bytes, and the lengths of the absent associated data and of it. -/
def tag (key nonce body : Bytes) : Bytes :=
  Poly1305.tag ((block key nonce 0).take 32)
    (body ++ List.replicate ((16 - body.length % 16) % 16) 0 ++ Bytes.toLE 8 0 ++
      Bytes.toLE 8 body.length)

/-- Encrypt a message and append its tag. -/
def encrypt (key nonce message : Bytes) : Bytes :=
  let body := Bytes.xor message (stream key nonce message.length)
  body ++ tag key nonce body

/-- The message of a sealed text, if its tag is right. -/
def decrypt? (key nonce sealedText : Bytes) : Option Bytes :=
  if sealedText.length < 16 then none
  else
    let body := sealedText.take (sealedText.length - 16)
    if sealedText.drop (sealedText.length - 16) = tag key nonce body then
      some (Bytes.xor body (stream key nonce body.length))
    else none

@[simp] theorem length_stream (key nonce : Bytes) (n : Nat) : (stream key nonce n).length = n :=
  Keystream.length_slice (by decide) (length_block key nonce) _ _

/-- Sealing adds sixteen bytes. -/
theorem length_encrypt (key nonce message : Bytes) :
    (encrypt key nonce message).length = message.length + 16 := by
  simp [encrypt, tag, Bytes.xor]

/-- What was sealed is opened again. -/
theorem decrypt?_encrypt (key nonce message : Bytes) :
    decrypt? key nonce (encrypt key nonce message) = some message := by
  have hxor : ∀ a b : Bytes, a.length = b.length → Bytes.xor (Bytes.xor a b) b = a := by
    intro a
    induction a with
    | nil => intro b _; rfl
    | cons x a ih =>
      intro b h
      cases b with
      | nil => simp at h
      | cons y b =>
        simp only [List.length_cons, Nat.add_right_cancel_iff] at h
        have := ih b h
        simp only [Bytes.xor] at this
        simp only [Bytes.xor, List.zipWith_cons_cons, this, UInt8.xor_assoc, UInt8.xor_self,
          UInt8.xor_zero]
  have hlen : (encrypt key nonce message).length - 16 =
      (Bytes.xor message (stream key nonce message.length)).length := by
    simp [length_encrypt, Bytes.xor]
  have hnot : ¬ (encrypt key nonce message).length < 16 := by
    simp [length_encrypt]
  simp only [decrypt?, if_neg hnot, hlen]
  simp only [encrypt, List.take_left, List.drop_left, if_true]
  rw [show (Bytes.xor message (stream key nonce message.length)).length = message.length by
    simp [Bytes.xor]]
  simp [hxor]

end LatticeSuite.Sealed
