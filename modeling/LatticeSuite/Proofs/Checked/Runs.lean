import LatticeSuite.Coding.RunCoder
import LatticeSuite.Proofs.Checked.RangeDecoder
import Mathlib.Data.List.Induction

/-!
# Run lengths in registers

A pair is two bytes of the input at its two indices, and unfolding it makes the
output longer by its run. Both are harmless for reasons that have nothing to do
with who wrote the runs: there are as many bytes as the parity says, and the
output never grows beyond the length that was asked for.

The number of runs in front of a range coded stream is not to be trusted either.
It is compared with twice the length asked for, and so the positions that the
range decoder needs are those of a length that is bounded.
-/

namespace LatticeSuite

open Checked

namespace RunLength

/-- Unfold a pair behind what is unfolded already. -/
def unfoldPair (rawLength : Nat) (out pair : Bytes) : Checked Bytes := do
  let run ← read pair 0
  let b ← read pair 1
  if run = 0 then refuse (.malformed "zero-length run")
  else do
    let length ← fit 64 (out.length + run.toNat)
    if length > rawLength then refuse .lengthMismatch
    else .ok (out ++ List.replicate run.toNat b)

/-- The byte string of a list of pairs, which must have `rawLength` bytes. -/
def decodeChecked (runs : Bytes) (rawLength : Nat) : Checked Bytes :=
  if runs.length % 2 ≠ 0 then refuse (.malformed "odd run-length stream")
  else do
    let out ← (Bytes.chunks 2 runs).foldlM (unfoldPair rawLength) []
    if out.length ≠ rawLength then refuse .lengthMismatch
    else .ok out

/-- What the rest of the pairs unfolds to. -/
theorem foldlM_unfoldPair {rawLength : Nat} (hraw : rawLength < 2 ^ 56) {runs : Bytes}
    (heven : runs.length % 2 = 0) {acc : List UInt8} (hle : acc.length ≤ rawLength) :
    ((Bytes.chunks 2 runs).foldlM (unfoldPair rawLength) acc.reverse >>= fun out =>
      if out.length ≠ rawLength then refuse .lengthMismatch else .ok out) =
      ofDecoded (decodeFrom rawLength runs acc.length acc) := by
  induction runs using List.twoStepInduction generalizing acc with
  | nil =>
    rw [Bytes.chunks_nil, List.foldlM_nil, decodeFrom]
    · show (if acc.reverse.length ≠ rawLength then _ else _) = _
      rw [List.length_reverse, ite_not]
      split <;> rfl
    · simp
  | singleton a => exact absurd heven Nat.one_ne_zero
  | cons_cons run b rest ih _ =>
    have hrun := run.toNat_lt
    rw [Bytes.chunks_pair, List.foldlM_cons, unfoldPair, read_of_getElem? (a := run) rfl, ok_bind,
      read_of_getElem? (a := b) rfl, ok_bind, decodeFrom]
    by_cases hzero : run = 0
    · rw [if_pos hzero, if_pos hzero]
      rfl
    · rw [if_neg hzero, if_neg hzero, List.length_reverse, fit_of_lt (by omega), ok_bind]
      by_cases hlong : acc.length + run.toNat > rawLength
      · rw [if_pos hlong, if_pos hlong]
        rfl
      · have hlen : (List.replicate run.toNat b ++ acc).length = acc.length + run.toNat := by
          rw [List.length_append, List.length_replicate, Nat.add_comm]
        have hout : acc.reverse ++ List.replicate run.toNat b =
            (List.replicate run.toNat b ++ acc).reverse := by
          rw [List.reverse_append, List.reverse_replicate]
        rw [if_neg hlong, if_neg hlong, ok_bind, hout, ← hlen]
        refine ih ?_ (by omega)
        rw [List.length_cons, List.length_cons] at heven
        omega

theorem decodeChecked_eq (runs : Bytes) {rawLength : Nat} (h : rawLength < 2 ^ 56) :
    decodeChecked runs rawLength = ofDecoded (decode runs rawLength) := by
  rw [← refines_eq_iff, decodeChecked, decode]
  refine Refines.guard fun hodd => ?_
  rw [refines_eq_iff]
  exact foldlM_unfoldPair h (not_not.mp hodd) (show ([] : Bytes).length ≤ _ from Nat.zero_le _)

theorem length_of_decodeFrom {rawLength length : Nat} {runs raw : Bytes} {acc : List UInt8}
    (hlen : acc.length = length) (h : decodeFrom rawLength runs length acc = .ok raw) :
    raw.length = rawLength := by
  fun_induction decodeFrom rawLength runs length acc with
  | case1 => exact nomatch h
  | case2 => exact nomatch h
  | case3 length acc run b rest _ _ ih =>
    refine ih ?_ h
    rw [List.length_append, List.length_replicate, hlen, Nat.add_comm]
  | case4 runs acc _ =>
    rw [← Except.ok.inj h, List.length_reverse, hlen]
  | case5 => exact nomatch h

/-- What is unfolded has the length asked for. -/
theorem length_of_decode {runs raw : Bytes} {rawLength : Nat}
    (h : decode runs rawLength = .ok raw) : raw.length = rawLength := by
  rw [decode] at h
  split at h
  next => exact nomatch h
  next => exact length_of_decodeFrom List.length_nil h

end RunLength

namespace RunCoder

/-- The `rawLength` bytes that a buffer codes. -/
def decodeChecked (coded : Bytes) (rawLength : Nat) : Checked Bytes :=
  if coded.length < 4 then refuse .truncated
  else do
    let field ← slice coded 0 4
    if Bytes.ofBE field > min (rawLength * 2) (2 ^ 64 - 1) then
      refuse (.malformed "run stream longer than output")
    else do
      let stream ← slice coded 4 coded.length
      let runs ← RangeCoder.decodeChecked stream (Bytes.ofBE field)
      RunLength.decodeChecked runs rawLength

theorem decodeChecked_eq (coded : Bytes) {rawLength : Nat} (h : rawLength < 2 ^ 56) :
    decodeChecked coded rawLength = ofDecoded (decode coded rawLength) := by
  rw [← refines_eq_iff, decodeChecked, decode]
  refine Refines.guard fun hshort => ?_
  have hsaturated : min (rawLength * 2) (2 ^ 64 - 1) = 2 * rawLength := by omega
  rw [slice_zero (Nat.le_of_not_lt hshort), ok_bind, hsaturated]
  refine Refines.guard fun hlong => ?_
  rw [slice_length (Nat.le_of_not_lt hshort), ok_bind,
    RangeCoder.decodeChecked_eq _ (by omega), refines_eq_iff]
  cases RangeCoder.decode (coded.drop 4) (Bytes.ofBE (coded.take 4)) with
  | error e => rfl
  | ok runs => exact RunLength.decodeChecked_eq runs h

theorem length_of_decode {coded raw : Bytes} {rawLength : Nat}
    (h : decode coded rawLength = .ok raw) : raw.length = rawLength := by
  rw [decode] at h
  split at h
  next => exact absurd h (by simp)
  next =>
    dsimp only at h
    split at h
    next => exact absurd h (by simp)
    next =>
      split at h
      next => exact absurd h (by simp)
      next => exact RunLength.length_of_decode h

end RunCoder

end LatticeSuite
