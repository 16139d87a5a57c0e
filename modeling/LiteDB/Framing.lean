import LiteDB.Lexicographic

namespace LiteDB.Framing

open Lexicographic List

abbrev Bytes := List UInt8

def limit : Nat := 256 ^ 4

def pack (n : Nat) : Bytes := fixedDigits UInt8.ofNat 256 4 n

def unpack (bytes : Bytes) : Nat := bytes.foldl (fun n b => n * 256 + b.toNat) 0

@[simp] theorem length_pack (n : Nat) : (pack n).length = 4 := length_fixedDigits

theorem foldl_fixedDigits {width n : Nat} (h : n < 256 ^ width) (m : Nat) :
    (fixedDigits UInt8.ofNat 256 width n).foldl (fun n b => n * 256 + b.toNat) m =
      m * 256 ^ width + n := by
  induction width generalizing n m with
  | zero =>
    obtain rfl : n = 0 := by simpa using h
    simp [fixedDigits]
  | succ width ih =>
    have hmod := Nat.mod_lt n (Nat.pow_pos (n := width) (show 0 < 256 by decide))
    have hdigit : (UInt8.ofNat (n / 256 ^ width)).toNat = n / 256 ^ width :=
      UInt8.toNat_ofNat_of_lt' (digit_lt h)
    rw [fixedDigits, foldl_cons, hdigit, ih hmod, Nat.add_mul, Nat.pow_succ, Nat.add_assoc,
      Nat.div_add_mod' n, Nat.mul_assoc, Nat.mul_comm 256]

theorem unpack_pack {n : Nat} (h : n < limit) : unpack (pack n) = n := by
  rw [unpack, pack, foldl_fixedDigits h]
  simp

section Frames

variable (checksum : Bytes → Nat)

def frame (payload : Bytes) : Bytes :=
  pack payload.length ++ payload ++ pack (checksum payload)

/-- The first record of a stream and what follows it, unless the record is cut off
or does not have its checksum. -/
def readFrame (bytes : Bytes) : Option (Bytes × Bytes) :=
  let body := bytes.drop 4
  let length := unpack (bytes.take 4)
  let rest := body.drop length
  if bytes.length < 4 then none
  else if body.length < length then none
  else if rest.length < 4 then none
  else if unpack (rest.take 4) ≠ checksum (body.take length) then none
  else some (body.take length, rest.drop 4)

variable {checksum} {payload rest torn : Bytes}

theorem length_frame : (frame checksum payload).length = payload.length + 8 := by
  simp [frame]
  omega

theorem readFrame_frame_append (hlength : payload.length < limit)
    (hchecksum : checksum payload < limit) :
    readFrame checksum (frame checksum payload ++ rest) = some (payload, rest) := by
  have htake : (frame checksum payload ++ rest).take 4 = pack payload.length := by
    simp [frame]
  have hdrop : (frame checksum payload ++ rest).drop 4 =
      payload ++ (pack (checksum payload) ++ rest) := by
    simp [frame]
  unfold readFrame
  simp only [htake, hdrop, unpack_pack hlength, drop_left, take_left]
  rw [take_left' (length_pack _), drop_left' (length_pack _), unpack_pack hchecksum]
  simp [length_frame]
  omega

theorem readFrame_of_torn (hlength : payload.length < limit)
    (htorn : torn <+: frame checksum payload) (hne : torn ≠ frame checksum payload) :
    readFrame checksum torn = none := by
  have hlt : torn.length < payload.length + 8 := by
    have hlen : (frame checksum payload).length = payload.length + 8 := length_frame
    rw [← hlen]
    exact lt_of_le_of_ne htorn.length_le fun heq => hne (htorn.eq_of_length heq)
  unfold readFrame
  by_cases hheader : torn.length < 4
  · simp [hheader]
  · have htake : torn.take 4 = pack payload.length := by
      obtain ⟨cut, hcut⟩ := htorn
      have hsame := congrArg (List.take 4) hcut
      rw [take_append_of_le_length (Nat.le_of_not_lt hheader)] at hsame
      rw [hsame]
      simp [frame]
    simp only [htake, unpack_pack hlength, length_drop]
    rw [if_neg hheader]
    split_ifs with h1 h2
    · rfl
    · rfl
    all_goals omega

end Frames

end LiteDB.Framing
