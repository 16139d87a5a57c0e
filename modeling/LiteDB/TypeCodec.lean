import LiteDB.RowCodec

namespace LiteDB.TypeCodec

open RowCodec VersionKeys

variable (B : Builtins)

def encodeInt (x : Int) : Text := formatHex 16 (x + 2 ^ 63)

/-- All bits of a negative number are flipped, and the sign bit of another one. -/
def encodeFloat (bits : BitVec 64) : Text :=
  formatHex 16 (if bits.msb then ~~~bits else bits ^^^ BitVec.intMin 64).toNat

def encode (type : Option Text) (value : Text) : Text :=
  let t := B.upper (type.getD [])
  if t = "INT".toList then ((B.int value).map encodeInt).getD value
  else if t = "FLOAT".toList ∨ t = "DOUBLE".toList then ((B.float value).map encodeFloat).getD value
  else value

def compare (type : Option Text) (a b : Text) : Int :=
  let ea := encode B type a
  let eb := encode B type b
  (if eb < ea then 1 else 0) - (if ea < eb then 1 else 0)

section Order

variable {B} {type : Option Text} {a b : Text}

def Agrees (result : Int) (lt eq gt : Prop) : Prop :=
  (result < 0 ↔ lt) ∧ (result = 0 ↔ eq) ∧ (0 < result ↔ gt)

theorem compare_agrees : Agrees (compare B type a b) (encode B type a < encode B type b)
    (encode B type a = encode B type b) (encode B type b < encode B type a) := by
  unfold Agrees compare
  rcases lt_trichotomy (encode B type a) (encode B type b) with h | h | h
  · simp [h, h.not_gt, h.ne]
  · simp [h]
  · simp [h, h.not_gt, h.ne']

end Order

section Integers

variable {B} {type : Option Text} {a b : Text}

theorem encodeInt_inj {x y : Int} : encodeInt x = encodeInt y ↔ x = y :=
  formatHex_inj.trans (add_left_inj _)

/-- For two numbers `x < y`: the sign sorts before the digits, and behind a sign the
digits would have to descend. -/
def InOrder : Int → Int → Prop
  | .ofNat n, .ofNat m => Ascends 16 n m
  | .negSucc n, .negSucc m => ¬Ascends 15 (m + 1) (n + 1)
  | _, _ => True

instance (x y : Int) : Decidable (InOrder x y) := by
  induction x using Int.casesOn <;> induction y using Int.casesOn <;> unfold InOrder Ascends <;>
    infer_instance

theorem formatHex_lt_iff_inOrder {x y : Int} (h : x < y) :
    formatHex 16 x < formatHex 16 y ↔ InOrder x y := by
  cases x with
  | ofNat n =>
    cases y with
    | ofNat m => exact formatHex_lt_iff_ascends (Int.ofNat_lt.mp h)
    | negSucc m => exact absurd h (Int.negSucc_lt_zero m |>.trans_le (Int.natCast_nonneg n)).not_gt
  | negSucc n =>
    cases y with
    | ofNat m => exact iff_of_true (sign_lt_formatHex _ m) trivial
    | negSucc m =>
      have hlt : m + 1 < n + 1 := by omega
      show '-' :: formatHex 15 (n + 1 : Nat) < '-' :: formatHex 15 (m + 1 : Nat) ↔ _
      have hne : formatHex 15 (n + 1 : Nat) ≠ formatHex 15 (m + 1 : Nat) := fun heq =>
        hlt.ne' (Int.ofNat_inj.mp (formatHex_inj.mp heq))
      rw [List.cons_lt_cons_iff, InOrder, ← formatHex_lt_iff_ascends hlt, not_lt, hne.le_iff_lt]
      simp

theorem encodeInt_lt_iff {x y : Int} (h : x < y) :
    encodeInt x < encodeInt y ↔ InOrder (x + 2 ^ 63) (y + 2 ^ 63) :=
  formatHex_lt_iff_inOrder (Int.add_lt_add_right h _)

theorem compare_int {x y : Int} (htype : B.upper (type.getD []) = "INT".toList)
    (hx : B.int a = some x) (hy : B.int b = some y) :
    (Agrees (compare B type a b) (x < y) (x = y) (y < x) ↔
        (x < y → InOrder (x + 2 ^ 63) (y + 2 ^ 63)) ∧
          (y < x → InOrder (y + 2 ^ 63) (x + 2 ^ 63))) ∧
      (encode B type a = encode B type b ↔ x = y) := by
  have hencode : ∀ {value x}, B.int value = some x → encode B type value = encodeInt x := by
    intro value x hvalue
    simp only [encode, htype, if_true, hvalue, Option.map_some, Option.getD_some]
  obtain ⟨hlt, heq, hgt⟩ : Agrees (compare B type a b) _ _ _ := compare_agrees
  rw [hencode hx, hencode hy] at hlt heq hgt ⊢
  refine ⟨?_, encodeInt_inj⟩
  rw [Agrees, hlt, heq, hgt, encodeInt_inj]
  rcases lt_trichotomy x y with h | rfl | h
  · have hne : encodeInt x ≠ encodeInt y := fun hxy => h.ne (encodeInt_inj.mp hxy)
    rw [← encodeInt_lt_iff h]
    simp [h, h.not_gt, h.ne, hne.le_iff_lt]
  · simp
  · have hne : encodeInt y ≠ encodeInt x := fun hxy => h.ne (encodeInt_inj.mp hxy)
    rw [← encodeInt_lt_iff h]
    simp [h, h.not_gt, h.ne', hne.le_iff_lt]

theorem compare_int_ends : compare ascii (some "int".toList) "-9223372036854775808".toList
    "9223372036854775807".toList < 0 :=
  ((compare_int (by decide) (show _ = some (-2 ^ 63) by decide)
    (show _ = some (2 ^ 63 - 1) by decide)).1.mpr (by decide)).1.mpr (by decide)

/-- The encoding of the first number that is no `long` has a digit more. -/
theorem compare_int_overflow : ¬∀ (B : Builtins) (type : Option Text) (a b : Text) (x y : Int),
    B.upper (type.getD []) = "INT".toList → B.int a = some x → B.int b = some y →
      Agrees (compare B type a b) (x < y) (x = y) (y < x) := by
  intro hall
  have h := hall ascii (some "INT".toList) "9223372036854775807".toList
    "9223372036854775808".toList (2 ^ 63 - 1) (2 ^ 63) (by decide) (by decide) (by decide)
  exact absurd (h.1.mpr (by decide)) (by decide)

end Integers

/-- What a bit pattern denotes, up to a strictly increasing function: its sign and the
other bits. -/
def magnitude (bits : BitVec 64) : Int :=
  if bits.msb then -((bits.toNat - 2 ^ 63 : Nat) : Int) else bits.toNat

/-- `bits ^= (bits >> 63) | Long.MIN_VALUE` of `TypeCodec.java`, printed by `"%016x"`. -/
def javaEncodeFloat (bits : BitVec 64) : Text :=
  formatHex 16 (bits ^^^ (bits.sshiftRight 63 ||| BitVec.intMin 64)).toNat

theorem javaEncodeFloat_eq (bits : BitVec 64) : javaEncodeFloat bits = encodeFloat bits := by
  have hshift : ∀ i (hi : i < 64), (bits.sshiftRight 63)[i] = bits.msb := by
    intro i hi
    rw [BitVec.getElem_sshiftRight]
    split
    · obtain rfl : i = 0 := by omega
      exact (BitVec.msb_eq_getLsbD_last bits).symm
    · rfl
  rw [javaEncodeFloat, encodeFloat]
  congr 3
  ext i hi
  rw [BitVec.getElem_xor, BitVec.getElem_or, hshift]
  split <;> simp [*]

theorem xor_two_pow {n i : Nat} (h : n < 2 ^ i) : n ^^^ 2 ^ i = n + 2 ^ i := by
  rw [Nat.add_comm, ← Nat.mul_one (2 ^ i), Nat.two_pow_add_eq_or_of_lt h, Nat.mul_one]
  refine Nat.eq_of_testBit_eq fun j => ?_
  rw [Nat.testBit_xor, Nat.testBit_or, Nat.testBit_two_pow]
  by_cases hj : i = j
  · subst hj
    simp [Nat.testBit_lt_two_pow h]
  · simp [hj]

/-- The number that is printed: the negative patterns lie below the middle, one lower than
their magnitudes say. -/
theorem exists_encodeFloat (bits : BitVec 64) : ∃ n : Nat, encodeFloat bits = formatHex 16 n ∧
    n < 2 ^ 64 ∧ ((n = magnitude bits + (2 ^ 63 - 1) ∧ magnitude bits ≤ 0) ∨
      (n = magnitude bits + 2 ^ 63 ∧ 0 ≤ magnitude bits)) := by
  refine ⟨_, rfl, BitVec.isLt _, ?_⟩
  unfold magnitude
  have hlt := bits.isLt
  cases hmsb : bits.msb with
  | true =>
    rw [BitVec.msb_eq_true_iff_two_mul_ge] at hmsb
    simp only [if_true, BitVec.toNat_not]
    omega
  | false =>
    rw [BitVec.msb_eq_false_iff_two_mul_lt] at hmsb
    have hxor : (bits ^^^ BitVec.intMin 64).toNat = bits.toNat + 2 ^ 63 := by
      rw [BitVec.toNat_xor, BitVec.toNat_intMin]
      exact xor_two_pow (i := 63) (by omega)
    simp only [Bool.false_eq_true, if_false, hxor]
    omega

theorem encodeFloat_order {p q : BitVec 64} (h : magnitude p = 0 → magnitude q = 0 → p = q) :
    (encodeFloat p < encodeFloat q ↔ magnitude p < magnitude q) ∧
      (encodeFloat p = encodeFloat q ↔ magnitude p = magnitude q) ∧
      javaEncodeFloat p = encodeFloat p ∧ javaEncodeFloat q = encodeFloat q := by
  obtain ⟨n, hp, hn, hnp⟩ := exists_encodeFloat p
  obtain ⟨m, hq, hm, hmq⟩ := exists_encodeFloat q
  have hzero : magnitude p = 0 → magnitude q = 0 → (n : Int) = m := by
    intro hzp hzq
    rw [h hzp hzq] at hp
    exact formatHex_inj.mp (hp.symm.trans hq)
  refine ⟨?_, ?_, javaEncodeFloat_eq p, javaEncodeFloat_eq q⟩
  · rw [hp, hq, formatHex_lt_iff hn hm]
    omega
  · rw [hp, hq, formatHex_inj]
    omega

theorem encodeFloat_infinities :
    encodeFloat 0xFFF0000000000000#64 < encodeFloat 0x7FF0000000000000#64 :=
  (encodeFloat_order (by decide)).1.mpr (by decide)

def IsNaN (bits : BitVec 64) : Prop := 0x7FF0000000000000 < bits.toNat % 2 ^ 63

theorem encodeFloat_zeros : ¬∀ p q : BitVec 64, ¬IsNaN p → ¬IsNaN q →
    (encodeFloat p < encodeFloat q ↔ magnitude p < magnitude q) ∧
      (encodeFloat p = encodeFloat q ↔ magnitude p = magnitude q) := by
  intro hall
  have h := hall 0 (BitVec.intMin 64) (show ¬_ < _ by decide) (show ¬_ < _ by decide)
  exact absurd (h.2.mpr (by decide)) (by decide)

end LiteDB.TypeCodec
