import LiteDB.Lexicographic
import Mathlib.Data.Char
import Mathlib.Data.Int.Notation

/-!
The physical keys of versions (`mvcc.py`): the user key, U+0000 and the distance
of the timestamp from its maximum in hexadecimal, so that a newer version of a
key sorts before an older one.
-/

namespace LiteDB.VersionKeys

open Lexicographic List Option

/-- A Python string as the list of its characters. -/
abbrev Text := List Char

scoped instance lawfulBEq : LawfulBEq Text := inferInstance

def maxTs : Int := 2 ^ 63 - 1

def sep : Char := Char.ofNat 0

def hi16 : Text := List.replicate 16 'f'

def hiChar : Char := Char.ofNat 0x10FFFF

def tombstone : Text := " __DELETED__".toList

def hexLength (n : Nat) : Nat := n.log2 / 4 + 1

/-- `format(x, "016x")` for `width` 16. The sign counts for the width. -/
def formatHex (width : Nat) : Int → Text
  | .ofNat n => fixedDigits Nat.digitChar 16 (max width (hexLength n)) n
  | .negSucc n =>
      '-' :: fixedDigits Nat.digitChar 16 (max (width - 1) (hexLength (n + 1))) (n + 1)

def versionKey (userKey : Text) (ts : Int) : Text :=
  userKey ++ sep :: formatHex 16 (maxTs - ts)

def hexValue (c : Char) : Option Nat :=
  if '0' ≤ c ∧ c ≤ '9' then some (c.toNat - 48)
  else if 'a' ≤ c ∧ c ≤ 'f' then some (c.toNat - 87)
  else if 'A' ≤ c ∧ c ≤ 'F' then some (c.toNat - 55)
  else none

def parseDigits (s : Text) : Option Nat :=
  if s = [] then none
  else s.foldlM (fun n c => (hexValue c).map fun d => n * 16 + d) 0

/-- `int(s, 16)` for an optional sign and digits; `none` stands for `ValueError`. -/
def parseHex : Text → Option Int
  | '-' :: s => (parseDigits s).map fun n : Nat => -(n : Int)
  | '+' :: s => (parseDigits s).map fun n : Nat => (n : Int)
  | s => (parseDigits s).map fun n : Nat => (n : Int)

def tsFromVersionKey (vkey : Text) : Option Int :=
  (parseHex (vkey.drop (vkey.length - 16))).map fun x => maxTs - x

/-- A user key that cannot be mistaken for another one together with its suffix. -/
def Plain (key : Text) : Prop := key ≠ [] ∧ sep ∉ key

instance (key : Text) : Decidable (Plain key) := inferInstanceAs (Decidable (_ ∧ _))

def InRange (ts : Int) : Prop := 0 ≤ ts ∧ ts ≤ maxTs

instance (ts : Int) : Decidable (InRange ts) := inferInstanceAs (Decidable (_ ∧ _))

variable {ts ts' : Int} {key key' : Text}

def suffix (ts : Int) : Text := fixedDigits Nat.digitChar 16 16 (maxTs - ts).toNat

theorem distance_lt (h : InRange ts) : (maxTs - ts).toNat < 16 ^ 16 := by
  unfold InRange maxTs at *
  omega

theorem lt_pow_hexLength (n : Nat) : n < 16 ^ hexLength n := by
  have hpow : 16 ^ hexLength n = 2 ^ (4 * hexLength n) := by rw [Nat.pow_mul]
  rw [hpow]
  refine Nat.lt_log2_self.trans_le (Nat.pow_le_pow_right (by decide) ?_)
  unfold hexLength
  omega

theorem formatHex_of_lt {n : Nat} (h : n < 16 ^ 16) :
    formatHex 16 n = fixedDigits Nat.digitChar 16 16 n := by
  have hlength : hexLength n ≤ 16 := by
    by_cases hzero : n = 0
    · subst hzero
      decide
    · have hlog := (Nat.log2_lt hzero).mpr (show n < 2 ^ 64 from h)
      unfold hexLength
      omega
  show fixedDigits Nat.digitChar 16 (max 16 (hexLength n)) n = _
  rw [max_eq_left hlength]

theorem formatHex_eq_suffix (h : InRange ts) : formatHex 16 (maxTs - ts) = suffix ts := by
  have hvalue : ((maxTs - ts).toNat : Int) = maxTs - ts := Int.toNat_of_nonneg (by
    unfold InRange at h
    omega)
  rw [← hvalue, formatHex_of_lt (distance_lt h), suffix]

theorem versionKey_eq (h : InRange ts) : versionKey key ts = key ++ sep :: suffix ts := by
  rw [versionKey, formatHex_eq_suffix h]

theorem digitChar_strictMono : StrictMonoOn Nat.digitChar (Set.Iio 16) := by
  have hall : ∀ a < 16, ∀ b < 16, a < b → Nat.digitChar a < Nat.digitChar b := by decide
  exact fun a ha b hb => hall a ha b hb

theorem formatHex_lt_iff {n m : Nat} (hn : n < 16 ^ 16) (hm : m < 16 ^ 16) :
    formatHex 16 n < formatHex 16 m ↔ n < m := by
  rw [formatHex_of_lt hn, formatHex_of_lt hm, fixedDigits_lt_iff digitChar_strictMono hn hm]

theorem hexLength_mono {n m : Nat} (h : n ≤ m) : hexLength n ≤ hexLength m := by
  unfold hexLength
  by_cases hn : n = 0
  · simp [hn]
  · have hlog := (Nat.le_log2 (Nat.ne_zero_of_lt (Nat.pos_of_ne_zero hn |>.trans_le h))).mpr
      ((Nat.log2_self_le hn).trans h)
    omega

/-- Digits are written for the difference of the widths only, so numbers of one width
ascend, and a longer number may begin with smaller digits. -/
def Ascends (width n m : Nat) : Prop :=
  n ≤ m / 16 ^ (max width (hexLength m) - max width (hexLength n))

theorem formatHex_lt_iff_ascends {width n m : Nat} (h : n < m) :
    formatHex width n < formatHex width m ↔ Ascends width n m := by
  have hlt : ∀ n, n < 16 ^ max width (hexLength n) := fun n =>
    (lt_pow_hexLength n).trans_le (Nat.pow_le_pow_right (by decide) (le_max_right _ _))
  have hwidth : max width (hexLength n) ≤ max width (hexLength m) := by
    have := hexLength_mono h.le
    omega
  obtain ⟨k, hk⟩ := Nat.exists_eq_add_of_le hwidth
  show fixedDigits _ _ _ n < fixedDigits _ _ _ m ↔ _
  have hm := hlt m
  rw [hk] at hm ⊢
  rw [Ascends, hk, Nat.add_sub_cancel_left]
  rcases Nat.eq_zero_or_pos k with rfl | hpos
  · rw [Nat.add_zero] at hm ⊢
    simpa [h.le] using (fixedDigits_lt_iff digitChar_strictMono (hlt n) hm).mpr h
  · exact fixedDigits_lt_iff_le digitChar_strictMono (hlt n) hm hpos

theorem suffix_lt_iff (h : InRange ts) (h' : InRange ts') : suffix ts < suffix ts' ↔ ts' < ts := by
  rw [suffix, suffix, fixedDigits_lt_iff digitChar_strictMono (distance_lt h) (distance_lt h')]
  unfold InRange at h h'
  omega

theorem suffix_le_iff (h : InRange ts) (h' : InRange ts') : suffix ts ≤ suffix ts' ↔ ts' ≤ ts := by
  rw [← not_lt, suffix_lt_iff h' h, not_lt]

theorem sign_lt_formatHex (s : Text) (n : Nat) : '-' :: s < formatHex 16 n := by
  have hsign : ∀ d < 16, '-' < Nat.digitChar d := by decide
  obtain ⟨w, hw⟩ : ∃ w, max 16 (hexLength n) = w + 1 := ⟨max 16 (hexLength n) - 1, by omega⟩
  have hlt : n < 16 ^ (w + 1) :=
    (lt_pow_hexLength n).trans_le (Nat.pow_le_pow_right (by decide) (hw ▸ le_max_right _ _))
  show _ < fixedDigits _ _ _ n
  rw [hw, fixedDigits]
  exact cons_lt_cons_iff.mpr (.inl (hsign _ (digit_lt hlt)))

/-- A timestamp above the range has a sign, which sorts before the digits. -/
theorem formatHex_le_suffix_iff (h : 0 ≤ ts) (h' : InRange ts') :
    formatHex 16 (maxTs - ts) ≤ suffix ts' ↔ ts' ≤ ts := by
  rcases le_or_gt ts maxTs with hle | hgt
  · rw [formatHex_eq_suffix ⟨h, hle⟩, suffix_le_iff ⟨h, hle⟩ h']
  · obtain ⟨n, hn⟩ := Int.eq_negSucc_of_lt_zero (show maxTs - ts < 0 by omega)
    have hlt : formatHex 16 (maxTs - ts) < suffix ts' := by
      rw [hn, suffix, ← formatHex_of_lt (distance_lt h')]
      exact sign_lt_formatHex _ _
    exact iff_of_true hlt.le (h'.2.trans hgt.le)

theorem length_suffix : (suffix ts).length = 16 := length_fixedDigits

theorem suffix_le_hi16 (h : InRange ts) : suffix ts ≤ hi16 := by
  have hhi : hi16 = fixedDigits Nat.digitChar 16 16 (16 ^ 16 - 1) := by decide
  have hdist := distance_lt h
  rw [suffix, hhi, ← not_lt, fixedDigits_lt_iff digitChar_strictMono (by decide) hdist]
  omega

/-- A character that is no hexadecimal digit and no sign. -/
def Foreign (c : Char) : Prop := c ≠ '-' ∧ ∀ d, c ≠ Nat.digitChar d

theorem foreign_of_ne {c : Char} (h : c ≠ '-')
    (hdigits : ∀ d < 16, c ≠ Nat.digitChar d) (hstar : c ≠ '*') : Foreign c := by
  refine ⟨h, fun d => ?_⟩
  by_cases hd : d < 16
  · exact hdigits d hd
  · have hlarge : Nat.digitChar d = '*' := by
      unfold Nat.digitChar
      repeat rw [if_neg (by omega)]
    rwa [hlarge]

theorem foreign_sep : Foreign sep := foreign_of_ne (by decide) (by decide) (by decide)

theorem sep_notMem_suffix : sep ∉ suffix ts := fun hmem =>
  let ⟨d, hd⟩ := mem_fixedDigits hmem
  foreign_sep.2 d hd

theorem sep_le (c : Char) : sep ≤ c := Nat.zero_le _

theorem le_hiChar (c : Char) : c ≤ hiChar := by
  have hc : c.toNat < 0x110000 := by
    rcases c.valid with h | h
    · exact Nat.lt_trans h (by decide)
    · exact h.2
  have hhi : hiChar.toNat = 0x10FFFF := by decide
  rw [Char.le_def, UInt32.le_iff_toNat_le]
  change c.toNat ≤ hiChar.toNat
  omega

theorem versionKey_le_hiChar (hkey : key.head? ≠ some hiChar) (ts : Int) :
    versionKey key ts ≤ [hiChar] := by
  have hle : ∀ c : Char, c ≠ hiChar → ∀ rest : Text, (c :: rest : Text) ≤ [hiChar] :=
    fun c hc _ => le_of_lt (cons_lt_cons_iff.mpr (.inl (lt_of_le_of_ne (le_hiChar c) hc)))
  cases key with
  | nil => exact hle sep (by decide) _
  | cons c key => exact hle c (fun h => hkey (by rw [h]; rfl)) _

theorem Plain.sep_lt (h : Plain key) : ∀ c ∈ key, sep < c :=
  fun c hc => lt_of_le_of_ne (sep_le c) fun heq => h.2 (heq ▸ hc)

theorem append_sep_le_of_le {hi : Text} (h : ∀ rest, hi ≠ key ++ sep :: rest) (hle : key ≤ hi)
    (rest : Text) : key ++ sep :: rest ≤ hi ++ [hiChar] := by
  have hleft : ∀ rest, key ≠ hi ++ sep :: rest := by
    rintro rest rfl
    have hback := (append_le_append_iff hi).mp (le_of_le_of_eq hle (append_nil hi).symm)
    exact absurd hback (by simp)
  have hbelow : key ++ sep :: rest ≤ hi ++ sep :: rest := by
    rw [append_sep_le_iff sep_le h hleft]
    exact (lt_or_eq_of_le hle).imp_right fun heq => ⟨heq, le_rfl⟩
  refine hbelow.trans ((append_le_append_iff hi).mpr (le_of_lt ?_))
  exact cons_lt_cons_iff.mpr (.inl (by decide))

/-- Neither key goes on with the separator where the other one ends. -/
structure Apart (key key' : Text) : Prop where
  right : ∀ rest, key' ≠ key ++ sep :: rest
  left : ∀ rest, key ≠ key' ++ sep :: rest

theorem apart_self (key : Text) : Apart key key :=
  have hne : ∀ rest, key ≠ key ++ sep :: rest := fun rest heq => by
    simpa using congrArg List.length heq
  ⟨hne, hne⟩

theorem apart_of_not_mem (hk : sep ∉ key) (hk' : sep ∉ key') : Apart key key' :=
  ⟨fun rest heq => hk' (by simp [heq]), fun rest heq => hk (by simp [heq])⟩

theorem Plain.apart (hk : Plain key) (hk' : Plain key') : Apart key key' :=
  apart_of_not_mem hk.2 hk'.2

theorem Apart.versionKey_le_iff (hk : Apart key key') (h : InRange ts) (h' : InRange ts') :
    versionKey key ts ≤ versionKey key' ts' ↔ key < key' ∨ (key = key' ∧ ts' ≤ ts) := by
  rw [versionKey_eq h, versionKey_eq h', append_sep_le_iff sep_le hk.right hk.left,
    suffix_le_iff h h']

theorem versionKey_injective (h : InRange ts) (h' : InRange ts')
    (heq : versionKey key ts = versionKey key' ts') : key = key' ∧ ts = ts' := by
  rw [versionKey_eq h, versionKey_eq h'] at heq
  obtain ⟨hkey, hsuffix⟩ := append_inj' heq (by simp [length_suffix])
  have hsame : suffix ts = suffix ts' := (List.cons.inj hsuffix).2
  exact ⟨hkey, le_antisymm ((suffix_le_iff h' h).mp hsame.ge) ((suffix_le_iff h h').mp hsame.le)⟩

theorem Apart.mem_range_iff (hk : Apart key key') (h : InRange ts) :
    key' ++ [sep] ≤ versionKey key ts ∧ versionKey key ts ≤ key' ++ sep :: hi16 ↔ key = key' := by
  rw [versionKey_eq h, append_sep_le_iff sep_le hk.left hk.right,
    append_sep_le_iff sep_le hk.right hk.left]
  have hnil : ([] : Text) ≤ suffix ts := not_lt.mp (not_lt_nil _)
  simp only [hnil, suffix_le_hi16 h, and_true]
  constructor
  · rintro ⟨hlt | heq, hgt | heq'⟩
    · exact absurd hlt hgt.not_gt
    · exact heq'
    · exact heq.symm
    · exact heq'
  · rintro rfl
    exact ⟨.inr rfl, .inr rfl⟩

theorem Apart.mem_snapshot_iff {readTs : Int} (hk : Apart key key') (h : InRange ts)
    (hr : 0 ≤ readTs) :
    versionKey key' readTs ≤ versionKey key ts ∧ versionKey key ts ≤ key' ++ sep :: hi16 ↔
      key = key' ∧ ts ≤ readTs := by
  rw [versionKey_eq h, versionKey, append_sep_le_iff sep_le hk.left hk.right,
    append_sep_le_iff sep_le hk.right hk.left]
  simp only [formatHex_le_suffix_iff hr h, suffix_le_hi16 h, and_true]
  constructor
  · rintro ⟨hlt | ⟨rfl, hle⟩, hgt | heq⟩
    · exact absurd hlt hgt.not_gt
    · exact absurd heq hlt.ne'
    · exact ⟨rfl, hle⟩
    · exact ⟨rfl, hle⟩
  · rintro ⟨rfl, hle⟩
    exact ⟨.inr ⟨rfl, hle⟩, .inr rfl⟩

section Parsing

theorem hexValue_digitChar : ∀ d < 16, hexValue (Nat.digitChar d) = some d := by decide

variable {width n : Nat}

theorem foldlM_fixedDigits (m : Nat) (hn : n < 16 ^ width) :
    (fixedDigits Nat.digitChar 16 width n).foldlM
      (fun n c => (hexValue c).map fun d => n * 16 + d) m = some (m * 16 ^ width + n) := by
  induction width generalizing n m with
  | zero =>
    have hzero : n = 0 := by simpa using hn
    simp [fixedDigits, hzero]
  | succ width ih =>
    have hpos : 0 < 16 ^ width := Nat.pow_pos (by decide)
    have hsplit := Nat.div_add_mod n (16 ^ width)
    simp only [fixedDigits, foldlM_cons, hexValue_digitChar _ (digit_lt hn),
      map_some, bind_eq_bind, bind_some, ih _ (Nat.mod_lt n hpos),
      Option.some.injEq]
    rw [Nat.add_mul, Nat.mul_assoc, ← Nat.pow_succ', Nat.mul_comm (n / _), Nat.add_assoc, hsplit]

theorem digitChar_ne_sign : ∀ d < 16, Nat.digitChar d ≠ '-' ∧ Nat.digitChar d ≠ '+' := by decide

theorem parseDigits_fixedDigits (hn : n < 16 ^ (width + 1)) :
    parseDigits (fixedDigits Nat.digitChar 16 (width + 1) n) = some n := by
  have hne : fixedDigits Nat.digitChar 16 (width + 1) n ≠ [] := by simp [fixedDigits]
  rw [parseDigits, if_neg hne, foldlM_fixedDigits 0 hn]
  simp

theorem parseHex_fixedDigits (hn : n < 16 ^ (width + 1)) :
    parseHex (fixedDigits Nat.digitChar 16 (width + 1) n) = some (n : Int) := by
  have hsign := digitChar_ne_sign _ (digit_lt hn)
  have hplain : parseHex (fixedDigits Nat.digitChar 16 (width + 1) n) =
      (parseDigits (fixedDigits Nat.digitChar 16 (width + 1) n)).map fun n : Nat => (n : Int) := by
    rw [fixedDigits]
    unfold parseHex
    split
    · rename_i s heq
      exact absurd (List.cons.inj heq).1 hsign.1
    · rename_i s heq
      exact absurd (List.cons.inj heq).1 hsign.2
    · rfl
  rw [hplain, parseDigits_fixedDigits hn, map_some]

theorem tsFromVersionKey_append (key : Text) {digits : Text} (h : digits.length = 16) :
    tsFromVersionKey (key ++ digits) = (parseHex digits).map fun x => maxTs - x := by
  have hlength : (key ++ digits).length - 16 = key.length := by simp [h]
  rw [tsFromVersionKey, hlength, drop_left]

theorem tsFromVersionKey_versionKey (h : InRange ts) :
    tsFromVersionKey (versionKey key ts) = some ts := by
  have hvalue : ((maxTs - ts).toNat : Int) = maxTs - ts := by
    unfold InRange at h
    omega
  rw [versionKey_eq h, append_cons, tsFromVersionKey_append _ length_suffix, suffix,
    parseHex_fixedDigits (distance_lt h), map_some, hvalue]
  congr 1
  omega

theorem parseHex_formatHex (width : Nat) (x : Int) : parseHex (formatHex width x) = some x := by
  have hwidth : ∀ n w, ∃ w', max w (hexLength n) = w' + 1 ∧ n < 16 ^ (w' + 1) := by
    intro n w
    obtain ⟨w', hw'⟩ := Nat.exists_eq_add_one.mpr (show 0 < max w (hexLength n) by
      unfold hexLength
      omega)
    refine ⟨w', hw', (lt_pow_hexLength n).trans_le (Nat.pow_le_pow_right (by decide) ?_)⟩
    exact hw' ▸ le_max_right w _
  cases x with
  | ofNat n =>
    obtain ⟨w', hw', hn⟩ := hwidth n width
    rw [formatHex, hw', parseHex_fixedDigits hn]
    rfl
  | negSucc n =>
    obtain ⟨w', hw', hn⟩ := hwidth (n + 1) (width - 1)
    rw [formatHex, hw', parseHex, parseDigits_fixedDigits hn]
    rfl

theorem formatHex_inj {x y : Int} : formatHex width x = formatHex width y ↔ x = y := by
  refine ⟨fun h => ?_, congrArg _⟩
  have hparse := congrArg parseHex h
  rwa [parseHex_formatHex, parseHex_formatHex, Option.some.injEq] at hparse

/-- A timestamp above the range may lose its sign, and then reads as an earlier one. -/
theorem tsFromVersionKey_le (key : Text) (h : 0 ≤ ts) :
    ∃ ts', tsFromVersionKey (versionKey key ts) = some ts' ∧ ts' ≤ ts := by
  by_cases hmax : ts ≤ maxTs
  · exact ⟨ts, tsFromVersionKey_versionKey ⟨h, hmax⟩, le_rfl⟩
  obtain ⟨n, hn⟩ := Int.eq_negSucc_of_lt_zero (show maxTs - ts < 0 by omega)
  have hlt := lt_pow_hexLength (n + 1)
  rw [versionKey, hn, formatHex]
  by_cases hlong : hexLength (n + 1) ≤ 15
  · have hlt' : n + 1 < 16 ^ 15 := hlt.trans_le (Nat.pow_le_pow_right (by decide) hlong)
    rw [max_eq_left hlong, append_cons, tsFromVersionKey_append _ (by simp), parseHex,
      parseDigits_fixedDigits hlt']
    refine ⟨_, rfl, ?_⟩
    rw [Int.negSucc_eq] at hn
    push_cast
    omega
  · obtain ⟨k, hk⟩ : ∃ k, hexLength (n + 1) = k + 16 := ⟨hexLength (n + 1) - 16, by omega⟩
    rw [hk] at hlt
    have hsplit : fixedDigits Nat.digitChar 16 (k + 16) (n + 1) =
        (fixedDigits Nat.digitChar 16 (k + 16) (n + 1)).take k ++
          fixedDigits Nat.digitChar 16 16 ((n + 1) % 16 ^ 16) := by
      rw [← drop_fixedDigits hlt, take_append_drop]
    have hassoc : key ++ sep :: '-' :: fixedDigits Nat.digitChar 16 (k + 16) (n + 1) =
        (key ++ sep :: '-' :: (fixedDigits Nat.digitChar 16 (k + 16) (n + 1)).take k) ++
          fixedDigits Nat.digitChar 16 16 ((n + 1) % 16 ^ 16) := by
      rw [append_assoc, cons_append, cons_append, ← hsplit]
    rw [hk, max_eq_right (by omega), hassoc, tsFromVersionKey_append _ length_fixedDigits,
      parseHex_fixedDigits (Nat.mod_lt _ (by decide))]
    refine ⟨_, rfl, ?_⟩
    show maxTs - _ ≤ ts
    omega

end Parsing

end LiteDB.VersionKeys
