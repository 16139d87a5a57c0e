import LiteDB.ByteFields
import Mathlib.Data.List.DropRight
import Mathlib.Data.Char
import Mathlib.Order.Fin.Basic

/-!
Strings of the Java library: sequences of UTF-16 units with their conversions to and from
bytes, and the operations on them that a hand-written parser uses.
-/

namespace LiteDB.JavaStrings

open Framing ByteFields List Option

abbrev JavaChar := Fin 65536

scoped instance units_neZero : NeZero 65536 := ⟨by decide⟩

/-- A string as the list of its `char` values. `compareTo` is the order of lists. -/
abbrev JavaString := List JavaChar

section Units

/-- The units of a code point: one, or a pair of surrogates. -/
def unitsOf (c : Char) : JavaString :=
  if c.toNat < 0x10000 then [Fin.ofNat 65536 c.toNat]
  else [Fin.ofNat 65536 (0xD800 + (c.toNat - 0x10000) / 0x400),
    Fin.ofNat 65536 (0xDC00 + (c.toNat - 0x10000) % 0x400)]

def units (text : List Char) : JavaString := text.flatMap unitsOf

def ch (c : Char) : JavaChar := Fin.ofNat 65536 c.toNat

/-- The code point of a unit by itself. A surrogate is written as a question mark. -/
def single (u : JavaChar) : Char :=
  if 0xD800 ≤ u.val ∧ u.val < 0xE000 then '?' else Char.ofNat u.val

def codePoints : JavaString → List Char
  | [] => []
  | [u] => [single u]
  | u :: v :: rest =>
      if (0xD800 ≤ u.val ∧ u.val < 0xDC00) ∧ (0xDC00 ≤ v.val ∧ v.val < 0xE000) then
        Char.ofNat (0x10000 + (u.val - 0xD800) * 0x400 + (v.val - 0xDC00)) :: codePoints rest
      else single u :: codePoints (v :: rest)

/-- Every surrogate of the string belongs to a pair. -/
def WellFormed (s : JavaString) : Prop := ∃ text, units text = s

theorem toNat_cases (c : Char) :
    c.toNat < 0xD800 ∨ (0xE000 ≤ c.toNat ∧ c.toNat < 0x110000) := c.valid

theorem codePoints_cons_of_not_surrogate {u : JavaChar} (hu : u.val < 0xD800 ∨ 0xE000 ≤ u.val)
    (rest : JavaString) : codePoints (u :: rest) = Char.ofNat u.val :: codePoints rest := by
  have hsingle : single u = Char.ofNat u.val := if_neg (by omega)
  cases rest with
  | nil => simp [codePoints, hsingle]
  | cons v rest => rw [codePoints, if_neg (by omega), hsingle]

theorem codePoints_unitsOf_append (c : Char) (rest : JavaString) :
    codePoints (unitsOf c ++ rest) = c :: codePoints rest := by
  have hcases := toNat_cases c
  by_cases hc : c.toNat < 0x10000
  · have hval : (Fin.ofNat 65536 c.toNat).val = c.toNat := Nat.mod_eq_of_lt hc
    rw [unitsOf, if_pos hc, singleton_append,
      codePoints_cons_of_not_surrogate (by rw [hval]; omega), hval, Char.ofNat_toNat]
  · have hhigh : (Fin.ofNat 65536 (0xD800 + (c.toNat - 0x10000) / 0x400)).val =
        0xD800 + (c.toNat - 0x10000) / 0x400 := Nat.mod_eq_of_lt (by omega)
    have hlow : (Fin.ofNat 65536 (0xDC00 + (c.toNat - 0x10000) % 0x400)).val =
        0xDC00 + (c.toNat - 0x10000) % 0x400 := Nat.mod_eq_of_lt (by omega)
    have hpoint : 0x10000 + (0xD800 + (c.toNat - 0x10000) / 0x400 - 0xD800) * 0x400 +
        (0xDC00 + (c.toNat - 0x10000) % 0x400 - 0xDC00) = c.toNat := by omega
    rw [unitsOf, if_neg hc, cons_append, singleton_append, codePoints, hhigh, hlow,
      if_pos (by omega), hpoint, Char.ofNat_toNat]

theorem codePoints_units (text : List Char) : codePoints (units text) = text := by
  induction text with
  | nil => rfl
  | cons c text ih =>
    rw [units, flatMap_cons, codePoints_unitsOf_append]
    exact congrArg (c :: ·) ih

theorem unitsOf_of_lt {c : Char} (h : c.toNat < 0x10000) : unitsOf c = [Fin.ofNat 65536 c.toNat] :=
  if_pos h

variable {s : JavaString}

theorem WellFormed.append {t : JavaString} (hs : WellFormed s) (ht : WellFormed t) :
    WellFormed (s ++ t) := by
  obtain ⟨text, rfl⟩ := hs
  obtain ⟨text', rfl⟩ := ht
  exact ⟨text ++ text', flatMap_append⟩

theorem wellFormed_units (text : List Char) : WellFormed (units text) := ⟨text, rfl⟩

theorem wellFormed_iff : WellFormed s ↔ units (codePoints s) = s := by
  constructor
  · rintro ⟨text, rfl⟩
    rw [codePoints_units]
  · exact fun h => ⟨_, h⟩

instance (s : JavaString) : Decidable (WellFormed s) := decidable_of_iff _ wellFormed_iff.symm

end Units

section Library

/-- What the library does with text beyond UTF-8 and decimal numbers: the string that the
decoder makes of other bytes, and the digits of other scripts. -/
structure Runtime where
  malformed : Bytes → JavaString
  digit : JavaChar → Option Nat
  digit_ascii : ∀ c : Char, c.isDigit = true →
    digit (Fin.ofNat 65536 c.toNat) = some (c.toNat - '0'.toNat)

def getBytes (s : JavaString) : Bytes := encodeText (codePoints s)

def trim (s : JavaString) : JavaString :=
  (s.dropWhile fun u => u.val ≤ 0x20).rdropWhile fun u => u.val ≤ 0x20

/-- `s.replace(target, replacement)` behind `skip` units that belong to a match. -/
def replaceFrom (target replacement : JavaString) : Nat → JavaString → JavaString
  | _, [] => []
  | skip + 1, _ :: rest => replaceFrom target replacement skip rest
  | 0, u :: rest =>
      if target <+: u :: rest then
        replacement ++ replaceFrom target replacement (target.length - 1) rest
      else u :: replaceFrom target replacement 0 rest

def replace (s target replacement : JavaString) : JavaString :=
  replaceFrom target replacement 0 s

/-- `s.lastIndexOf(u)`, where `none` stands for -1. -/
def lastIndexOf (s : JavaString) (u : JavaChar) : Option Nat :=
  (s.reverse.findIdx? (· = u)).map (s.length - 1 - ·)

def indexOf (s target : JavaString) : Option Nat := s.tails.findIdx? (target <+: ·)

def indexOfFrom (s : JavaString) (u : JavaChar) (i : Nat) : Option Nat :=
  ((s.drop i).findIdx? (· = u)).map (i + ·)

def substring (s : JavaString) (i j : Nat) : Option JavaString :=
  if i ≤ j ∧ j ≤ s.length then some ((s.take j).drop i) else none

variable (rt : Runtime)

def newString (bytes : Bytes) : JavaString :=
  match decodeText bytes with
  | some text => units text
  | none => rt.malformed bytes

def parseDigits (s : JavaString) : Option Nat :=
  if s = [] then none else s.foldlM (fun n u => (rt.digit u).map fun d => n * 10 + d) 0

def parseLong (s : JavaString) : Option Int :=
  match s with
  | [] => none
  | u :: rest =>
      if u.val = '-'.toNat then do
        let n ← parseDigits rt rest
        if n ≤ 2 ^ 63 then some (-n) else none
      else do
        let n ← parseDigits rt (if u.val = '+'.toNat then rest else s)
        if n < 2 ^ 63 then some n else none

def parseInt (s : JavaString) : Option Int32 := do
  let n ← parseLong rt s
  if -2 ^ 31 ≤ n ∧ n < 2 ^ 31 then some (Int32.ofInt n) else none

end Library

section Lemmas

variable {rt : Runtime} {s t sep : JavaString} {u : JavaChar}

theorem newString_getBytes (h : WellFormed s) : newString rt (getBytes s) = s := by
  rw [newString, getBytes, decodeText_encodeText]
  exact wellFormed_iff.mp h

theorem trim_eq_self (hhead : ∀ u, s.head? = some u → 0x20 < u.val)
    (hlast : ∀ u, s.getLast? = some u → 0x20 < u.val) : trim s = s := by
  have hdrop : (s.dropWhile fun u => u.val ≤ 0x20) = s := by
    cases s with
    | nil => rfl
    | cons u s => exact dropWhile_cons_of_neg (by simpa using hhead u rfl)
  rw [trim, hdrop, rdropWhile_eq_self_iff]
  intro hne
  simpa using hlast _ (getLast?_eq_some_getLast hne)

theorem replace_singleton (s : JavaString) (a : JavaChar) (r : JavaString) :
    replace s [a] r = s.flatMap fun u => if u = a then r else [u] := by
  induction s with
  | nil => rfl
  | cons u s ih =>
    rw [replace, replaceFrom, flatMap_cons, ← ih]
    by_cases hu : u = a
    · simp [hu, replace]
    · simp [hu, replace, Ne.symm hu]

variable {a b : JavaChar} {r : JavaString} {i : Nat}

theorem WellFormed.replace (hs : WellFormed s) (ha : a.val < 0xD800) (hr : WellFormed r) :
    WellFormed (JavaStrings.replace s [a] r) := by
  rw [replace_singleton]
  obtain ⟨text, rfl⟩ := hs
  induction text with
  | nil => exact wellFormed_units []
  | cons c text ih =>
    rw [units, flatMap_cons, flatMap_append]
    refine WellFormed.append ?_ ih
    have hcases := toNat_cases c
    -- the units of a pair are surrogates, so that only a unit by itself can be replaced
    by_cases hc : c.toNat < 0x10000
    · rw [unitsOf_of_lt hc, flatMap_singleton]
      split_ifs
      · exact hr
      · exact ⟨[c], by simp [units, unitsOf_of_lt hc]⟩
    · have hkept : ∀ n, 0xD800 ≤ n → n < 65536 → Fin.ofNat 65536 n ≠ a := by
        intro n hlo hhi heq
        have hval : a.val = n := by rw [← heq]; exact Nat.mod_eq_of_lt hhi
        omega
      refine ⟨[c], ?_⟩
      rw [unitsOf, if_neg hc, units, flatMap_singleton, unitsOf, if_neg hc]
      simp only [flatMap_cons, flatMap_nil, append_nil,
        if_neg (hkept (0xD800 + (c.toNat - 0x10000) / 0x400) (by omega) (by omega)),
        if_neg (hkept (0xDC00 + (c.toNat - 0x10000) % 0x400) (by omega) (by omega))]
      rfl

theorem replace_pair (a b : JavaChar) (r rest : JavaString) :
    replace (a :: b :: rest) [a, b] r = r ++ replace rest [a, b] r := by
  simp [replace, replaceFrom]

theorem replace_cons_of_ne (b : JavaChar) (r : JavaString) (h : u ≠ a) (rest : JavaString) :
    replace (u :: rest) [a, b] r = u :: replace rest [a, b] r := by
  simp [replace, replaceFrom, Ne.symm h]

theorem replace_cons_of_head (a : JavaChar) (r : JavaString) {rest : JavaString}
    (h : rest.head? ≠ some b) : replace (a :: rest) [a, b] r = a :: replace rest [a, b] r := by
  cases rest with
  | nil => simp [replace, replaceFrom]
  | cons v rest =>
    have hv : b ≠ v := fun hb => h (by rw [hb]; rfl)
    rw [replace, replaceFrom, if_neg (by simp [hv])]
    rfl

theorem of_mem_replaceFrom {target replacement : JavaString} {skip : Nat}
    (h : u ∈ replaceFrom target replacement skip s) : u ∈ s ∨ u ∈ replacement := by
  induction s generalizing skip with
  | nil => simp [replaceFrom] at h
  | cons v s ih =>
    cases skip with
    | succ skip => exact (ih h).imp_left (mem_cons_of_mem _)
    | zero =>
      rw [replaceFrom] at h
      split_ifs at h
      · rcases mem_append.mp h with h | h
        · exact .inr h
        · exact (ih h).imp_left (mem_cons_of_mem _)
      · rcases mem_cons.mp h with rfl | h
        · exact .inl mem_cons_self
        · exact (ih h).imp_left (mem_cons_of_mem _)

theorem replace_cons_of_not_match {target : JavaString} (h : ¬target <+: u :: s) :
    replace (u :: s) target r = u :: replace s target r := by
  rw [replace, replaceFrom, if_neg h]
  rfl

theorem length_replaceFrom_le (target : JavaString) (c : JavaChar) (skip : Nat) (s : JavaString) :
    (replaceFrom target [c] skip s).length ≤ s.length := by
  induction s generalizing skip with
  | nil => simp [replaceFrom]
  | cons u s ih =>
    cases skip with
    | succ skip => exact (ih skip).trans (Nat.le_succ _)
    | zero =>
      rw [replaceFrom]
      split_ifs
      · simpa using ih _
      · simpa using ih 0

theorem replace_pair_eq_self_iff {c : JavaChar} (s : JavaString) :
    replace s [a, b] [c] = s ↔ ¬[a, b] <:+: s := by
  induction s with
  | nil => simp [replace, replaceFrom]
  | cons u s ih =>
    rw [infix_cons_iff, not_or, ← ih]
    by_cases hmatch : [a, b] <+: u :: s
    · obtain ⟨rest, hrest⟩ := hmatch
      have hlength := length_replaceFrom_le [a, b] c 0 rest
      rw [← hrest]
      simp only [cons_append, nil_append, replace_pair]
      refine iff_of_false (fun h => ?_) fun h => h.1 ⟨rest, rfl⟩
      have heq := congrArg List.length h
      simp only [length_cons, replace] at heq
      omega
    · simp [replace_cons_of_not_match hmatch, hmatch]

theorem lastIndexOf_append (h : u ∉ t) : lastIndexOf (s ++ u :: t) u = some s.length := by
  have hfind : (t.reverse ++ u :: s.reverse).findIdx? (· = u) = some t.length := by
    rw [findIdx?_append, findIdx?_eq_none_iff.mpr]
    · simp [findIdx?_cons]
    · intro v hv
      have hne : v ≠ u := fun heq => h (by simpa [heq] using hv)
      simpa using hne
  have hreverse : (s ++ u :: t).reverse = t.reverse ++ u :: s.reverse := by simp
  rw [lastIndexOf, hreverse, hfind]
  simp

theorem indexOf_of_isPrefix {target : JavaString} (h : target <+: s) : indexOf s target = some 0 :=
    by
  cases s with
  | nil => simp [indexOf, prefix_nil.mp h]
  | cons v s => simp [indexOf, findIdx?_cons, h]

theorem indexOf_cons {target : JavaString} (h : ¬target <+: u :: s) :
    indexOf (u :: s) target = (indexOf s target).map (· + 1) := by
  simp [indexOf, findIdx?_cons, h]

theorem indexOf_append (h : u ∉ s) (t target : JavaString) :
    indexOf (s ++ t) (u :: target) = (indexOf t (u :: target)).map (s.length + ·) := by
  induction s with
  | nil => simp
  | cons v s ih =>
    obtain ⟨hv, hs⟩ := not_or.mp (mem_cons.not.mp h)
    have hnot : ¬(u :: target) <+: v :: (s ++ t) := fun hprefix =>
      hv (cons_prefix_cons.mp hprefix).1
    rw [cons_append, indexOf_cons hnot, ih hs, Option.map_map]
    congr 1
    funext i
    simp [Nat.add_right_comm]

theorem indexOfFrom_append (hi : i = s.length) (ht : u ∉ t) (rest : JavaString) :
    indexOfFrom (s ++ (t ++ u :: rest)) u i = some (s ++ t).length := by
  subst hi
  have hfind : (t ++ u :: rest).findIdx? (· = u) = some t.length := by
    rw [findIdx?_append, findIdx?_eq_none_iff.mpr]
    · simp [findIdx?_cons]
    · intro v hv
      have hne : v ≠ u := fun heq => ht (heq ▸ hv)
      simpa using hne
  simp [indexOfFrom, hfind]

theorem substring_append (a b c : JavaString) {j : Nat} (hi : i = a.length)
    (hj : j = (a ++ b).length) : substring (a ++ (b ++ c)) i j = some b := by
  subst hi hj
  rw [substring, if_pos (by simp), ← append_assoc, take_left, drop_left]

end Lemmas

section Numbers

variable {rt : Runtime} {text : List Char}

def digits (n : Nat) : JavaString := units (Nat.toDigits 10 n)

variable {c : Char} {u : JavaChar} {n : Int}

theorem toNat_of_isDigit (h : c.isDigit = true) : '0'.toNat ≤ c.toNat ∧ c.toNat ≤ '9'.toNat :=
  Char.isDigit_iff_toNat.mp h

theorem unitsOf_of_isDigit (h : c.isDigit = true) : unitsOf c = [Fin.ofNat 65536 c.toNat] := by
  have hle : c.toNat ≤ 57 := (toNat_of_isDigit h).2
  exact unitsOf_of_lt (by omega)

theorem foldlM_digit (h : ∀ c ∈ text, c.isDigit = true) (n : Nat) :
    (units text).foldlM (fun n u => (rt.digit u).map fun d => n * 10 + d) n =
      some (Nat.ofDigitChars 10 text n) := by
  induction text generalizing n with
  | nil => rfl
  | cons c text ih =>
    obtain ⟨hc, htext⟩ := forall_mem_cons.mp h
    have hunits : units (c :: text) = Fin.ofNat 65536 c.toNat :: units text := by
      rw [units, flatMap_cons, unitsOf_of_isDigit hc]
      rfl
    rw [hunits, foldlM_cons, rt.digit_ascii c hc, Nat.ofDigitChars_cons, Nat.mul_comm 10]
    exact ih htext _

theorem isDigit_toDigits (n : Nat) : ∀ c ∈ Nat.toDigits 10 n, c.isDigit = true := fun _ hc =>
  Nat.isDigit_of_mem_toDigits (by decide) (by decide) hc

theorem digits_ne_nil (n : Nat) : digits n ≠ [] := by
  obtain ⟨c, text, htext⟩ := exists_cons_of_ne_nil (Nat.toDigits_ne_nil (n := n) (b := 10))
  have hc : c.isDigit = true := isDigit_toDigits n c (by simp [htext])
  simp [digits, htext, units, unitsOf_of_isDigit hc]

theorem val_of_mem_digits {n : Nat} (h : u ∈ digits n) : '0'.toNat ≤ u.val ∧ u.val ≤ '9'.toNat := by
  obtain ⟨c, hc, hu⟩ := mem_flatMap.mp h
  have hdigit := isDigit_toDigits n c hc
  obtain ⟨hlo, hhi⟩ := toNat_of_isDigit hdigit
  have h9 : '9'.toNat < 65536 := by decide
  obtain rfl : u = Fin.ofNat 65536 c.toNat := by simpa [unitsOf_of_isDigit hdigit] using hu
  have hval : (Fin.ofNat 65536 c.toNat).val = c.toNat := Nat.mod_eq_of_lt (by omega)
  rw [hval]
  exact ⟨hlo, hhi⟩

theorem parseDigits_digits (n : Nat) : parseDigits rt (digits n) = some n := by
  rw [parseDigits, if_neg (digits_ne_nil n), digits, foldlM_digit (isDigit_toDigits n),
    Nat.ofDigitChars_ten_toDigits]

theorem parseLong_digits {n : Nat} (h : n < 2 ^ 63) : parseLong rt (digits n) = some (n : Int) := by
  have hparse : parseDigits rt (digits n) = some n := parseDigits_digits n
  obtain ⟨u, rest, hdigits⟩ := exists_cons_of_ne_nil (digits_ne_nil n)
  have hu : '0'.toNat ≤ u.val := (val_of_mem_digits (n := n) (by simp [hdigits])).1
  have hminus : u.val ≠ '-'.toNat := fun heq => absurd hu (by rw [heq]; decide)
  have hplus : u.val ≠ '+'.toNat := fun heq => absurd hu (by rw [heq]; decide)
  rw [hdigits] at hparse ⊢
  simp only [parseLong, if_neg hminus, if_neg hplus, hparse, bind_eq_bind, bind_some]
  exact if_pos h

def decimal (n : Int) : JavaString :=
  (if n < 0 then units ['-'] else []) ++ digits n.natAbs

theorem decimal_ne_nil (n : Int) : decimal n ≠ [] := by
  simp [decimal, digits_ne_nil]

theorem parseLong_decimal (hlo : -2 ^ 63 ≤ n) (hhi : n < 2 ^ 63) :
    parseLong rt (decimal n) = some n := by
  by_cases hneg : n < 0
  · have hminus : decimal n = Fin.ofNat 65536 '-'.toNat :: digits n.natAbs := by
      rw [decimal, if_pos hneg]
      rfl
    have hval : (Fin.ofNat 65536 '-'.toNat).val = '-'.toNat := by decide
    rw [hminus, parseLong, if_pos hval, parseDigits_digits]
    have hle : n.natAbs ≤ 2 ^ 63 := by omega
    simp only [bind_eq_bind, bind_some, if_pos hle, Option.some.injEq]
    omega
  · have hplain : decimal n = digits n.natAbs := by rw [decimal, if_neg hneg, nil_append]
    rw [hplain, parseLong_digits (by omega)]
    simp only [Option.some.injEq]
    omega

theorem parseInt_decimal (n : Int32) : parseInt rt (decimal n.toInt) = some n := by
  have hlo := n.le_toInt
  have hhi := n.toInt_lt
  rw [parseInt, parseLong_decimal (by omega) (by omega)]
  simp only [bind_eq_bind, bind_some, if_pos (And.intro hlo hhi), Int32.ofInt_toInt]

theorem of_mem_decimal (h : u ∈ decimal n) :
    u.val = '-'.toNat ∨ ('0'.toNat ≤ u.val ∧ u.val ≤ '9'.toNat) := by
  rcases mem_append.mp h with h | h
  · split_ifs at h
    · obtain rfl : u = Fin.ofNat 65536 '-'.toNat := by simpa [units, unitsOf] using h
      decide
    · simp at h
  · exact .inr (val_of_mem_digits h)

theorem lt_of_mem_decimal (h : u ∈ decimal n) : ','.toNat < u.val := by
  have h1 : ','.toNat < '-'.toNat := by decide
  have h2 : ','.toNat < '0'.toNat := by decide
  rcases of_mem_decimal h with h | h
  · omega
  · omega

end Numbers

/-- A runtime for samples: bytes that are no text become one U+FFFD, and the digits are those
of ASCII. -/
def sampleRuntime : Runtime where
  malformed _ := [0xFFFD]
  digit u := if '0'.toNat ≤ u.val ∧ u.val ≤ '9'.toNat then some (u.val - '0'.toNat) else none
  digit_ascii c hc := by
    obtain ⟨hlo, hhi⟩ := toNat_of_isDigit hc
    have h9 : '9'.toNat < 65536 := by decide
    have hval : (Fin.ofNat 65536 c.toNat).val = c.toNat := Nat.mod_eq_of_lt (by omega)
    rw [hval, if_pos ⟨hlo, hhi⟩]

end LiteDB.JavaStrings
