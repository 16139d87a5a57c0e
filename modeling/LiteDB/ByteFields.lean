import LiteDB.Framing
import Mathlib.Data.Nat.Bitwise

namespace LiteDB.ByteFields

open Framing Lexicographic List

def read (file : Bytes) (pos count : Nat) : Bytes := (file.drop pos).take count

theorem read_append {file bytes : Bytes} {pos count : Nat} (before after : Bytes)
    (hfile : file = before ++ (bytes ++ after)) (hpos : pos = before.length)
    (hcount : count = bytes.length) : read file pos count = bytes := by
  subst hfile hpos hcount
  rw [read, drop_left, take_left]

section Numbers

/-- A number in a fixed number of bytes, the highest first. What does not fit is lost. -/
def number (width n : Nat) : Bytes := fixedDigits UInt8.ofNat 256 width n

@[simp] theorem length_number (width n : Nat) : (number width n).length = width :=
  length_fixedDigits

variable {width n : Nat}

theorem unpack_number (h : n < 256 ^ width) : unpack (number width n) = n := by
  rw [unpack, number, foldl_fixedDigits h]
  simp

/-- The number at a position, unless the file ends before its last byte. -/
def numberAt (file : Bytes) (width pos : Nat) : Option Nat :=
  let bytes := read file pos width
  if bytes.length < width then none else some (unpack bytes)

theorem numberAt_append {file : Bytes} {pos : Nat} (hn : n < 256 ^ width) (before after : Bytes)
    (hfile : file = before ++ (number width n ++ after)) (hpos : pos = before.length) :
    numberAt file width pos = some n := by
  have hread : read file pos width = number width n :=
    read_append before after hfile hpos (length_number width n).symm
  simp [numberAt, hread, unpack_number hn]

end Numbers

def encodeText (text : List Char) : Bytes := text.flatMap String.utf8EncodeChar

/-- The text of some bytes, unless they are not UTF-8. -/
def decodeText (bytes : Bytes) : Option (List Char) :=
  bytes.toByteArray.utf8Decode?.map Array.toList

theorem decodeText_encodeText (text : List Char) : decodeText (encodeText text) = some text := by
  have hbytes : (encodeText text).toByteArray = text.utf8Encode := rfl
  rw [decodeText, hbytes, utf8Decode?_utf8Encode]
  simp

section Bits

/-- The bit at a position is set. -/
def HasBit (bits : Bytes) (pos : Nat) : Prop :=
  ∃ b, bits[pos / 8]? = some b ∧ b.toNat.testBit (pos % 8) = true

def setBit (bits : Bytes) (pos : Nat) : Option Bytes :=
  if pos / 8 < bits.length then
    some (bits.modify (pos / 8) fun b => UInt8.ofNat (b.toNat ||| 1 <<< (pos % 8)))
  else none

def setBits (bits : Bytes) (positions : List Nat) : Option Bytes := positions.foldlM setBit bits

/-- Whether all the bits are set; the first that is not ends the search. -/
def testBits (bits : Bytes) : List Nat → Option Bool
  | [] => some true
  | pos :: positions => do
      let b ← bits[pos / 8]?
      if b.toNat &&& 1 <<< (pos % 8) = 0 then some false else testBits bits positions

theorem and_shiftLeft_eq_zero (n i : Nat) : n &&& 1 <<< i = 0 ↔ n.testBit i = false := by
  rw [Nat.one_shiftLeft, Nat.and_two_pow]
  cases n.testBit i <;> simp

variable {bits : Bytes}

theorem setBit_spec {pos : Nat} (hpos : pos / 8 < bits.length) :
    ∃ bits', setBit bits pos = some bits' ∧ bits'.length = bits.length ∧ HasBit bits' pos ∧
      ∀ p, HasBit bits p → HasBit bits' p := by
  have hbyte : ∀ b : UInt8, (UInt8.ofNat (b.toNat ||| 1 <<< (pos % 8))).toNat =
      b.toNat ||| 2 ^ (pos % 8) := by
    intro b
    rw [Nat.one_shiftLeft]
    have hshift : 2 ^ (pos % 8) < 2 ^ 8 := Nat.pow_lt_pow_right (by decide) (by omega)
    exact UInt8.toNat_ofNat_of_lt' (Nat.or_lt_two_pow b.toNat_lt hshift)
  refine ⟨_, if_pos hpos, length_modify .., ?_, ?_⟩
  · refine ⟨UInt8.ofNat (bits[pos / 8].toNat ||| 1 <<< (pos % 8)), ?_, ?_⟩
    · rw [getElem?_modify_eq, getElem?_eq_getElem hpos]
      rfl
    · rw [hbyte, Nat.testBit_or, Nat.testBit_two_pow_self, Bool.or_true]
  · rintro p ⟨b, hb, hbit⟩
    by_cases hp : pos / 8 = p / 8
    · refine ⟨UInt8.ofNat (b.toNat ||| 1 <<< (pos % 8)), ?_, ?_⟩
      · rw [hp, getElem?_modify_eq, hb]
        rfl
      · rw [hbyte, Nat.testBit_or, hbit, Bool.true_or]
    · exact ⟨b, by rwa [getElem?_modify_ne _ _ hp], hbit⟩

theorem setBits_spec {positions : List Nat} (h : ∀ p ∈ positions, p / 8 < bits.length) :
    ∃ bits', setBits bits positions = some bits' ∧ bits'.length = bits.length ∧
      (∀ p ∈ positions, HasBit bits' p) ∧ ∀ p, HasBit bits p → HasBit bits' p := by
  induction positions generalizing bits with
  | nil => exact ⟨bits, rfl, rfl, fun _ hp => absurd hp (by simp), fun _ hp => hp⟩
  | cons pos positions ih =>
    obtain ⟨hpos, hrest⟩ := forall_mem_cons.mp h
    obtain ⟨one, hone, hlength, hset, hkept⟩ := setBit_spec hpos
    have hlater : ∀ p ∈ positions, p / 8 < one.length := by rwa [hlength]
    obtain ⟨all, hall, hlength', hset', hkept'⟩ := ih hlater
    refine ⟨all, ?_, hlength'.trans hlength, ?_, fun p hp => hkept' p (hkept p hp)⟩
    · rw [setBits, foldlM_cons, hone]
      exact hall
    · exact forall_mem_cons.mpr ⟨hkept' pos hset, hset'⟩

theorem testBits_of_hasBit {positions : List Nat} (h : ∀ p ∈ positions, HasBit bits p) :
    testBits bits positions = some true := by
  induction positions with
  | nil => rfl
  | cons pos positions ih =>
    obtain ⟨⟨b, hb, hbit⟩, hrest⟩ := forall_mem_cons.mp h
    have hset : ¬ b.toNat &&& 1 <<< (pos % 8) = 0 := by simp [and_shiftLeft_eq_zero, hbit]
    rw [testBits, hb]
    exact (if_neg hset).trans (ih hrest)

theorem exists_testBits {positions : List Nat} (h : ∀ p ∈ positions, p / 8 < bits.length) :
    ∃ b, testBits bits positions = some b := by
  induction positions with
  | nil => exact ⟨true, rfl⟩
  | cons pos positions ih =>
    obtain ⟨hpos, hrest⟩ := forall_mem_cons.mp h
    obtain ⟨b, hb⟩ := ih hrest
    rw [testBits, getElem?_eq_getElem hpos, Option.bind_eq_bind, Option.bind_some, hb]
    split
    · exact ⟨false, rfl⟩
    · exact ⟨b, rfl⟩

/-- A bit array as a set: the bits of these keys are set. -/
structure Marks {K : Type} (positions : K → List Nat) (bits : Bytes) (keys : List K) : Prop where
  inRange : ∀ key, ∀ p ∈ positions key, p / 8 < bits.length
  hasBit : ∀ key ∈ keys, ∀ p ∈ positions key, HasBit bits p

namespace Marks

variable {K : Type} {positions : K → List Nat} {bits : Bytes} {keys : List K} {key : K}

theorem exists_setBits (h : Marks positions bits keys) (key : K) :
    ∃ bits', setBits bits (positions key) = some bits' ∧ bits'.length = bits.length ∧
      Marks positions bits' (keys ++ [key]) := by
  obtain ⟨bits', hbits, hlength, hset, hkept⟩ := setBits_spec (h.inRange key)
  refine ⟨bits', hbits, hlength, by rw [hlength]; exact h.inRange, ?_⟩
  intro key' hkey' p hp
  rcases mem_append.mp hkey' with hold | hnew
  · exact hkept p (h.hasBit key' hold p hp)
  · obtain rfl := mem_singleton.mp hnew
    exact hset p hp

theorem testBits_of_mem (h : Marks positions bits keys) (hkey : key ∈ keys) :
    testBits bits (positions key) = some true :=
  testBits_of_hasBit (h.hasBit key hkey)

theorem exists_testBits (h : Marks positions bits keys) (key : K) :
    ∃ b, testBits bits (positions key) = some b :=
  ByteFields.exists_testBits (h.inRange key)

end Marks

end Bits

end LiteDB.ByteFields
