import LiteDB.VersionKeys
import Mathlib.Data.Fintype.Pigeonhole
import Mathlib.Data.Nat.Digits.Defs
import Mathlib.Order.WellFounded
import Mathlib.Tactic.Linarith

namespace LiteDB.RowCodec

open List Relation VersionKeys

/-- What the interpreter does with strings: `int`, the bits of `float`, and `upper`.
`none` stands for `ValueError`. -/
structure Builtins where
  int : Text → Option Int
  float : Text → Option (BitVec 64)
  upper : Text → Text
  int_str : ∀ n : Nat, int (Nat.toDigits 10 n) = some (n : Int)

section Strings

/-- A bound of a slice: a negative one counts from the end. -/
def bound (s : Text) (i : Int) : Nat :=
  if i < 0 then (i + s.length).toNat else min i.toNat s.length

/-- `s[i:j]`. -/
def slice (s : Text) (i j : Int) : Text := (s.take (bound s j)).drop (bound s i)

/-- `s.index(c, i)`. -/
def index (s : Text) (c : Char) (i : Int) : Option Nat :=
  ((s.drop (bound s i)).findIdx? (· = c)).map (bound s i + ·)

variable {s a b c : Text}

theorem bound_length : bound (a ++ b) a.length = a.length := by
  simp [bound]

theorem slice_append (ha : s = a ++ (b ++ c)) {i j : Int} (hi : i = a.length)
    (hj : j = i + b.length) : slice s i j = b := by
  have hend : j = (a ++ b).length := by simp [hj, hi]
  have hwhole : s = (a ++ b) ++ c := by rw [ha, append_assoc]
  rw [slice, hend, hi]
  nth_rewrite 2 [hwhole]
  rw [bound_length, hwhole, take_left, append_assoc, bound_length, drop_left]

theorem index_append {ch : Char} (hs : s = a ++ (b ++ ch :: c)) (hb : ch ∉ b) {i : Int}
    (hi : i = a.length) : index s ch i = some (a.length + b.length) := by
  have hfind : (b ++ ch :: c).findIdx? (· = ch) = some b.length := by
    rw [findIdx?_append, findIdx?_eq_none_iff.mpr]
    · simp [findIdx?_cons]
    · intro x hx
      have hne : x ≠ ch := fun h => hb (h ▸ hx)
      simpa using hne
  rw [index, hi, hs, bound_length, drop_left, hfind]
  rfl

end Strings

def encode (fields : List Text) : Text :=
  fields.flatMap fun f => Nat.toDigits 10 f.length ++ ':' :: f

variable (B : Builtins)

def nextField (s : Text) (i : Int) : Option (Text × Int) := do
  let colon ← index s ':' i
  let length ← B.int (slice s i colon)
  let start : Int := colon + 1
  return (slice s start (start + length), start + length)

/-- The loop of `decode`. A turn depends on the bound of its position alone, so that a
loop that has not ended after `s.length` turns does not end. -/
def decodeLoop (s : Text) : Nat → Int → List Text → Option (List Text)
  | 0, _, _ => none
  | fuel + 1, i, out =>
      if i < s.length then do
        let (f, j) ← nextField B s i
        decodeLoop s fuel j (out ++ [f])
      else some out

/-- `none` stands for an exception or a loop without an end. -/
def decode (s : Text) : Option (List Text) := decodeLoop B s (s.length + 1) 0 []

theorem encode_cons (f : Text) (fields : List Text) :
    encode (f :: fields) = Nat.toDigits 10 f.length ++ ':' :: f ++ encode fields :=
  flatMap_cons

theorem encode_append (fields fields' : List Text) :
    encode (fields ++ fields') = encode fields ++ encode fields' :=
  flatMap_append

theorem colon_notMem_toDigits (n : Nat) : ':' ∉ Nat.toDigits 10 n := by
  intro h
  have hdigit := Nat.isDigit_of_mem_toDigits (by omega) (by omega) h
  revert hdigit
  decide

theorem nextField_encode (a : Text) (f : Text) (fields : List Text) :
    nextField B (a ++ encode (f :: fields)) a.length =
      some (f, ((a ++ encode [f]).length : Int)) := by
  set digits := Nat.toDigits 10 f.length with hdigits
  have hs : a ++ encode (f :: fields) = a ++ (digits ++ ':' :: (f ++ encode fields)) := by
    simp [encode_cons, hdigits]
  have hindex : index (a ++ encode (f :: fields)) ':' a.length =
      some (a.length + digits.length) :=
    index_append hs (colon_notMem_toDigits _) rfl
  have hlength : slice (a ++ encode (f :: fields)) a.length (a.length + digits.length : Nat) =
      digits :=
    slice_append hs rfl (by simp)
  have hfield : slice (a ++ encode (f :: fields)) ((a.length + digits.length : Nat) + 1)
      ((a.length + digits.length : Nat) + 1 + f.length) = f := by
    refine slice_append (a := a ++ digits ++ [':']) (c := encode fields) ?_ ?_ rfl
    · simp [hs]
    · simp
      omega
  have hend : ((a ++ encode [f]).length : Int) =
      (a.length + digits.length : Nat) + 1 + f.length := by
    simp [encode, ← hdigits]
    omega
  rw [nextField, hindex, Option.bind_eq_bind, Option.bind_some, hlength, hdigits, B.int_str]
  simp only [Option.bind_eq_bind, Option.bind_some, ← hdigits]
  rw [hfield, hend]
  rfl

theorem length_encode_singleton_pos (f : Text) : 0 < (encode [f]).length := by
  simp [encode]

theorem decodeLoop_encode (fields : List Text) (a : Text) (out : List Text) {fuel : Nat}
    (hfuel : (encode fields).length < fuel) :
    decodeLoop B (a ++ encode fields) fuel a.length out = some (out ++ fields) := by
  induction fields generalizing a out fuel with
  | nil =>
    obtain ⟨fuel, rfl⟩ := Nat.exists_eq_succ_of_ne_zero (by omega : fuel ≠ 0)
    simp [decodeLoop, encode]
  | cons f fields ih =>
    obtain ⟨fuel, rfl⟩ := Nat.exists_eq_succ_of_ne_zero (by omega : fuel ≠ 0)
    have hsplit : encode (f :: fields) = encode [f] ++ encode fields := encode_append [f] fields
    have hpos := length_encode_singleton_pos f
    rw [hsplit, length_append] at hfuel
    have hmore : (a.length : Int) < (a ++ encode (f :: fields)).length := by
      rw [hsplit]
      simp
      omega
    rw [decodeLoop, if_pos hmore, nextField_encode]
    change decodeLoop B _ fuel _ (out ++ [f]) = _
    rw [hsplit, ← append_assoc, ih _ _ (by omega), append_assoc]
    rfl

theorem decode_encode (fields : List Text) : decode B (encode fields) = some fields := by
  have h := decodeLoop_encode B fields [] [] (Nat.lt_succ_self _)
  simpa [decode] using h

def asciiNat (s : Text) : Option Nat :=
  if s ≠ [] ∧ s.all Char.isDigit then some (Nat.ofDigitChars 10 s 0) else none

def asciiInt : Text → Option Int
  | '-' :: s => (asciiNat s).map fun n : Nat => -(n : Int)
  | s => (asciiNat s).map fun n : Nat => (n : Int)

theorem asciiNat_toDigits (n : Nat) : asciiNat (Nat.toDigits 10 n) = some n := by
  have hdigits : (Nat.toDigits 10 n).all Char.isDigit = true := by
    refine all_eq_true.mpr fun c hc => ?_
    exact Nat.isDigit_of_mem_toDigits (by omega) (by omega) hc
  rw [asciiNat, if_pos ⟨Nat.toDigits_ne_nil, hdigits⟩, Nat.ofDigitChars_ten_toDigits]

theorem asciiInt_toDigits (n : Nat) : asciiInt (Nat.toDigits 10 n) = some (n : Int) := by
  have hsign : ∀ s, Nat.toDigits 10 n ≠ '-' :: s := by
    intro s hs
    have hdigit : Char.isDigit '-' = true :=
      Nat.isDigit_of_mem_toDigits (by omega) (by omega) (hs ▸ mem_cons_self ..)
    revert hdigit
    decide
  rw [asciiInt, asciiNat_toDigits]
  · rfl
  · exact hsign

def ascii : Builtins := ⟨asciiInt, fun _ => none, List.map Char.toUpper, asciiInt_toDigits⟩

section Termination

/-- The loop has ended, with a list or with an exception, after at most that many turns. -/
def Ends (s : Text) : Nat → Int → Prop
  | 0, i => s.length ≤ i
  | turns + 1, i => s.length ≤ i ∨ ∀ next ∈ nextField B s i, Ends s turns next.2

/-- From `i` to `j` the text has a field: a length, the next colon and that many characters. -/
def Field (s : Text) (i j : Int) : Prop :=
  i < s.length ∧ ∃ colon ∈ index s ':' i, ∃ length ∈ B.int (slice s i colon),
    j = colon + 1 + length

/-- The fields that follow one another from the start never lead back to a position. -/
def Uncircled (s : Text) : Prop :=
  ∀ i, ReflTransGen (Field B s) 0 i → ¬TransGen (Field B s) i i

variable {B} {s : Text} {i i' j j' : Int}

theorem field_iff : Field B s i j ↔ i < s.length ∧ ∃ f, nextField B s i = some (f, j) := by
  simp only [Field, nextField, Option.bind_eq_bind, Option.bind_eq_some_iff, Option.mem_def]
  constructor
  · rintro ⟨hi, colon, hcolon, length, hlength, rfl⟩
    exact ⟨hi, _, colon, hcolon, length, hlength, rfl⟩
  · rintro ⟨hi, f, colon, hcolon, length, hlength, ⟨⟩⟩
    exact ⟨hi, colon, hcolon, length, hlength, rfl⟩

theorem Field.unique (h : Field B s i j) (h' : Field B s i' j') (hbound : bound s i = bound s i') :
    j = j' := by
  obtain ⟨-, colon, hcolon, length, hlength, rfl⟩ := h
  obtain ⟨-, colon', hcolon', length', hlength', rfl⟩ := h'
  simp only [index, slice, hbound] at hcolon hlength
  obtain rfl := Option.mem_unique hcolon hcolon'
  rw [Option.mem_unique hlength hlength']

theorem exists_ends_iff_acc : (∃ turns, Ends B s turns i) ↔ Acc (flip (Field B s)) i := by
  constructor
  · rintro ⟨turns, h⟩
    induction turns generalizing i with
    | zero => exact ⟨_, fun j hj => absurd hj.1 (not_lt.mpr h)⟩
    | succ turns ih =>
      refine ⟨_, fun j hj => ?_⟩
      obtain ⟨hi, f, hnext⟩ := field_iff.mp hj
      exact ih (h.resolve_left (not_le.mpr hi) _ hnext)
  · intro h
    induction h with
    | intro i _ ih =>
      rcases lt_or_ge i s.length with hi | hi
      · cases hnext : nextField B s i with
        | none => exact ⟨1, .inr fun next h => by simp [hnext] at h⟩
        | some next =>
          obtain ⟨turns, hturns⟩ := ih next.2 (field_iff.mpr ⟨hi, next.1, hnext⟩)
          exact ⟨turns + 1, .inr fun next' h => by rwa [← Option.mem_unique hnext h]⟩
      · exact ⟨0, hi⟩

theorem not_transGen_of_acc (h : Acc (flip (Field B s)) i) : ¬TransGen (Field B s) i i := by
  induction h with
  | intro i _ ih =>
    intro hcircle
    obtain ⟨j, hfield, hback⟩ := TransGen.head'_iff.mp hcircle
    exact ih j hfield (.tail' hback hfield)

end Termination

end LiteDB.RowCodec
