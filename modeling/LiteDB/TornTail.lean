import LiteDB.Wal

namespace LiteDB.TornTail

open Framing List VersionKeys Wal

/-- A new log after some appends, and the entries that they returned. -/
def logged (codec : Codec) (requests : List Request) : WriteAheadLog × List WalEntry :=
  WriteAheadLog.appendAll codec ⟨[], 0⟩ requests

/-- A crash inside an append leaves a part of the record behind the file. -/
def Torn (codec : Codec) (w : WriteAheadLog) (last : Request) (torn : Bytes) : Prop :=
  ∃ cut, cut ≠ [] ∧ (w.append codec last).1.file = w.file ++ (torn ++ cut)

theorem Torn.readFrame_eq_none {codec : Codec} {w : WriteAheadLog} {last : Request}
    {torn : Bytes} (h : Torn codec w last torn) : readFrame crc32 torn = none := by
  obtain ⟨cut, hcut, hfile⟩ := h
  unfold WriteAheadLog.append at hfile
  split at hfile
  · rename_i hfits
    have hrecord := append_cancel_left hfile
    refine readFrame_of_torn hfits ⟨cut, hrecord.symm⟩ fun heq => hcut ?_
    have hlen := congrArg List.length hrecord
    rw [heq, record, length_append] at hlen
    exact eq_nil_of_length_eq_zero (by omega)
  · have hnil : torn ++ cut = [] := by simpa using hfile
    exact absurd (append_eq_nil_iff.mp hnil).2 hcut

/-- The complete entries are read after the crash, and the later ones as well if no
bytes of the record were left or nothing is appended. -/
theorem readAll_of_torn (codec : Codec) {old new : List Request} {last : Request} {torn : Bytes}
    (htorn : Torn codec (logged codec old).1 last torn) (hwhen : torn = [] ∨ new = []) :
    ∃ w, WriteAheadLog.init codec ((logged codec old).1.file ++ torn) = some w ∧
      readAll codec (w.appendAll codec new).1.file =
        some ((logged codec old).2 ++ (w.appendAll codec new).2) := by
  have hfile : (logged codec old).1.file = records codec (logged codec old).2 :=
    (appendAll_file codec _ old).1
  have hfits : ∀ e ∈ (logged codec old).2, Fits codec e := (appendAll_file codec _ old).2
  generalize logged codec old = w at *
  have hold : readAll codec (w.1.file ++ torn) = some w.2 := by
    rw [hfile]
    exact readAll_records_append hfits htorn.readFrame_eq_none
  refine ⟨⟨w.1.file ++ torn, nextSequence w.2⟩, by rw [WriteAheadLog.init, hold]; rfl, ?_⟩
  rcases hwhen with rfl | rfl
  · rw [append_nil]
    obtain ⟨hnew, hfits'⟩ := appendAll_file codec ⟨w.1.file, nextSequence w.2⟩ new
    generalize WriteAheadLog.appendAll codec ⟨w.1.file, nextSequence w.2⟩ new = w' at *
    rw [hnew, hfile, records, records, ← flatMap_append]
    refine readAll_records fun e he => ?_
    exact (mem_append.mp he).elim (hfits e) (hfits' e)
  · simpa [WriteAheadLog.appendAll] using hold

def tally (n : Nat) : Bytes := List.replicate n 1 ++ [0]

def readTally : Bytes → List Nat
  | [] => []
  | b :: bytes =>
      if b = 0 then 0 :: readTally bytes
      else
        match readTally bytes with
        | [] => []
        | n :: ns => (n + 1) :: ns

theorem readTally_tally (n : Nat) (bytes : Bytes) :
    readTally (tally n ++ bytes) = n :: readTally bytes := by
  induction n with
  | zero => rfl
  | succ n ih =>
    have hcons : tally (n + 1) ++ bytes = 1 :: (tally n ++ bytes) := by
      simp [tally, replicate_succ]
    simp [hcons, readTally, ih]

theorem readTally_flatMap (ns : List Nat) : readTally (ns.flatMap tally) = ns := by
  induction ns with
  | nil => rfl
  | cons n ns ih => rw [flatMap_cons, readTally_tally, ih]

def tallyOperation : Operation → Nat
  | .set => 0
  | .delete => 1
  | .begin => 2
  | .commit => 3

def readOperation : Nat → Operation
  | 0 => .set
  | 1 => .delete
  | 2 => .begin
  | _ => .commit

def tallyEntry (e : WalEntry) : List Nat :=
  e.sequence :: tallyOperation e.operation :: e.key.length :: e.key.map Char.toNat ++
    match e.value with
    | none => []
    | some value => 1 :: value.map Char.toNat

def readEntry : List Nat → Parsed
  | sequence :: operation :: length :: rest =>
      .entry ⟨sequence, readOperation operation, (rest.take length).map Char.ofNat,
        match rest.drop length with
        | [] => none
        | _ :: value => some (value.map Char.ofNat)⟩
  | _ => .malformed

theorem readEntry_tallyEntry (e : WalEntry) : readEntry (tallyEntry e) = .entry e := by
  obtain ⟨sequence, operation, key, value⟩ := e
  have htext : ∀ t : Text, (t.map Char.toNat).map Char.ofNat = t := by
    intro t
    simp [Function.comp_def]
  have htake : ∀ rest, (key.map Char.toNat ++ rest).take key.length = key.map Char.toNat :=
    fun rest => take_left' (length_map _)
  have hdrop : ∀ rest, (key.map Char.toNat ++ rest).drop key.length = rest :=
    fun rest => drop_left' (length_map _)
  have hoperation : readOperation (tallyOperation operation) = operation := by
    cases operation <;> rfl
  cases value with
  | none =>
    simp only [tallyEntry, readEntry, cons_append, htake, hdrop, htext, hoperation]
  | some value =>
    simp only [tallyEntry, readEntry, cons_append, htake, hdrop, htext, hoperation]

/-- A sample: the numbers of an entry are counted out. -/
def tallyCodec : Codec where
  dumps e := (tallyEntry e).flatMap tally
  loads payload := readEntry (readTally payload)
  loads_dumps e := by rw [readTally_flatMap, readEntry_tallyEntry]

def sampleRequest (value : Text) : Request := ⟨.set, "k".toList, some value⟩

theorem readAll_of_torn_of_tally :
    Torn tallyCodec (logged tallyCodec [sampleRequest "1".toList]).1 (sampleRequest "2".toList)
        [0, 0] ∧
      ∃ w, WriteAheadLog.init tallyCodec
          ((logged tallyCodec [sampleRequest "1".toList]).1.file ++ [0, 0]) = some w ∧
        readAll tallyCodec w.file = some (logged tallyCodec [sampleRequest "1".toList]).2 := by
  have htorn : Torn tallyCodec (logged tallyCodec [sampleRequest "1".toList]).1
      (sampleRequest "2".toList) [0, 0] := by
    refine ⟨(record tallyCodec ((sampleRequest "2".toList).entry 1)).drop 2, ?_, ?_⟩
    · decide +kernel
    · decide +kernel
  obtain ⟨w, hw, hread⟩ := readAll_of_torn tallyCodec htorn (.inr (Eq.refl []))
  exact ⟨htorn, w, hw, by simpa [WriteAheadLog.appendAll] using hread⟩

/-- One byte of the second record is left. Together with the first three bytes of the
next record it reads as the length zero. -/
theorem not_readAll_of_torn_of_byte :
    ¬∀ (codec : Codec) (old new : List Request) (last : Request) (torn : Bytes),
      Torn codec (logged codec old).1 last torn →
      ∃ w, WriteAheadLog.init codec ((logged codec old).1.file ++ torn) = some w ∧
        readAll codec (w.appendAll codec new).1.file =
          some ((logged codec old).2 ++ (w.appendAll codec new).2) := by
  intro hall
  have htorn : Torn tallyCodec (logged tallyCodec [sampleRequest "1".toList]).1
      (sampleRequest "2".toList) [0] := by
    refine ⟨(record tallyCodec ((sampleRequest "2".toList).entry 1)).drop 1, ?_, ?_⟩
    · decide +kernel
    · decide +kernel
  have hlost : (WriteAheadLog.init tallyCodec
      ((logged tallyCodec [sampleRequest "1".toList]).1.file ++ [0])).all fun w =>
        readAll tallyCodec (w.appendAll tallyCodec [sampleRequest "3".toList]).1.file ≠
          some ((logged tallyCodec [sampleRequest "1".toList]).2 ++
            (w.appendAll tallyCodec [sampleRequest "3".toList]).2) := by
    decide +kernel
  obtain ⟨w, hw, hread⟩ := hall tallyCodec _ [sampleRequest "3".toList] _ _ htorn
  rw [hw] at hlost
  exact of_decide_eq_true hlost hread

end LiteDB.TornTail
