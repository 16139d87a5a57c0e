import LiteDB.Framing
import LiteDB.VersionKeys
import Mathlib.Data.Nat.Bitwise

namespace LiteDB.Wal

open Framing VersionKeys

inductive Operation where
  | set
  | delete
  | begin
  | commit
deriving DecidableEq

/-- An entry of the write-ahead log (`wal.py`). -/
structure WalEntry where
  sequence : Nat
  operation : Operation
  key : Text
  value : Option Text
deriving DecidableEq

/-- What becomes of a payload in `read_all`. An `error` is an exception that it does
not catch. -/
inductive Parsed where
  | entry (e : WalEntry)
  | malformed
  | error

/-- JSON, taken as a correct codec. -/
structure Codec where
  dumps : WalEntry → Bytes
  loads : Bytes → Parsed
  loads_dumps : ∀ e, loads (dumps e) = .entry e

def crcStep (crc : Nat) : Nat :=
  if crc % 2 = 1 then (crc / 2) ^^^ 0xEDB88320 else crc / 2

/-- `zlib.crc32` with its second argument. -/
def crc32From (value : Nat) (bytes : Bytes) : Nat :=
  (bytes.foldl (fun crc b => crcStep^[8] (crc ^^^ b.toNat)) (value ^^^ 0xFFFFFFFF)) ^^^ 0xFFFFFFFF

def crc32 (bytes : Bytes) : Nat := crc32From 0 bytes

theorem crcStep_lt {crc : Nat} (h : crc < 2 ^ 32) : crcStep crc < 2 ^ 32 := by
  unfold crcStep
  split
  · exact Nat.xor_lt_two_pow (by omega) (by decide)
  · omega

theorem crc32_lt (bytes : Bytes) : crc32 bytes < limit := by
  have hfold : ∀ crc < 2 ^ 32,
      bytes.foldl (fun crc b => crcStep^[8] (crc ^^^ b.toNat)) crc < 2 ^ 32 := by
    induction bytes with
    | nil => exact fun _ h => h
    | cons b bytes ih =>
      intro crc hcrc
      have hbyte : b.toNat < 2 ^ 32 := b.toNat_lt.trans (by decide)
      exact ih _ (Function.Iterate.rec (· < 2 ^ 32) (Nat.xor_lt_two_pow hcrc hbyte)
        (fun _ => crcStep_lt) 8)
  exact Nat.xor_lt_two_pow (hfold _ (by decide)) (by decide)

example : crc32 ("123456789".toList.map fun c => UInt8.ofNat c.toNat) = 0xCBF43926 := by
  decide +kernel

/-- The state of a `WriteAheadLog`: its file and the next sequence number. -/
structure WriteAheadLog where
  file : Bytes
  sequence : Nat

section Definitions

variable (codec : Codec)

/-- The loop of `read_all`; every turn takes bytes off the file. `none` stands for an
exception. -/
def readEntries : Nat → Bytes → Option (List WalEntry)
  | 0, _ => some []
  | fuel + 1, bytes =>
      match readFrame crc32 bytes with
      | none => some []
      | some (payload, rest) =>
          match codec.loads payload with
          | .entry e => (readEntries fuel rest).map (e :: ·)
          | .malformed => some []
          | .error => none

def readAll (file : Bytes) : Option (List WalEntry) := readEntries codec file.length file

/-- The sequence number that `__init__` finds. -/
def nextSequence (entries : List WalEntry) : Nat :=
  entries.foldl (fun n e => if n ≤ e.sequence then e.sequence + 1 else n) 0

/-- The constructor, on a file that may exist already. -/
def WriteAheadLog.init (file : Bytes) : Option WriteAheadLog :=
  (readAll codec file).map fun entries => ⟨file, nextSequence entries⟩

/-- What the arguments of `append` become in the log. -/
structure Request where
  operation : Operation
  key : Text
  value : Option Text
deriving DecidableEq

def Request.entry (r : Request) (sequence : Nat) : WalEntry :=
  ⟨sequence, r.operation, r.key, r.value⟩

def Fits (e : WalEntry) : Prop := (codec.dumps e).length < limit

instance (e : WalEntry) : Decidable (Fits codec e) := inferInstanceAs (Decidable (_ < _))

def record (e : WalEntry) : Bytes := frame crc32 (codec.dumps e)

/-- An entry whose length does not fit its field raises an exception before anything
is written, but takes a sequence number. -/
def WriteAheadLog.append (w : WriteAheadLog) (r : Request) : WriteAheadLog × Option WalEntry :=
  if Fits codec (r.entry w.sequence) then
    (⟨w.file ++ record codec (r.entry w.sequence), w.sequence + 1⟩, some (r.entry w.sequence))
  else ({ w with sequence := w.sequence + 1 }, none)

def WriteAheadLog.appendAll (w : WriteAheadLog) : List Request → WriteAheadLog × List WalEntry
  | [] => (w, [])
  | r :: rs =>
      let next := w.append codec r
      let last := next.1.appendAll rs
      (last.1, next.2.toList ++ last.2)

def WriteAheadLog.truncate (w : WriteAheadLog) : WriteAheadLog := { w with file := [] }

end Definitions

section Reading

variable {codec : Codec}

def records (codec : Codec) (entries : List WalEntry) : Bytes := entries.flatMap (record codec)

variable {rest : Bytes}

theorem readEntries_records {entries : List WalEntry} {fuel : Nat}
    (hfits : ∀ e ∈ entries, Fits codec e) (hrest : readFrame crc32 rest = none)
    (hfuel : (records codec entries ++ rest).length ≤ fuel) :
    readEntries codec fuel (records codec entries ++ rest) = some entries := by
  induction entries generalizing fuel with
  | nil =>
    cases fuel with
    | zero => rfl
    | succ fuel => simp [records, readEntries, hrest]
  | cons e entries ih =>
    have hsplit : records codec (e :: entries) ++ rest =
        record codec e ++ (records codec entries ++ rest) := by
      simp [records]
    have hlen : (record codec e).length = (codec.dumps e).length + 8 := length_frame
    rw [hsplit, List.length_append] at hfuel
    cases fuel with
    | zero => omega
    | succ fuel =>
      have htail := ih (fun x hx => hfits x (List.mem_cons_of_mem _ hx))
        (show (records codec entries ++ rest).length ≤ fuel by omega)
      have hframe : readFrame crc32 (record codec e ++ (records codec entries ++ rest)) =
          some (codec.dumps e, records codec entries ++ rest) :=
        readFrame_frame_append (hfits e List.mem_cons_self) (crc32_lt _)
      rw [hsplit]
      simp only [readEntries, hframe, codec.loads_dumps, htail, Option.map_some]

theorem readAll_records_append {entries : List WalEntry} (hfits : ∀ e ∈ entries, Fits codec e)
    (hrest : readFrame crc32 rest = none) :
    readAll codec (records codec entries ++ rest) = some entries :=
  readEntries_records hfits hrest le_rfl

theorem readAll_records {entries : List WalEntry} (hfits : ∀ e ∈ entries, Fits codec e) :
    readAll codec (records codec entries) = some entries := by
  have hread : readAll codec (records codec entries ++ []) = some entries :=
    readAll_records_append hfits rfl
  rwa [List.append_nil] at hread

variable (codec) in
theorem appendAll_file (w : WriteAheadLog) (rs : List Request) :
    (w.appendAll codec rs).1.file = w.file ++ records codec (w.appendAll codec rs).2 ∧
      ∀ e ∈ (w.appendAll codec rs).2, Fits codec e := by
  induction rs generalizing w with
  | nil => simp [WriteAheadLog.appendAll, records]
  | cons r rs ih =>
    obtain ⟨hfile, hfits⟩ := ih (w.append codec r).1
    by_cases hr : Fits codec (r.entry w.sequence)
    · simp only [WriteAheadLog.append, hr, if_true] at hfile hfits
      simp only [WriteAheadLog.appendAll, WriteAheadLog.append, hr, if_true]
      rw [hfile]
      simpa [records, hr] using hfits
    · simp only [WriteAheadLog.append, hr, if_false] at hfile hfits
      simp only [WriteAheadLog.appendAll, WriteAheadLog.append, hr, if_false]
      rw [hfile]
      simpa using hfits

end Reading

section Entries

/-- The list of entries that a file stands for. -/
structure Log where
  entries : List WalEntry
  sequence : Nat

def Log.append (l : Log) (r : Request) : Log :=
  ⟨l.entries ++ [r.entry l.sequence], l.sequence + 1⟩

def Log.appendAll (l : Log) (rs : List Request) : Log := rs.foldl Log.append l

/-- Requests with consecutive sequence numbers. -/
def stamped : Nat → List Request → List WalEntry
  | _, [] => []
  | n, r :: rs => r.entry n :: stamped (n + 1) rs

theorem appendAll_entries (l : Log) (rs : List Request) :
    (l.appendAll rs).entries = l.entries ++ stamped l.sequence rs := by
  induction rs generalizing l with
  | nil => simp [Log.appendAll, stamped]
  | cons r rs ih =>
    refine (ih (l.append r)).trans ?_
    simp [Log.append, stamped]

def Log.truncate (l : Log) : Log := { l with entries := [] }

/-- The log that `__init__` makes of the entries of a file. -/
def Log.init (entries : List WalEntry) : Log := ⟨entries, nextSequence entries⟩

/-- The file has the records of the list. -/
structure Holds (codec : Codec) (w : WriteAheadLog) (l : Log) : Prop where
  file : w.file = records codec l.entries
  sequence : w.sequence = l.sequence
  fits : ∀ e ∈ l.entries, Fits codec e

variable {codec : Codec} {w : WriteAheadLog} {l : Log}

theorem Holds.append (h : Holds codec w l) {r : Request} (hr : Fits codec (r.entry l.sequence)) :
    Holds codec (w.append codec r).1 (l.append r) := by
  rw [← h.sequence] at hr
  rw [WriteAheadLog.append, if_pos hr, Log.append, ← h.sequence]
  refine ⟨by simp [records, h.file], rfl, ?_⟩
  intro e he
  rcases List.mem_append.mp he with he | he
  · exact h.fits e he
  · rw [List.mem_singleton.mp he]
    exact hr

theorem Holds.appendAll {rs : List Request} (h : Holds codec w l)
    (hfits : ∀ e ∈ stamped l.sequence rs, Fits codec e) :
    Holds codec (w.appendAll codec rs).1 (l.appendAll rs) := by
  induction rs generalizing w l with
  | nil => exact h
  | cons r rs ih =>
    obtain ⟨hr, hrs⟩ := List.forall_mem_cons.mp hfits
    exact ih (h.append hr) hrs

theorem Holds.truncate (h : Holds codec w l) : Holds codec w.truncate l.truncate :=
  ⟨rfl, h.sequence, by simp [Log.truncate]⟩

theorem Holds.init (h : Holds codec w l) :
    ∃ w', WriteAheadLog.init codec w.file = some w' ∧ Holds codec w' (Log.init l.entries) := by
  refine ⟨⟨w.file, nextSequence l.entries⟩, ?_, h.file, rfl, h.fits⟩
  rw [WriteAheadLog.init, h.file, readAll_records h.fits]
  rfl

end Entries

end LiteDB.Wal
