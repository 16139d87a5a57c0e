import LiteDB.SSTableFormat
import LiteDB.Wal
import Mathlib.Data.List.Induction

namespace LiteDB.SSTable

open Framing ByteFields IndexedBlocks List SSTableFormat
open VersionKeys (Text)
open Wal (crc32From)

/-- `json.dumps` and `json.loads` on an index. -/
structure IndexCodec where
  dumps : List (Text × Nat) → Text
  loads : Text → Option (List (Text × Nat))
  loads_dumps : ∀ index, loads (dumps index) = some index

/-- `struct.pack` of one number. -/
def structPack (width n : Nat) : Option Bytes :=
  if n < 256 ^ width then some (number width n) else none

theorem structPack_of_lt {width n : Nat} (h : n < 256 ^ width) :
    structPack width n = some (number width n) :=
  if_pos h

/-- The filter of a table (`sstable.py`). -/
structure BloomFilter where
  bits : Bytes
  size : Nat
  numHashes : Nat

namespace BloomFilter

def create (sizeBits numHashes : Nat) : BloomFilter :=
  ⟨List.replicate (sizeBits / 8 + 1) 0, sizeBits, numHashes⟩

def positions (f : BloomFilter) (key : Text) : List Nat :=
  (List.range f.numHashes).map fun seed =>
    crc32From (seed * 0x9e3779b9 % 2 ^ 32) (encodeText key) % f.size

/-- `_hash_positions`, which divides by the size. -/
def hashPositions (f : BloomFilter) (key : Text) : Option (List Nat) :=
  if f.size = 0 ∧ f.numHashes ≠ 0 then none else some (f.positions key)

def add (f : BloomFilter) (key : Text) : Option BloomFilter := do
  let bits ← setBits f.bits (← f.hashPositions key)
  return { f with bits }

def mightContain (f : BloomFilter) (key : Text) : Option Bool := do
  testBits f.bits (← f.hashPositions key)

def toBytes (f : BloomFilter) : Option Bytes := do
  return (← structPack 4 f.size) ++ (← structPack 4 f.numHashes) ++ f.bits

def fromBytes (data : Bytes) : Option BloomFilter := do
  return ⟨data.drop 8, ← numberAt data 4 0, ← numberAt data 4 4⟩

/-- A filter with a bit for every position, in which the bits of these keys are set. -/
structure Represents (f : BloomFilter) (keys : List Text) : Prop where
  size_pos : 0 < f.size
  length_bits : f.bits.length = f.size / 8 + 1
  marks : Marks f.positions f.bits keys

variable {f : BloomFilter} {keys : List Text} {key : Text}

theorem position_lt (hsize : 0 < f.size) (hlength : f.bits.length = f.size / 8 + 1) (key : Text) :
    ∀ p ∈ f.positions key, p / 8 < f.bits.length := by
  intro p hp
  obtain ⟨seed, -, rfl⟩ := mem_map.mp hp
  have hlt := Nat.mod_lt (crc32From (seed * 0x9e3779b9 % 2 ^ 32) (encodeText key)) hsize
  rw [hlength]
  omega

theorem represents_create {sizeBits numHashes : Nat} (h : 0 < sizeBits) :
    (create sizeBits numHashes).Represents [] :=
  have hlength : (create sizeBits numHashes).bits.length = sizeBits / 8 + 1 :=
    length_replicate
  ⟨h, hlength, position_lt h hlength, fun _ hkey => absurd hkey (by simp)⟩

namespace Represents

variable (h : f.Represents keys)

include h

theorem hashPositions_eq (key : Text) : f.hashPositions key = some (f.positions key) :=
  if_neg fun hzero => h.size_pos.ne' hzero.1

theorem exists_add (key : Text) :
    ∃ g, f.add key = some g ∧ g.size = f.size ∧ g.numHashes = f.numHashes ∧
      g.Represents (keys ++ [key]) := by
  obtain ⟨bits, hbits, hlength, hmarks⟩ := h.marks.exists_setBits key
  refine ⟨{ f with bits }, ?_, rfl, rfl, h.size_pos, hlength.trans h.length_bits, hmarks⟩
  rw [add, h.hashPositions_eq, Option.bind_eq_bind, Option.bind_some, hbits]
  rfl

theorem mightContain_of_mem (hkey : key ∈ keys) : f.mightContain key = some true := by
  rw [mightContain, h.hashPositions_eq]
  exact h.marks.testBits_of_mem hkey

theorem exists_mightContain (key : Text) : ∃ b, f.mightContain key = some b := by
  rw [mightContain, h.hashPositions_eq]
  exact h.marks.exists_testBits key

end Represents

theorem fromBytes_toBytes (hsize : f.size < 256 ^ 4) (hhashes : f.numHashes < 256 ^ 4) :
    ∃ data, f.toBytes = some data ∧ fromBytes data = some f ∧ data.length = 8 + f.bits.length := by
  refine ⟨number 4 f.size ++ number 4 f.numHashes ++ f.bits, ?_, ?_, ?_⟩
  · rw [toBytes, structPack_of_lt hsize, structPack_of_lt hhashes]
    rfl
  · have h0 : numberAt (number 4 f.size ++ number 4 f.numHashes ++ f.bits) 4 0 = some f.size :=
      numberAt_append hsize [] (number 4 f.numHashes ++ f.bits) (by simp) rfl
    have h4 : numberAt (number 4 f.size ++ number 4 f.numHashes ++ f.bits) 4 4 =
        some f.numHashes :=
      numberAt_append hhashes (number 4 f.size) f.bits (by simp) rfl
    rw [fromBytes, h0, h4]
    rfl
  · simp
    omega

end BloomFilter

section Definitions

/-- What `write` has when some items are written. `entryCount` is also the number of the
next item. -/
structure SSTableWriter where
  file : Bytes
  index : List (Text × Nat)
  bloom : BloomFilter
  entryCount : Nat

def SSTableWriter.start : SSTableWriter := ⟨[], [], .create 10000 3, 0⟩

/-- One turn of the loop of `write`. -/
def SSTableWriter.writeEntry (w : SSTableWriter) (item : Text × Text) : Option SSTableWriter := do
  let index := if w.entryCount % indexInterval = 0 then w.index ++ [(item.1, w.file.length)]
    else w.index
  let bloom ← w.bloom.add item.1
  let keyBytes := encodeText item.1
  let valBytes := encodeText item.2
  let entry := (← structPack 2 keyBytes.length) ++ keyBytes ++
    (← structPack 4 valBytes.length) ++ valBytes
  return ⟨w.file ++ entry, index, bloom, w.entryCount + 1⟩

/-- An open table. -/
structure SSTableReader where
  file : Bytes
  index : List (Text × Nat)
  bloom : BloomFilter
  entryCount : Nat
  indexOffset : Nat
  bloomOffset : Nat

variable (codec : IndexCodec)

def writeFile (sortedItems : List (Text × Text)) : Option Bytes := do
  let w ← sortedItems.foldlM SSTableWriter.writeEntry .start
  let indexOffset := w.file.length
  let indexData := encodeText (codec.dumps w.index)
  let indexBlock := (← structPack 4 indexData.length) ++ indexData
  let bloomOffset := (w.file ++ indexBlock).length
  let bloomData ← w.bloom.toBytes
  let bloomBlock := (← structPack 4 bloomData.length) ++ bloomData
  let footer := (← structPack 8 indexOffset) ++ (← structPack 4 indexData.length) ++
    (← structPack 4 w.entryCount) ++ (← structPack 8 bloomOffset) ++ magic
  return w.file ++ indexBlock ++ bloomBlock ++ footer

/-- `_load_metadata`. A file shorter than a footer cannot be sought from its end. -/
def loadMetadata (file : Bytes) : Option SSTableReader := do
  guard (footerSize ≤ file.length)
  let footer := read file (file.length - footerSize) footerSize
  guard (read footer (footer.length - 8) 8 = magic)
  let indexOffset ← numberAt footer 8 0
  let entryCount ← numberAt footer 4 12
  let bloomOffset ← numberAt footer 8 16
  let indexLenCheck ← numberAt file 4 indexOffset
  let indexData := read file (indexOffset + 4) indexLenCheck
  let index ← codec.loads (← decodeText indexData)
  let bloomLen ← numberAt file 4 bloomOffset
  let bloomData := read file (bloomOffset + 4) bloomLen
  let bloom ← BloomFilter.fromBytes bloomData
  return ⟨file, index, bloom, entryCount, indexOffset, bloomOffset⟩

def write (sortedItems : List (Text × Text)) : Option SSTableReader := do
  loadMetadata codec (← writeFile codec sortedItems)

/-- `_read_entry`, with the position after the entry; the inner `none` stands for `None`. -/
def readEntry (file : Bytes) (pos : Nat) : Option (Option ((Text × Text) × Nat)) :=
  match numberAt file 2 pos with
  | none => some none
  | some keyLen => do
      let keyBytes := read file (pos + 2) keyLen
      let key ← decodeText keyBytes
      let valPos := pos + 2 + keyBytes.length
      match numberAt file 4 valPos with
      | none => return none
      | some valLen =>
          let valBytes := read file (valPos + 4) valLen
          let value ← decodeText valBytes
          return some ((key, value), valPos + 4 + valBytes.length)

namespace SSTableReader

def get (r : SSTableReader) (key : Text) : Option (Option Text) := do
  if ← r.bloom.mightContain key then
    walk (readEntry r.file) r.indexOffset (seek key) r.indexOffset (startOffset key r.index 0) none
  else return none

/-- One turn of the loop of `scan`. -/
def scanVisit (startKey endKey : Text) (yielded : List (Text × Text)) (entry : Text × Text) :
    List (Text × Text) × Bool :=
  if entry.1 < startKey then (yielded, true)
  else if endKey < entry.1 then (yielded, false)
  else (yielded ++ [entry], true)

def scan (r : SSTableReader) (startKey endKey : Text) : Option (List (Text × Text)) :=
  walk (readEntry r.file) r.indexOffset (scanVisit startKey endKey) r.indexOffset
    (startOffset startKey r.index 0) []

def iterAll (r : SSTableReader) : Option (List (Text × Text)) :=
  walk (readEntry r.file) r.indexOffset (fun yielded entry => (yielded ++ [entry], true))
    r.indexOffset 0 []

end SSTableReader

end Definitions

variable {codec : IndexCodec} {items : List (Text × Text)}

section Files

/-- The bytes of an item. -/
def entry (item : Text × Text) : Bytes := entryBytes (encodeText item.1) (encodeText item.2)

/-- The index of some items: the keys of the first and of every sixteenth after it, with
their positions. -/
def sparseIndex (items : List (Text × Text)) : List (Text × Nat) :=
  checkpoints entry Prod.fst indexInterval 0 0 items

/-- The lengths of an item fit their fields. -/
structure Short (item : Text × Text) : Prop where
  key : (encodeText item.1).length ≤ 65535
  value : (encodeText item.2).length < 2 ^ 32

/-- The numbers in the blocks and in the footer fit their fields. -/
structure Fits (codec : IndexCodec) (items : List (Text × Text)) : Prop where
  count : items.length < 2 ^ 32
  index : (encodeText (codec.dumps (sparseIndex items))).length < 2 ^ 32
  offset : (items.flatMap entry).length + 4 +
    (encodeText (codec.dumps (sparseIndex items))).length < 2 ^ 64

variable {item : Text × Text}

theorem Short.key_lt (h : Short item) : (encodeText item.1).length < 256 ^ 2 :=
  Nat.lt_succ_of_le h.key

theorem Short.value_lt (h : Short item) : (encodeText item.2).length < 256 ^ 4 :=
  h.value

theorem writeEntry_of_short (h : Short item) {w : SSTableWriter} {g : BloomFilter}
    (hbloom : w.bloom.add item.1 = some g) :
    w.writeEntry item = some ⟨w.file ++ entry item,
      w.index ++ if w.entryCount % indexInterval = 0 then [(item.1, w.file.length)] else [],
      g, w.entryCount + 1⟩ := by
  simp only [SSTableWriter.writeEntry, hbloom, structPack_of_lt h.key_lt,
    structPack_of_lt h.value_lt, Option.bind_eq_bind, Option.bind_some, Option.pure_def, entry,
    entryBytes]
  split <;> simp

namespace Fits

variable (h : Fits codec items)

include h

theorem count_lt : items.length < 256 ^ 4 := h.count

theorem index_lt :
    (encodeText (codec.dumps (sparseIndex items))).length < 256 ^ 4 := h.index

theorem bloomOffset_lt : (items.flatMap entry ++
    block (encodeText (codec.dumps (sparseIndex items)))).length < 256 ^ 8 := by
  have hoffset := h.offset
  rw [length_append, length_block]
  omega

theorem indexOffset_lt : (items.flatMap entry).length < 256 ^ 8 := by
  have hoffset := h.offset
  omega

end Fits

theorem exists_foldlM_writeEntry (h : ∀ item ∈ items, Short item) :
    ∃ bloom, items.foldlM SSTableWriter.writeEntry .start =
        some ⟨items.flatMap entry, sparseIndex items, bloom, items.length⟩ ∧
      bloom.size = 10000 ∧ bloom.numHashes = 3 ∧ bloom.Represents (items.map Prod.fst) := by
  induction items using List.reverseRecOn with
  | nil => exact ⟨_, rfl, rfl, rfl, BloomFilter.represents_create (by decide)⟩
  | append_singleton items item ih =>
    obtain ⟨bloom, hfold, hsize, hhashes, hbloom⟩ := ih fun i hi => h i (by simp [hi])
    obtain ⟨g, hadd, hsize', hhashes', hg⟩ := hbloom.exists_add item.1
    refine ⟨g, ?_, hsize'.trans hsize, hhashes'.trans hhashes, by simpa using hg⟩
    have hlast := writeEntry_of_short (h item (by simp)) (w := ⟨items.flatMap entry,
      sparseIndex items, bloom, items.length⟩) hadd
    rw [foldlM_append, hfold]
    simp only [Option.bind_eq_bind, Option.bind_some, foldlM_cons, hlast]
    simp [sparseIndex, checkpoints_concat]

theorem exists_writeFile (h : ∀ item ∈ items, Short item) (hfits : Fits codec items) :
    ∃ bloom bloomData, bloom.Represents (items.map Prod.fst) ∧
      BloomFilter.fromBytes bloomData = some bloom ∧ bloomData.length < 256 ^ 4 ∧
      writeFile codec items = some (layout (items.flatMap entry)
        (encodeText (codec.dumps (sparseIndex items))) bloomData items.length) := by
  obtain ⟨bloom, hfold, hsize, hhashes, hbloom⟩ := exists_foldlM_writeEntry h
  obtain ⟨bloomData, hto, hfrom, hlength⟩ := bloom.fromBytes_toBytes
    (by rw [hsize]; decide) (by rw [hhashes]; decide)
  have hbits : bloomData.length < 256 ^ 4 := by
    rw [hlength, hbloom.length_bits, hsize]
    decide
  refine ⟨bloom, bloomData, hbloom, hfrom, hbits, ?_⟩
  simp only [writeFile, hfold, hto, structPack_of_lt hfits.count_lt,
    structPack_of_lt hfits.index_lt, structPack_of_lt hbits, structPack_of_lt hfits.indexOffset_lt,
    Option.bind_eq_bind, Option.bind_some, Option.pure_def]
  have hbloomOffset : (items.flatMap entry ++ (number 4 (encodeText (codec.dumps
      (sparseIndex items))).length ++ encodeText (codec.dumps (sparseIndex items)))).length <
      256 ^ 8 := hfits.bloomOffset_lt
  rw [structPack_of_lt hbloomOffset]
  rfl

theorem loadMetadata_layout {data bloomData : Bytes} {index : List (Text × Nat)}
    {bloom : BloomFilter} {count : Nat}
    (h : Bounded data (encodeText (codec.dumps index)) bloomData count)
    (hbloom : BloomFilter.fromBytes bloomData = some bloom) :
    loadMetadata codec (layout data (encodeText (codec.dumps index)) bloomData count) =
      some ⟨layout data (encodeText (codec.dumps index)) bloomData count, index, bloom, count,
        data.length, (data ++ block (encodeText (codec.dumps index))).length⟩ := by
  obtain ⟨foot, hfoot, hlayout⟩ := h.exists_footer
  have hread : read (layout data (encodeText (codec.dumps index)) bloomData count)
      ((layout data (encodeText (codec.dumps index)) bloomData count).length - footerSize)
      footerSize = foot :=
    read_append _ [] (by rw [append_nil, hlayout]) length_layout_sub hfoot.length_eq.symm
  have hmagic : read foot (footerSize - 8) 8 = magic := hfoot.magic_eq
  simp only [loadMetadata, guard, footerSize_le_layout, if_true, hread, hfoot.length_eq, hmagic,
    hfoot.indexOffset_eq, hfoot.entryCount_eq, hfoot.bloomOffset_eq, h.numberAt_index, read_index,
    h.numberAt_bloom, read_bloom, hbloom, decodeText_encodeText, codec.loads_dumps,
    Option.bind_eq_bind, Option.bind_some, Option.pure_def]

end Files

section RoundTrip

variable {file : Bytes}

theorem readable_of_short {item : Text × Text} (h : Short item) :
    Readable entry file (readEntry file) item := by
  intro before after hfile
  simp only [readEntry, keyLength_of_entry hfile h.key_lt, key_of_entry hfile,
    decodeText_encodeText, valueLength_of_entry hfile h.value_lt, value_of_entry hfile,
    Option.bind_eq_bind, Option.bind_some, Option.pure_def]
  simp only [entry, length_entryBytes, Nat.add_assoc]

theorem stored_of_layout (hsorted : items.Pairwise fun a b => a.1 < b.1)
    (h : ∀ item ∈ items, Short item) {after : Bytes} (hfile : file = items.flatMap entry ++ after) :
    Stored entry file (readEntry file) items where
  sorted := hsorted
  nonempty _ := entryBytes_ne_nil
  readable item hitem := readable_of_short (h item hitem)
  layout := ⟨after, hfile⟩

def ReadsAs (r : SSTableReader) (items : List (Text × Text)) : Prop :=
  Answers r.iterAll r.get r.scan items

theorem scanVisit_fst (lo hi : Text) (yielded : List (Text × Text)) (item : Text × Text) :
    (SSTableReader.scanVisit lo hi yielded item).1 =
      if decide (lo ≤ item.1) && decide (item.1 ≤ hi) then yielded ++ [item] else yielded := by
  by_cases hlo : item.1 < lo
  · simp [SSTableReader.scanVisit, hlo, hlo.not_ge]
  · by_cases hhi : hi < item.1
    · simp [SSTableReader.scanVisit, hlo, hhi, hhi.not_ge]
    · simp [SSTableReader.scanVisit, hlo, hhi, not_lt.mp hlo, not_lt.mp hhi]

theorem lt_of_scanVisit_snd {lo hi : Text} {yielded : List (Text × Text)} {item : Text × Text}
    (h : (SSTableReader.scanVisit lo hi yielded item).2 = false) : hi < item.1 := by
  unfold SSTableReader.scanVisit at h
  split_ifs at h with h1 h2
  exact h2

theorem readsAs_of_stored {r : SSTableReader}
    (hstored : Stored entry r.file (readEntry r.file) items)
    (hoffset : r.indexOffset = (items.flatMap entry).length) (hindex : r.index = sparseIndex items)
    (hbloom : r.bloom.Represents (items.map Prod.fst)) : ReadsAs r items where
  iterAll_eq := by
    rw [SSTableReader.iterAll, hoffset]
    exact hstored.walk_all
  get_of_mem key value hmem := by
    have hkey : key ∈ items.map Prod.fst := mem_map_of_mem (f := Prod.fst) hmem
    rw [SSTableReader.get, hbloom.mightContain_of_mem hkey, hoffset, hindex]
    exact hstored.walk_seek_of_mem hmem
  get_of_not_mem key hkey := by
    obtain ⟨found, hfound⟩ := hbloom.exists_mightContain key
    have hnone : ∀ a ∈ items, a.1 ≠ key := fun a ha h => hkey (mem_map.mpr ⟨a, ha, h⟩)
    rw [SSTableReader.get, hfound, hoffset, hindex]
    cases found with
    | true => exact hstored.walk_seek_of_not_mem hnone
    | false => rfl
  scan_eq lo hi := by
    rw [SSTableReader.scan, hoffset, hindex]
    refine hstored.walk_eq_filter (scanVisit_fst lo hi) ?_ ?_
    · intro a b yielded hlt hstop
      have hhi := (lt_of_scanVisit_snd hstop).trans hlt
      simp [hhi]
    · intro a hlt
      simp [hlt]

/-- A table whose numbers fit their fields is read as it was written. -/
theorem exists_readsAs_of_fits (codec : IndexCodec) (items : List (Text × Text))
    (hsorted : items.Pairwise fun a b => a.1 < b.1) (hshort : ∀ item ∈ items, Short item)
    (hfits : Fits codec items) : ∃ r, write codec items = some r ∧ ReadsAs r items := by
  obtain ⟨bloom, bloomData, hbloom, hfrom, hbits, hwrite⟩ := exists_writeFile hshort hfits
  have hbounded : Bounded (items.flatMap entry) (encodeText (codec.dumps (sparseIndex items)))
      bloomData items.length :=
    ⟨hfits.count_lt, hfits.index_lt, hbits, hfits.bloomOffset_lt⟩
  have hload := loadMetadata_layout hbounded hfrom
  refine ⟨_, by rw [write, hwrite]; exact hload, ?_⟩
  exact readsAs_of_stored (stored_of_layout hsorted hshort layout_eq_index) rfl rfl hbloom

/-- An index text with a letter before every character of a key, a letter for every byte
before an entry and a letter after each pair. -/
def sampleDumps (index : List (Text × Nat)) : Text :=
  index.flatMap fun pair =>
    (pair.1.flatMap fun c => ['k', c]) ++ List.replicate pair.2 'i' ++ [';']

def sampleLoads : Text → Text → Nat → Option (List (Text × Nat))
  | [], _, _ => some []
  | 'k' :: c :: rest, key, offset => sampleLoads rest (key ++ [c]) offset
  | 'i' :: rest, key, offset => sampleLoads rest key (offset + 1)
  | ';' :: rest, key, offset => (sampleLoads rest [] 0).map ((key, offset) :: ·)
  | _, _, _ => none

theorem sampleLoads_key (word rest key : Text) :
    sampleLoads ((word.flatMap fun c => ['k', c]) ++ rest) key 0 =
      sampleLoads rest (key ++ word) 0 := by
  induction word generalizing key with
  | nil => simp
  | cons c word ih => simp [sampleLoads, ih]

theorem sampleLoads_offset (n : Nat) (rest key : Text) (offset : Nat) :
    sampleLoads (List.replicate n 'i' ++ rest) key offset = sampleLoads rest key (offset + n) := by
  induction n generalizing offset with
  | zero => simp
  | succ n ih => simp [replicate_succ, sampleLoads, ih, Nat.add_assoc, Nat.add_comm 1]

/-- A sample: the letters of a key are marked, and an offset is counted out. -/
def sampleCodec : IndexCodec where
  dumps := sampleDumps
  loads text := sampleLoads text [] 0
  loads_dumps index := by
    induction index with
    | nil => rfl
    | cons pair index ih =>
        have hcons : sampleDumps (pair :: index) = (pair.1.flatMap fun c => ['k', c]) ++
            (List.replicate pair.2 'i' ++ ';' :: sampleDumps index) := by
          simp [sampleDumps]
        rw [hcons, sampleLoads_key, sampleLoads_offset, sampleLoads, ih]
        simp

def sampleItems : List (Text × Text) :=
  (List.range 17).map fun i => ([Char.ofNat (97 + i)], ['v'])

theorem exists_readsAs_of_seventeen :
    ∃ r, write sampleCodec sampleItems = some r ∧ ReadsAs r sampleItems := by
  have hshort : ∀ item ∈ sampleItems,
      (encodeText item.1).length ≤ 65535 ∧ (encodeText item.2).length < 2 ^ 32 := by decide +kernel
  refine exists_readsAs_of_fits sampleCodec sampleItems (by decide +kernel)
    (fun item hitem => ⟨(hshort item hitem).1, (hshort item hitem).2⟩) ⟨?_, ?_, ?_⟩
  · decide +kernel
  · decide +kernel
  · decide +kernel

def words : Nat → List Text
  | 0 => [[]]
  | n + 1 => (words n).map ('a' :: ·) ++ (words n).map ('b' :: ·)

theorem length_words (n : Nat) : (words n).length = 2 ^ n := by
  induction n with
  | zero => rfl
  | succ n ih =>
    simp only [words, length_append, length_map, ih]
    omega

theorem pairwise_words (n : Nat) : (words n).Pairwise (· < ·) := by
  induction n with
  | zero => exact pairwise_singleton _ _
  | succ n ih =>
    have hcons : ∀ c : Char, ((words n).map (c :: ·)).Pairwise (· < ·) := by
      intro c
      exact pairwise_map.mpr (ih.imp fun h => cons_lt_cons_self.mpr h)
    refine pairwise_append.mpr ⟨hcons 'a', hcons 'b', ?_⟩
    intro x hx y hy
    obtain ⟨u, -, rfl⟩ := mem_map.mp hx
    obtain ⟨v, -, rfl⟩ := mem_map.mp hy
    exact List.Lex.rel (by decide)

theorem length_encodeText_word {n : Nat} {word : Text} (h : word ∈ words n) :
    (encodeText word).length = n := by
  induction n generalizing word with
  | zero =>
    obtain rfl := mem_singleton.mp h
    rfl
  | succ n ih =>
    rcases mem_append.mp h with h | h
    all_goals
      obtain ⟨rest, hrest, rfl⟩ := mem_map.mp h
      rw [encodeText, flatMap_cons, length_append]
      change 1 + (encodeText rest).length = n + 1
      rw [ih hrest, Nat.add_comm]

theorem writeFile_of_count (h : ∀ item ∈ items, Short item) (hcount : 2 ^ 32 ≤ items.length) :
    writeFile codec items = none := by
  obtain ⟨bloom, hfold, -⟩ := exists_foldlM_writeEntry h
  have hpack : structPack 4 items.length = none := if_neg (Nat.not_lt.mpr hcount)
  simp [writeFile, hfold, hpack]

theorem not_readsAs_of_words : ¬ ∀ (codec : IndexCodec) (items : List (Text × Text)),
    (items.Pairwise fun a b => a.1 < b.1) → (∀ item ∈ items, Short item) →
      ∃ r, write codec items = some r ∧ ReadsAs r items := by
  intro hall
  have hshort : ∀ item ∈ (words 32).map fun word => (word, ([] : Text)), Short item := by
    intro item hitem
    obtain ⟨word, hword, rfl⟩ := mem_map.mp hitem
    exact ⟨by rw [length_encodeText_word hword]; decide, by simp [encodeText]⟩
  obtain ⟨r, hwrite, -⟩ := hall sampleCodec ((words 32).map fun word => (word, []))
    (pairwise_map.mpr (pairwise_words 32)) hshort
  rw [write, writeFile_of_count hshort (by rw [length_map, length_words])] at hwrite
  exact absurd hwrite (by simp)

end RoundTrip

end LiteDB.SSTable
