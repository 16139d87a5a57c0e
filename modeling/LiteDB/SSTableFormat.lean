import LiteDB.IndexedBlocks

namespace LiteDB.SSTableFormat

open Framing ByteFields

def magic : Bytes := encodeText "LITEDB01".toList

def indexInterval : Nat := 16

def footerSize : Nat := 8 + 4 + 4 + 8 + 8

/-- `[2B key_len][key][4B val_len][value]`. -/
def entryBytes (key value : Bytes) : Bytes :=
  number 2 key.length ++ key ++ number 4 value.length ++ value

/-- `[8B index_offset][4B index_len][4B entry_count][8B bloom_offset][8B magic]`. -/
def footer (indexOffset indexLen entryCount bloomOffset : Nat) : Bytes :=
  number 8 indexOffset ++ number 4 indexLen ++ number 4 entryCount ++ number 8 bloomOffset ++ magic

def block (data : Bytes) : Bytes := number 4 data.length ++ data

def layout (data index bloom : Bytes) (entryCount : Nat) : Bytes :=
  data ++ block index ++ block bloom ++
    footer data.length index.length entryCount (data ++ block index).length

section Entries

variable {file before key value after : Bytes}

theorem entryBytes_ne_nil : entryBytes key value ≠ [] := by
  intro h
  have hlength := congrArg List.length h
  simp [entryBytes] at hlength

theorem length_entryBytes : (entryBytes key value).length = 2 + key.length + 4 + value.length := by
  simp [entryBytes]
  omega

variable (hfile : file = before ++ (entryBytes key value ++ after))

include hfile

theorem keyLength_of_entry (hkey : key.length < 256 ^ 2) :
    numberAt file 2 before.length = some key.length :=
  numberAt_append hkey before (key ++ (number 4 value.length ++ (value ++ after)))
    (by simp [hfile, entryBytes]) rfl

theorem key_of_entry : read file (before.length + 2) key.length = key :=
  read_append (before ++ number 2 key.length) (number 4 value.length ++ (value ++ after))
    (by simp [hfile, entryBytes]) (by simp) rfl

theorem valueLength_of_entry (hvalue : value.length < 256 ^ 4) :
    numberAt file 4 (before.length + 2 + key.length) = some value.length :=
  numberAt_append hvalue (before ++ number 2 key.length ++ key) (value ++ after)
    (by simp [hfile, entryBytes]) (by simp [Nat.add_assoc])

theorem value_of_entry : read file (before.length + 2 + key.length + 4) value.length = value :=
  read_append (before ++ number 2 key.length ++ key ++ number 4 value.length) after
    (by simp [hfile, entryBytes]) (by simp [Nat.add_assoc]) rfl

end Entries

section Metadata

variable {file data index bloom before after : Bytes} {count : Nat}

theorem length_block : (block data).length = 4 + data.length := by
  simp [block]

theorem numberAt_block (hdata : data.length < 256 ^ 4)
    (hfile : file = before ++ (block data ++ after)) :
    numberAt file 4 before.length = some data.length :=
  numberAt_append hdata before (data ++ after) (by simp [hfile, block]) rfl

theorem read_block (hfile : file = before ++ (block data ++ after)) :
    read file (before.length + 4) data.length = data :=
  read_append (before ++ number 4 data.length) after (by simp [hfile, block]) (by simp) rfl

/-- The bytes are a footer with these fields. -/
structure IsFooter (bytes : Bytes) (indexOffset indexLen entryCount bloomOffset : Nat) : Prop where
  length_eq : bytes.length = footerSize
  indexOffset_eq : numberAt bytes 8 0 = some indexOffset
  indexLen_eq : numberAt bytes 4 8 = some indexLen
  entryCount_eq : numberAt bytes 4 12 = some entryCount
  bloomOffset_eq : numberAt bytes 8 16 = some bloomOffset
  magic_eq : read bytes 24 8 = magic

theorem isFooter_footer {indexOffset indexLen entryCount bloomOffset : Nat}
    (hindex : indexOffset < 256 ^ 8) (hlen : indexLen < 256 ^ 4) (hcount : entryCount < 256 ^ 4)
    (hbloom : bloomOffset < 256 ^ 8) :
    IsFooter (footer indexOffset indexLen entryCount bloomOffset) indexOffset indexLen entryCount
      bloomOffset where
  length_eq := rfl
  indexOffset_eq := numberAt_append hindex [] (number 4 indexLen ++ (number 4 entryCount ++
    (number 8 bloomOffset ++ magic))) (by simp [footer]) rfl
  indexLen_eq := numberAt_append hlen (number 8 indexOffset) (number 4 entryCount ++
    (number 8 bloomOffset ++ magic)) (by simp [footer]) rfl
  entryCount_eq := numberAt_append hcount (number 8 indexOffset ++ number 4 indexLen)
    (number 8 bloomOffset ++ magic) (by simp [footer]) rfl
  bloomOffset_eq := numberAt_append hbloom (number 8 indexOffset ++ number 4 indexLen ++
    number 4 entryCount) magic (by simp [footer]) rfl
  magic_eq := read_append (number 8 indexOffset ++ number 4 indexLen ++ number 4 entryCount ++
    number 8 bloomOffset) [] (by simp [footer]) rfl rfl

/-- The numbers of a file fit their fields. -/
structure Bounded (data index bloom : Bytes) (count : Nat) : Prop where
  count_lt : count < 256 ^ 4
  index_lt : index.length < 256 ^ 4
  bloom_lt : bloom.length < 256 ^ 4
  bloomOffset_lt : (data ++ block index).length < 256 ^ 8

theorem length_layout_sub : (layout data index bloom count).length - footerSize =
    (data ++ block index ++ block bloom).length := by
  rw [layout, List.length_append, show (footer _ _ _ _).length = footerSize from rfl,
    Nat.add_sub_cancel]

theorem footerSize_le_layout : footerSize ≤ (layout data index bloom count).length := by
  rw [layout, List.length_append, show (footer _ _ _ _).length = footerSize from rfl]
  exact Nat.le_add_left _ _

theorem layout_eq_index : layout data index bloom count = data ++ (block index ++ (block bloom ++
    footer data.length index.length count (data ++ block index).length)) := by
  simp only [layout, List.append_assoc]

theorem layout_eq_bloom : layout data index bloom count = (data ++ block index) ++ (block bloom ++
    footer data.length index.length count (data ++ block index).length) := by
  simp only [layout, List.append_assoc]

theorem read_index : read (layout data index bloom count) (data.length + 4) index.length = index :=
  read_block layout_eq_index

theorem read_bloom : read (layout data index bloom count) ((data ++ block index).length + 4)
    bloom.length = bloom :=
  read_block layout_eq_bloom

namespace Bounded

variable (h : Bounded data index bloom count)

include h

theorem exists_footer : ∃ foot, IsFooter foot data.length index.length count
      (data ++ block index).length ∧
    layout data index bloom count = (data ++ block index ++ block bloom) ++ foot := by
  have hindex : data.length < 256 ^ 8 := by
    have hoffset := h.bloomOffset_lt
    rw [List.length_append] at hoffset
    omega
  exact ⟨_, isFooter_footer hindex h.index_lt h.count_lt h.bloomOffset_lt, rfl⟩

theorem numberAt_index :
    numberAt (layout data index bloom count) 4 data.length = some index.length :=
  numberAt_block h.index_lt layout_eq_index

theorem numberAt_bloom : numberAt (layout data index bloom count) 4 (data ++ block index).length =
    some bloom.length :=
  numberAt_block h.bloom_lt layout_eq_bloom

end Bounded

end Metadata

end LiteDB.SSTableFormat
