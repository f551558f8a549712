import GraceOS.Lib.Word
import Mathlib.Logic.Function.Basic

namespace graceos.bfs

def BFS_PAGE_SIZE : Nat := 4096
def BFS_MAGIC : UInt32 := 0x42465301
def BFS_VERSION : UInt32 := 2
def BFS_MAX_KEYS : Nat := 127
def BFS_MAX_VALUES : Nat := 127
def BFS_INTERNAL_MAX_KEYS : Nat := BFS_MAX_KEYS - 1

/-- One page of raw bytes, the unit in which the device is read and written. -/
abbrev Block := Fin BFS_PAGE_SIZE → UInt8

/-- The byte at an offset of a page. -/
def Block.byte (b : Block) (i : Nat) : UInt8 :=
  if h : i < BFS_PAGE_SIZE then b ⟨i, h⟩ else 0

/-- `struct bfs_page`, with the bytes of the page that follow the structure. -/
@[ext]
structure Page where
  magic : UInt32
  level : UInt16
  count : UInt16
  next : UInt64
  parent : UInt64
  keys : Fin BFS_MAX_KEYS → UInt64
  values : Fin BFS_MAX_VALUES → UInt64
  rest : Fin 2040 → UInt8

/-- `struct bfs_root`, with the bytes of page 0 that follow the structure. -/
@[ext]
structure Root where
  magic : UInt32
  version : UInt32
  root_page : UInt64
  total_pages : UInt64
  free_pages : UInt64
  next_free : UInt64
  file_count : UInt64
  rest : Fin 4048 → UInt8

namespace Page

/-- The structure that a page buffer shows when it is cast to `struct bfs_page`. -/
def decode (b : Block) : Page where
  magic := UInt32.ofNat (word.load b.byte 0 4)
  level := UInt16.ofNat (word.load b.byte 4 2)
  count := UInt16.ofNat (word.load b.byte 6 2)
  next := UInt64.ofNat (word.load b.byte 8 8)
  parent := UInt64.ofNat (word.load b.byte 16 8)
  keys := fun i => UInt64.ofNat (word.load b.byte (24 + 8 * i) 8)
  values := fun i => UInt64.ofNat (word.load b.byte (1040 + 8 * i) 8)
  rest := fun i => b.byte (2056 + i)

/-- The page `memset` leaves behind. -/
def zero : Page := ⟨0, 0, 0, 0, 0, fun _ => 0, fun _ => 0, fun _ => 0⟩

def key (p : Page) (i : Nat) : UInt64 :=
  if h : i < BFS_MAX_KEYS then p.keys ⟨i, h⟩ else 0

def value (p : Page) (i : Nat) : UInt64 :=
  if h : i < BFS_MAX_VALUES then p.values ⟨i, h⟩ else 0

/-- The bytes of a page structure in memory, little-endian. -/
def byte (p : Page) (i : Nat) : UInt8 :=
  if i < 4 then word.byte p.magic.toNat i
  else if i < 6 then word.byte p.level.toNat (i - 4)
  else if i < 8 then word.byte p.count.toNat (i - 6)
  else if i < 16 then word.byte p.next.toNat (i - 8)
  else if i < 24 then word.byte p.parent.toNat (i - 16)
  else if i < 1040 then word.byte (p.key ((i - 24) / 8)).toNat ((i - 24) % 8)
  else if i < 2056 then word.byte (p.value ((i - 1040) / 8)).toNat ((i - 1040) % 8)
  else if h : i - 2056 < 2040 then p.rest ⟨i - 2056, h⟩ else 0

def encode (p : Page) : Block := fun i => p.byte i

def set_key (p : Page) (i : Nat) (v : UInt64) : Page :=
  { p with keys := fun j => if j.val = i then v else p.keys j }

def set_value (p : Page) (i : Nat) (v : UInt64) : Page :=
  { p with values := fun j => if j.val = i then v else p.values j }

end Page

namespace Root

def decode (b : Block) : Root where
  magic := UInt32.ofNat (word.load b.byte 0 4)
  version := UInt32.ofNat (word.load b.byte 4 4)
  root_page := UInt64.ofNat (word.load b.byte 8 8)
  total_pages := UInt64.ofNat (word.load b.byte 16 8)
  free_pages := UInt64.ofNat (word.load b.byte 24 8)
  next_free := UInt64.ofNat (word.load b.byte 32 8)
  file_count := UInt64.ofNat (word.load b.byte 40 8)
  rest := fun i => b.byte (48 + i)

def byte (r : Root) (i : Nat) : UInt8 :=
  if i < 4 then word.byte r.magic.toNat i
  else if i < 8 then word.byte r.version.toNat (i - 4)
  else if i < 16 then word.byte r.root_page.toNat (i - 8)
  else if i < 24 then word.byte r.total_pages.toNat (i - 16)
  else if i < 32 then word.byte r.free_pages.toNat (i - 24)
  else if i < 40 then word.byte r.next_free.toNat (i - 32)
  else if i < 48 then word.byte r.file_count.toNat (i - 40)
  else if h : i - 48 < 4048 then r.rest ⟨i - 48, h⟩ else 0

def encode (r : Root) : Block := fun i => r.byte i

end Root

section Codec

theorem Block.byte_ofNat {byte : Nat → UInt8} {i : Nat} (hi : i < BFS_PAGE_SIZE) :
    Block.byte (fun i => byte i) i = byte i := by
  rw [Block.byte, dif_pos hi]

theorem load_field {byte : Nat → UInt8} {offset width value : Nat} (hend : offset + width ≤ BFS_PAGE_SIZE)
    (hvalue : value < 256 ^ width) (hbytes : ∀ index < width, byte (offset + index) = word.byte value index) :
    word.load (Block.byte fun i => byte i) offset width = value := by
  refine (word.load_of_bytes ?_).trans (Nat.mod_eq_of_lt hvalue)
  intro index hindex
  rw [Block.byte_ofNat (by omega), hbytes index hindex]

theorem Page.load_key (p : Page) (i : Fin BFS_MAX_KEYS) :
    word.load p.encode.byte (24 + 8 * i) 8 = (p.keys i).toNat := by
  have hi : i.val < 127 := i.isLt
  refine load_field (by simp only [BFS_PAGE_SIZE]; omega) (p.keys i).toNat_lt fun index hindex => ?_
  have hslot : (24 + 8 * i.val + index - 24) / 8 = i.val := by omega
  have hbyte : (24 + 8 * i.val + index - 24) % 8 = index := by omega
  rw [byte, if_neg (by omega), if_neg (by omega), if_neg (by omega), if_neg (by omega),
    if_neg (by omega), if_pos (by omega), hslot, hbyte, key, dif_pos i.isLt]

theorem Page.load_value (p : Page) (i : Fin BFS_MAX_VALUES) :
    word.load p.encode.byte (1040 + 8 * i) 8 = (p.values i).toNat := by
  have hi : i.val < 127 := i.isLt
  refine load_field (by simp only [BFS_PAGE_SIZE]; omega) (p.values i).toNat_lt fun index hindex => ?_
  have hslot : (1040 + 8 * i.val + index - 1040) / 8 = i.val := by omega
  have hbyte : (1040 + 8 * i.val + index - 1040) % 8 = index := by omega
  rw [byte, if_neg (by omega), if_neg (by omega), if_neg (by omega), if_neg (by omega),
    if_neg (by omega), if_neg (by omega), if_pos (by omega), hslot, hbyte, value, dif_pos i.isLt]

theorem Page.byte_rest (p : Page) (i : Fin 2040) : p.encode.byte (2056 + i) = p.rest i := by
  have hslot : 2056 + i.val - 2056 = i.val := by omega
  have hbyte : p.encode.byte (2056 + i) = p.byte (2056 + i) :=
    Block.byte_ofNat (by simp only [BFS_PAGE_SIZE]; omega)
  rw [hbyte, byte, if_neg (by omega), if_neg (by omega), if_neg (by omega), if_neg (by omega), if_neg (by omega),
    if_neg (by omega),
    if_neg (by omega)]
  simp only [hslot, i.isLt, dif_pos]

@[simp] theorem Page.decode_encode (p : Page) : Page.decode p.encode = p := by
  have hmagic : word.load p.encode.byte 0 4 = p.magic.toNat := by
    refine load_field (by decide) p.magic.toNat_lt fun index hindex => ?_
    rw [byte, if_pos (by omega), Nat.zero_add]
  have hlevel : word.load p.encode.byte 4 2 = p.level.toNat := by
    refine load_field (by decide) p.level.toNat_lt fun index hindex => ?_
    simp (disch := omega) only [byte, if_pos, if_neg, Nat.add_sub_cancel_left]
  have hcount : word.load p.encode.byte 6 2 = p.count.toNat := by
    refine load_field (by decide) p.count.toNat_lt fun index hindex => ?_
    simp (disch := omega) only [byte, if_pos, if_neg, Nat.add_sub_cancel_left]
  have hnext : word.load p.encode.byte 8 8 = p.next.toNat := by
    refine load_field (by decide) p.next.toNat_lt fun index hindex => ?_
    simp (disch := omega) only [byte, if_pos, if_neg, Nat.add_sub_cancel_left]
  have hparent : word.load p.encode.byte 16 8 = p.parent.toNat := by
    refine load_field (by decide) p.parent.toNat_lt fun index hindex => ?_
    simp (disch := omega) only [byte, if_pos, if_neg, Nat.add_sub_cancel_left]
  simp only [decode, hmagic, hlevel, hcount, hnext, hparent, load_key, load_value, byte_rest,
    UInt32.ofNat_toNat, UInt16.ofNat_toNat, UInt64.ofNat_toNat]

theorem Root.load_word (r : Root) {offset : Nat} {x : UInt64} (hend : offset + 8 ≤ 48)
    (hbytes : ∀ index < 8, r.byte (offset + index) = word.byte x.toNat index) :
    UInt64.ofNat (word.load r.encode.byte offset 8) = x := by
  have hload : word.load r.encode.byte offset 8 = x.toNat :=
    load_field (by simp only [BFS_PAGE_SIZE]; omega) x.toNat_lt hbytes
  rw [hload, UInt64.ofNat_toNat]

/-- Flushing the super-block and mounting the disk again gives it back. -/
@[simp] theorem Root.decode_encode (r : Root) : Root.decode r.encode = r := by
  have hmagic : word.load r.encode.byte 0 4 = r.magic.toNat := by
    refine load_field (by decide) r.magic.toNat_lt fun index hindex => ?_
    rw [byte, if_pos (by omega), Nat.zero_add]
  have hversion : word.load r.encode.byte 4 4 = r.version.toNat := by
    refine load_field (by decide) r.version.toNat_lt fun index hindex => ?_
    simp (disch := omega) only [byte, if_pos, if_neg, Nat.add_sub_cancel_left]
  have hroot : UInt64.ofNat (word.load r.encode.byte 8 8) = r.root_page := by
    refine r.load_word (by omega) fun index hindex => ?_
    simp (disch := omega) only [byte, if_pos, if_neg, Nat.add_sub_cancel_left]
  have htotal : UInt64.ofNat (word.load r.encode.byte 16 8) = r.total_pages := by
    refine r.load_word (by omega) fun index hindex => ?_
    simp (disch := omega) only [byte, if_pos, if_neg, Nat.add_sub_cancel_left]
  have hfree : UInt64.ofNat (word.load r.encode.byte 24 8) = r.free_pages := by
    refine r.load_word (by omega) fun index hindex => ?_
    simp (disch := omega) only [byte, if_pos, if_neg, Nat.add_sub_cancel_left]
  have hnext : UInt64.ofNat (word.load r.encode.byte 32 8) = r.next_free := by
    refine r.load_word (by omega) fun index hindex => ?_
    simp (disch := omega) only [byte, if_pos, if_neg, Nat.add_sub_cancel_left]
  have hfiles : UInt64.ofNat (word.load r.encode.byte 40 8) = r.file_count := by
    refine r.load_word (by omega) fun index hindex => ?_
    simp (disch := omega) only [byte, if_pos, if_neg, Nat.add_sub_cancel_left]
  have hrest : ∀ i : Fin 4048, r.encode.byte (48 + i) = r.rest i := by
    intro i
    have hslot : 48 + i.val - 48 = i.val := by omega
    have hbyte : r.encode.byte (48 + i) = r.byte (48 + i) :=
      Block.byte_ofNat (by simp only [BFS_PAGE_SIZE]; omega)
    rw [hbyte, byte, if_neg (by omega), if_neg (by omega), if_neg (by omega), if_neg (by omega),
      if_neg (by omega), if_neg (by omega), if_neg (by omega)]
    simp only [hslot, i.isLt, dif_pos]
  simp only [decode, hmagic, hversion, hroot, htotal, hfree, hnext, hfiles, hrest, UInt32.ofNat_toNat]

-- From here on the two codecs are used through their round trips only.
attribute [irreducible] Page.decode Page.encode Root.decode Root.encode

end Codec

end graceos.bfs
