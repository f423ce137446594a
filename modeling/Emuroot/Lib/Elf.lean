import Emuroot.Lib.Struct

/-!
# ELF files

An `Image` has the header of an ELF file and its program headers, of either class and byte order.
`Image.Describes` says that a file has these, the program headers where the header puts them.
-/

/-- The bytes are in the file at `off`. -/
def FileAt (file : List UInt8) (off : Nat) (bs : List UInt8) : Prop :=
  (file.drop off).take bs.length = bs

/-- So many bytes of a file, if it has them. -/
def filePart (file : List UInt8) (off len : Nat) : Option (List UInt8) :=
  let got := (file.drop off).take len
  if got.length = len then some got else none

theorem filePart_iff {file bs : List UInt8} {off len : Nat} :
    filePart file off len = some bs ↔ bs.length = len ∧ FileAt file off bs := by
  unfold filePart FileAt
  dsimp only
  constructor
  · intro h
    split at h
    · rename_i hlen
      obtain rfl := Option.some.inj h
      exact ⟨hlen, by rw [hlen]⟩
    · cases h
  · rintro ⟨rfl, h⟩
    rw [if_pos (congrArg List.length h), h]

/-- The front of what a file has. -/
theorem FileAt.front {file xs ys : List UInt8} {off : Nat} (h : FileAt file off (xs ++ ys)) :
    FileAt file off xs := by
  have hcut := congrArg (List.take xs.length) h
  rw [List.take_take, List.take_left, List.length_append, Nat.min_eq_left (by omega)] at hcut
  exact hcut

/-- What a file has at a place it has once. -/
theorem FileAt.unique {file bs bs' : List UInt8} {off : Nat} (h : FileAt file off bs)
    (h' : FileAt file off bs') (hlen : bs.length = bs'.length) : bs = bs' := by
  rw [← h, ← h', hlen]

/-- The bytes are in the file at the place that a reader makes of `x`, if it makes one of it. -/
def PlacedAt (place : Nat → Option Nat) (file : List UInt8) (x : Nat) (bs : List UInt8) : Prop :=
  ∃ off, place x = some off ∧ FileAt file off bs

theorem bind_filePart_iff {place : Nat → Option Nat} {file bs : List UInt8} {x len : Nat} :
    ((place x).bind fun off => filePart file off len) = some bs ↔
      bs.length = len ∧ PlacedAt place file x bs := by
  rw [Option.bind_eq_some_iff]
  constructor
  · rintro ⟨off, hoff, h⟩
    obtain ⟨hlen, hat⟩ := filePart_iff.1 h
    exact ⟨hlen, off, hoff, hat⟩
  · rintro ⟨hlen, off, hoff, hat⟩
    exact ⟨off, hoff, filePart_iff.2 ⟨hlen, hat⟩⟩

theorem PlacedAt.unique {place : Nat → Option Nat} {file bs bs' : List UInt8} {x : Nat}
    (h : PlacedAt place file x bs) (h' : PlacedAt place file x bs') (hlen : bs.length = bs'.length) :
    bs = bs' := by
  obtain ⟨off, hoff, hat⟩ := h
  obtain ⟨off', hoff', hat'⟩ := h'
  obtain rfl := Option.some.inj (hoff.symm.trans hoff')
  exact hat.unique hat' hlen

namespace Elf

/-- `EI_CLASS` -/
inductive Class
  | elf32 | elf64
  deriving DecidableEq, Repr

namespace Class

/-- The size of an address. -/
def word : Class → Nat
  | elf32 => 4
  | elf64 => 8

def id : Class → UInt8
  | elf32 => 1
  | elf64 => 2

/-- `e_type e_machine e_version e_entry e_phoff e_shoff e_flags e_ehsize e_phentsize e_phnum
e_shentsize e_shnum e_shstrndx` -/
def ehdrWidths (c : Class) : List Nat :=
  [2, 2, 4, c.word, c.word, c.word, 4, 2, 2, 2, 2, 2, 2]

/-- `p_type p_offset p_vaddr p_paddr p_filesz p_memsz p_flags p_align`, but that `p_flags` is the
second with 64 bits. -/
def phdrWidths : Class → List Nat
  | elf32 => [4, 4, 4, 4, 4, 4, 4, 4]
  | elf64 => [4, 4, 8, 8, 8, 8, 8, 8]

end Class

/-- What follows `e_ident`. -/
abbrev Ehdr (c : Class) := Record c.ehdrWidths

def Ehdr.phoff {c : Class} (h : Ehdr c) : Nat := Record.get h 4
def Ehdr.phentsize {c : Class} (h : Ehdr c) : Nat := Record.get h 8
def Ehdr.phnum {c : Class} (h : Ehdr c) : Nat := Record.get h 9

/-- A program header. -/
abbrev Phdr (c : Class) := Record c.phdrWidths

def Phdr.type {c : Class} (p : Phdr c) : Nat := Record.get p 0

def Phdr.offset : {c : Class} → Phdr c → Nat
  | .elf32, p => Record.get p 1
  | .elf64, p => Record.get p 2

def Phdr.filesz : {c : Class} → Phdr c → Nat
  | .elf32, p => Record.get p 4
  | .elf64, p => Record.get p 5

/-- `PT_INTERP` -/
def ptInterp : Nat := 3

/-- `ELFMAG` -/
def magic : List UInt8 := [0x7f, 0x45, 0x4c, 0x46]

/-- `EI_DATA` -/
def dataId (big : Bool) : UInt8 := if big then 2 else 1

/-- An ELF file, as far as its program headers go. -/
structure Image where
  cls : Class
  big : Bool
  /-- the rest of `e_ident` -/
  ident : List UInt8
  ident_length : ident.length = 10
  ehdr : Ehdr cls

namespace Image

/-- `e_ident` -/
def identBytes (img : Image) : List UInt8 := magic ++ [img.cls.id, dataId img.big] ++ img.ident

/-- The header of the file. -/
def header (img : Image) : List UInt8 := img.identBytes ++ img.ehdr.encode img.big

/-- Where the program header with this number is. -/
def phdrAt (img : Image) (i : Nat) : Nat := img.ehdr.phoff + i * img.ehdr.phentsize

/-- The file has the header, and these program headers from the first on; `place` is what a reader's
arithmetic makes of their places. -/
structure Describes (img : Image) (place : Nat → Option Nat) (phdrs : List (Phdr img.cls))
    (file : List UInt8) : Prop where
  header : FileAt file 0 img.header
  phdr : ∀ i (h : i < phdrs.length), PlacedAt place file (img.phdrAt i) (phdrs[i].encode img.big)

@[simp] theorem length_identBytes (img : Image) : img.identBytes.length = 16 := by
  simp [identBytes, magic, img.ident_length]

theorem length_header (img : Image) : img.header.length = 16 + img.cls.ehdrWidths.sum := by
  rw [header, List.length_append, length_identBytes, Record.length_encode]

/-- A field of the header. -/
theorem field_header (img : Image) {i : Nat} (hi : i < img.cls.ehdrWidths.length) :
    ofBytes img.big ((img.header.drop (16 + (img.cls.ehdrWidths.take i).sum)).take
      img.cls.ehdrWidths[i]) = img.ehdr.get i := by
  have hid := length_identBytes img
  rw [header, ← hid, List.drop_append, List.drop_of_length_le (by omega), List.nil_append, hid,
    Nat.add_sub_cancel_left]
  exact Record.field_encode img.ehdr hi

end Image

end Elf
