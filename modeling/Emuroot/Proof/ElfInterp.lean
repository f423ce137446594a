import Emuroot.Lib.Elf
import Emuroot.Model.Exec
import Emuroot.Model.Guest
import Emuroot.Model.Linux

/-!
# The interpreter of an ELF file

`elf_interp_iff`: `elf_interp` finds the text of the first `PT_INTERP` header of the files that have
an ELF header of either class in native byte order, and finds nothing else.
-/

namespace Emuroot

open Elf

variable {offBits : Nat} {big : Bool} {c : Elf.Class} {file bs : List Byte} {size : Nat} {s : CStr}

/-- A program header that `elf_interp` takes, with the interpreter it names. -/
structure Names (offBits : Nat) (file : List Byte) (size : Nat) (p : Phdr c) (s : CStr) : Prop where
  type : p.type = ptInterp
  filesz : 0 < p.filesz ∧ p.filesz < size
  text : ∃ text, text.length = p.filesz ∧ PlacedAt (offT offBits) file p.offset text ∧ s = cStrOf text

/-- Where the program header at `x` is looked for. -/
def phdrPlace (offBits x : Nat) : Option Nat := offT offBits (x % 2 ^ 64)

/-! ## One program header -/

theorem phdr_sum (c : Elf.Class) : (if c = .elf64 then 56 else 32) = c.phdrWidths.sum := by
  cases c <;> rfl

theorem type_decode (h : bs.length = c.phdrWidths.sum) :
    Phdr.type (Record.decode big bs h) = field big bs 0 4 := by
  cases c
  · exact Record.field_decode h (by decide)
  · exact Record.field_decode h (by decide)

theorem offset_decode (h : bs.length = c.phdrWidths.sum) :
    Phdr.offset (Record.decode big bs h) = if c = .elf64 then field big bs 8 8 else field big bs 4 4 := by
  cases c
  · exact Record.field_decode h (by decide)
  · exact Record.field_decode h (by decide)

theorem filesz_decode (h : bs.length = c.phdrWidths.sum) :
    Phdr.filesz (Record.decode big bs h) =
      if c = .elf64 then field big bs 32 8 else field big bs 16 4 := by
  cases c
  · exact Record.field_decode h (by decide)
  · exact Record.field_decode h (by decide)

/-- What the loop does with the bytes of a header. -/
theorem findInterp_succ {phoff phentsize i n : Nat} :
    findInterp offBits big (c = .elf64) file phoff phentsize size i (n + 1) =
      match (phdrPlace offBits (phoff + i * phentsize)).bind fun off =>
          filePart file off c.phdrWidths.sum with
      | none => none
      | some ph =>
        let off := if c = .elf64 then field big ph 8 8 else field big ph 4 4
        let filesz := if c = .elf64 then field big ph 32 8 else field big ph 16 4
        if field big ph 0 4 = ptInterp then
          if filesz = 0 ∨ filesz ≥ size then none
          else ((offT offBits off).bind fun off => filePart file off filesz).map cStrOf
        else findInterp offBits big (c = .elf64) file phoff phentsize size (i + 1) n := by
  rw [← phdr_sum]
  cases c <;> rfl

/-- The header that is taken. -/
theorem names_iff {p : Phdr c} (ht : p.type = ptInterp) :
    (if p.filesz = 0 ∨ p.filesz ≥ size then none
      else ((offT offBits p.offset).bind fun off => filePart file off p.filesz).map cStrOf) = some s ↔
      Names offBits file size p s := by
  constructor
  · intro h
    split at h
    · cases h
    · rename_i hsize
      obtain ⟨text, htext, rfl⟩ := Option.map_eq_some_iff.1 h
      obtain ⟨hlen, hat⟩ := bind_filePart_iff.1 htext
      exact ⟨ht, by omega, text, hlen, hat, rfl⟩
  · rintro ⟨-, hsize, text, hlen, hat, rfl⟩
    rw [if_neg (by omega), bind_filePart_iff.2 ⟨hlen, hat⟩]
    rfl

/-! ## The table -/

/-- The file has these program headers from number `i` on. -/
def TableAt (offBits : Nat) (big : Bool) (file : List Byte) (phoff phentsize i : Nat) (ps : List (Phdr c)) : Prop :=
  ∀ k (h : k < ps.length),
    PlacedAt (phdrPlace offBits) file (phoff + (i + k) * phentsize) (ps[k].encode big)

theorem tableAt_cons {phoff phentsize i : Nat} {p : Phdr c} {ps : List (Phdr c)} :
    TableAt offBits big file phoff phentsize i (p :: ps) ↔
      PlacedAt (phdrPlace offBits) file (phoff + i * phentsize) (p.encode big) ∧
        TableAt offBits big file phoff phentsize (i + 1) ps := by
  constructor
  · intro h
    refine ⟨h 0 (Nat.succ_pos _), fun k hk => ?_⟩
    have hk' := h (k + 1) (Nat.succ_lt_succ hk)
    rwa [show i + (k + 1) = i + 1 + k by omega] at hk'
  · rintro ⟨h0, h⟩ k hk
    cases k with
    | zero => exact h0
    | succ k =>
      have hk' := h k (Nat.lt_of_succ_lt_succ hk)
      rwa [show i + 1 + k = i + (k + 1) by omega] at hk'

/-- **The loop over the program headers** finds the first that is a `PT_INTERP`. -/
theorem findInterp_iff {phoff phentsize i n : Nat} :
    findInterp offBits big (c = .elf64) file phoff phentsize size i n = some s ↔
      ∃ (pre : List (Phdr c)) (p : Phdr c), pre.length < n ∧
        TableAt offBits big file phoff phentsize i (pre ++ [p]) ∧ (∀ q ∈ pre, q.type ≠ ptInterp) ∧
        Names offBits file size p s := by
  induction n generalizing i with
  | zero =>
    constructor
    · intro h
      cases h
    · rintro ⟨pre, p, hlt, -⟩
      cases hlt
  | succ n ih =>
    rw [findInterp_succ]
    cases hpart : (phdrPlace offBits (phoff + i * phentsize)).bind fun off =>
        filePart file off c.phdrWidths.sum with
    | none =>
      constructor
      · intro h
        cases h
      · rintro ⟨pre, p, -, htab, -⟩
        -- the first header of the table would be there
        obtain ⟨q, hq⟩ : ∃ q : Phdr c,
            PlacedAt (phdrPlace offBits) file (phoff + i * phentsize) (q.encode big) := by
          cases pre with
          | nil => exact ⟨p, (tableAt_cons.1 htab).1⟩
          | cons q pre => exact ⟨q, (tableAt_cons.1 htab).1⟩
        rw [bind_filePart_iff.2 ⟨Record.length_encode q, hq⟩] at hpart
        cases hpart
    | some ph =>
      obtain ⟨hlen, hat⟩ := bind_filePart_iff.1 hpart
      -- the header in these bytes, and the only one
      obtain ⟨q, rfl⟩ : ∃ q : Phdr c, q.encode big = ph :=
        ⟨Record.decode big ph hlen, Record.encode_decode hlen⟩
      have hq : Record.decode big (q.encode big) hlen = q := Record.decode_encode q
      have hsame : ∀ {p : Phdr c}, PlacedAt (phdrPlace offBits) file (phoff + i * phentsize) (p.encode big) →
          p = q := by
        intro p hp
        have hbytes := hp.unique hat (by rw [Record.length_encode, Record.length_encode])
        exact Record.encode_inj hbytes
      have htype : Phdr.type (Record.decode big _ hlen) = _ := type_decode hlen
      have hoff : Phdr.offset (Record.decode big _ hlen) = _ := offset_decode hlen
      have hsz : Phdr.filesz (Record.decode big _ hlen) = _ := filesz_decode hlen
      rw [hq] at htype hoff hsz
      dsimp only
      rw [← htype, ← hoff, ← hsz]
      by_cases ht : q.type = ptInterp
      · rw [if_pos ht, names_iff ht]
        constructor
        · intro h
          refine ⟨[], q, Nat.succ_pos n, ?_, nofun, h⟩
          exact tableAt_cons.2 ⟨hat, fun k hk => absurd hk (Nat.not_lt_zero k)⟩
        · rintro ⟨pre, p, -, htab, hpre, h⟩
          cases pre with
          | nil => exact hsame (tableAt_cons.1 htab).1 ▸ h
          | cons q' pre =>
            have hq' := hsame (tableAt_cons.1 htab).1
            exact absurd (hq' ▸ ht) (hpre q' List.mem_cons_self)
      · rw [if_neg ht, ih]
        constructor
        · rintro ⟨pre, p, hlt, htab, hpre, h⟩
          refine ⟨q :: pre, p, Nat.succ_lt_succ hlt, tableAt_cons.2 ⟨hat, htab⟩, ?_, h⟩
          intro q' hq'
          rcases List.mem_cons.1 hq' with rfl | hq'
          · exact ht
          · exact hpre q' hq'
        · rintro ⟨pre, p, hlt, htab, hpre, h⟩
          cases pre with
          | nil => exact absurd (hsame (tableAt_cons.1 htab).1 ▸ h.type) ht
          | cons q' pre =>
            refine ⟨pre, p, Nat.lt_of_succ_lt_succ hlt, (tableAt_cons.1 htab).2, ?_, h⟩
            exact fun r hr => hpre r (List.mem_cons_of_mem _ hr)

/-! ## The whole file -/

/-- The fields of the header that are looked at. -/
def headerTable (c : Elf.Class) (big : Bool) (h : List Byte) : Nat × Nat × Nat :=
  if c = .elf64 then (field big h 32 8, field big h 54 2, field big h 56 2)
  else (field big h 28 4, field big h 42 2, field big h 44 2)

/-- The rest of `elf_interp` for a class. -/
def elfInterpOf (offBits : Nat) (c : Elf.Class) (big : Bool) (file : List Byte) (size : Nat) : Option CStr :=
  (filePart file 0 (16 + c.ehdrWidths.sum)).bind fun h =>
    let (phoff, phentsize, phnum) := headerTable c big h
    findInterp offBits big (c = .elf64) file phoff phentsize size 0 phnum

/-- The reading of `e_ident`. -/
theorem elfInterp_eq : elfInterp offBits big file size = some s ↔
    ∃ id c, filePart file 0 16 = some id ∧ id.take 4 = magic ∧ id[5]? = some (dataId big) ∧
      id[4]? = some c.id ∧ elfInterpOf offBits c big file size = some s := by
  have hpart : ∀ off len, preadExact file off len = filePart file off len := fun _ _ => rfl
  have hmag : ([0x7f, 0x45, 0x4c, 0x46] : List Byte) = magic := rfl
  unfold elfInterp
  rw [hpart, hmag]
  cases filePart file 0 16 with
  | none => simp
  | some id =>
    have hany : (id[5]?.any (· == if big then 2 else 1)) = true ↔ id[5]? = some (dataId big) := by
      cases id[5]? <;> simp [dataId]
    dsimp only
    rw [List.head?_drop, List.head?_drop]
    by_cases hmagic : id.take 4 = magic
    · rw [if_neg (not_not.2 hmagic)]
      by_cases hdata : id[5]? = some (dataId big)
      · rw [if_pos (hany.2 hdata)]
        constructor
        · intro h
          split at h
          · exact ⟨id, .elf64, rfl, hmagic, hdata, ‹_›, h⟩
          · exact ⟨id, .elf32, rfl, hmagic, hdata, ‹_›, h⟩
          · cases h
        · rintro ⟨id', c, hid, -, -, hcls, h⟩
          obtain rfl := Option.some.inj hid
          rw [hcls]
          cases c
          · exact h
          · exact h
      · rw [if_neg (mt hany.1 hdata)]
        constructor
        · intro h
          cases h
        · rintro ⟨id', c, hid, -, hd, -⟩
          exact absurd (Option.some.inj hid ▸ hd) hdata
    · rw [if_pos hmagic]
      constructor
      · intro h
        cases h
      · rintro ⟨id', c, hid, hm, -⟩
        exact absurd (Option.some.inj hid ▸ hm) hmagic

/-- The fields in the bytes of an image. -/
theorem headerTable_header (img : Image) :
    headerTable img.cls img.big img.header =
      (img.ehdr.phoff, img.ehdr.phentsize, img.ehdr.phnum) := by
  obtain ⟨cls, big, ident, hident, ehdr⟩ := img
  have hfield := fun i hi => Image.field_header ⟨cls, big, ident, hident, ehdr⟩ (i := i) hi
  cases cls
  · have hlt : ∀ i < 13, i < Elf.Class.elf32.ehdrWidths.length := fun _ hi => hi
    exact Prod.ext_iff.2 ⟨hfield 4 (hlt 4 (by decide)),
      Prod.ext_iff.2 ⟨hfield 8 (hlt 8 (by decide)), hfield 9 (hlt 9 (by decide))⟩⟩
  · have hlt : ∀ i < 13, i < Elf.Class.elf64.ehdrWidths.length := fun _ hi => hi
    exact Prod.ext_iff.2 ⟨hfield 4 (hlt 4 (by decide)),
      Prod.ext_iff.2 ⟨hfield 8 (hlt 8 (by decide)), hfield 9 (hlt 9 (by decide))⟩⟩

/-- The image in a header. -/
theorem exists_image {id h : List Byte} (hid : id.length = 16) (hmagic : id.take 4 = magic)
    (hcls : id[4]? = some c.id) (hdata : id[5]? = some (dataId big))
    (hlen : h.length = 16 + c.ehdrWidths.sum) (hfront : h.take 16 = id) :
    ∃ img : Image, img.cls = c ∧ img.big = big ∧ img.header = h := by
  have hrest : (h.drop 16).length = c.ehdrWidths.sum := by
    rw [List.length_drop, hlen, Nat.add_sub_cancel_left]
  refine ⟨⟨c, big, id.drop 6, by rw [List.length_drop, hid], Record.decode big (h.drop 16) hrest⟩, rfl,
    rfl, ?_⟩
  have hident : magic ++ [c.id, dataId big] ++ id.drop 6 = id := by
    have h4 : id.drop 4 = c.id :: dataId big :: id.drop 6 := by
      rw [List.drop_eq_getElem_cons (by omega), List.drop_eq_getElem_cons (by omega)]
      rw [List.getElem?_eq_getElem (by omega)] at hcls hdata
      rw [Option.some.inj hcls, Option.some.inj hdata]
    rw [List.append_assoc, ← hmagic]
    exact (congrArg (id.take 4 ++ ·) h4.symm).trans (List.take_append_drop 4 id)
  dsimp only [Image.header, Image.identBytes]
  rw [hident, Record.encode_decode, ← hfront, List.take_append_drop]

/-- **Which interpreter is found.** A file's interpreter is the text of the first `PT_INTERP` header
of an ELF image of either class, in native byte order: the file has the header of the image and its
program headers up to this one, there are as many as the header says at least, and the text fits the
buffer. In any other file none is found. -/
theorem elf_interp_iff (offBits : Nat) (big : Bool) (file : List Byte) (size : Nat) (s : CStr) :
    elfInterp offBits big file size = some s ↔
      ∃ (img : Image) (pre : List (Phdr img.cls)) (p : Phdr img.cls), img.big = big ∧
        img.Describes (phdrPlace offBits) (pre ++ [p]) file ∧ pre.length < img.ehdr.phnum ∧
        (∀ q ∈ pre, q.type ≠ ptInterp) ∧ Names offBits file size p s := by
  have htable : ∀ (img : Image), img.big = big →
      (findInterp offBits img.big (img.cls = .elf64) file img.ehdr.phoff img.ehdr.phentsize size 0
        img.ehdr.phnum = some s ↔ ∃ (pre : List (Phdr img.cls)) (p : Phdr img.cls),
          pre.length < img.ehdr.phnum ∧
          (∀ i (h : i < (pre ++ [p]).length), PlacedAt (phdrPlace offBits) file (img.phdrAt i)
            ((pre ++ [p])[i].encode img.big)) ∧
          (∀ q ∈ pre, q.type ≠ ptInterp) ∧ Names offBits file size p s) := by
    rintro img -
    rw [findInterp_iff]
    simp [TableAt, Image.phdrAt]
  rw [elfInterp_eq]
  constructor
  · rintro ⟨id, c, hid, hmagic, hdata, hcls, h⟩
    obtain ⟨hb, hhdr, h⟩ := Option.bind_eq_some_iff.1 h
    obtain ⟨hidlen, hidat⟩ := filePart_iff.1 hid
    obtain ⟨hlen, hat⟩ := filePart_iff.1 hhdr
    have hfront : hb.take 16 = id := by
      have hle : 16 ≤ hb.length := by omega
      have hfile : (hb.take 16).length = id.length := by rw [List.length_take, hidlen]; omega
      have hparts : FileAt file 0 (hb.take 16 ++ hb.drop 16) := by rwa [List.take_append_drop]
      exact hparts.front.unique hidat hfile
    obtain ⟨img, rfl, rfl, rfl⟩ := exists_image hidlen hmagic hcls hdata hlen hfront
    dsimp only at h
    rw [headerTable_header] at h
    obtain ⟨pre, p, hlt, htab, hpre, hp⟩ := (htable img rfl).1 h
    exact ⟨img, pre, p, rfl, ⟨hat, htab⟩, hlt, hpre, hp⟩
  · rintro ⟨img, pre, p, rfl, hdesc, hlt, hpre, hp⟩
    refine ⟨img.identBytes, img.cls, ?_, ?_, ?_, ?_, ?_⟩
    · exact filePart_iff.2 ⟨img.length_identBytes, hdesc.header.front⟩
    · rfl
    · rfl
    · rfl
    · refine Option.bind_eq_some_iff.2 ⟨img.header, ?_, ?_⟩
      · exact filePart_iff.2 ⟨img.length_header, hdesc.header⟩
      · rw [headerTable_header]
        exact (htable img rfl).2 ⟨pre, p, hlt, hdesc.phdr, hpre, hp⟩

end Emuroot
