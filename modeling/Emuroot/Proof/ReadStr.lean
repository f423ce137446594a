import Emuroot.Model.Transfer

/-!
# Strings of the guest, read exactly

`read_str_by_exact_iff`: when `guest_read_str` answers, by each way into the memory, with the string
at an address, and with nothing where there is no string that fits. It takes text without a NUL for
a string: up to a byte that cannot be read (`cut_off_by_every_way`), or as much as the buffer takes.
-/

namespace Emuroot

variable {w : Nat} {m : GuestMem w} {addr : Word w} {size : Nat}

/-- A string that the buffer takes with its NUL is at the address, all of it readable. -/
def StringFits (m : GuestMem w) (addr : Word w) (size : Nat) (s : CStr) : Prop :=
  m.HoldsString addr s ∧ s.length < size

/-- `guest_read_str` answers with the string that fits, and fails where none does. -/
def ReadsExactly (m : GuestMem w) (addr : Word w) (size : Nat) : Prop :=
  (∀ s, StringFits m addr size s → guestReadStr m addr size = some s) ∧
  ((¬∃ s, StringFits m addr size s) → guestReadStr m addr size = none)

/-- There is a string that fits or nothing can be read; of a buffer for the NUL alone, there is no
NUL to be read. -/
def AllOrNothing (m : GuestMem w) (addr : Word w) (size : Nat) : Prop :=
  if size ≤ 1 then size = 1 → m.byte addr ≠ some 0
  else (∃ s, StringFits m addr size s) ∨ m.byte addr = none

theorem guestReadStr_of_le_one (h : size ≤ 1) : guestReadStr m addr size = none := by
  rw [guestReadStr_eq, show size - 1 = 0 by omega]
  rfl

/-- Nothing is read exactly where not even the first byte can be. -/
theorem guestReadStr_eq_none (h : 1 < size) :
    guestReadStr m addr size = none ↔ m.byte addr = none := by
  rw [guestReadStr_eq, ← Memory.read_eq_nil (m := m.toMemory) (by omega : 0 < size - 1)]
  split <;> simp [*]

/-- The strings that a buffer for one byte takes. -/
theorem stringFits_one {s : CStr} : StringFits m addr 1 s ↔ s = [] ∧ m.byte addr = some 0 := by
  constructor
  · rintro ⟨h, hs⟩
    obtain rfl : s = [] := List.length_eq_zero_iff.1 (by omega)
    have hread : m.read addr 1 = [0] := h.2
    have hhead := Memory.head_read (hread ▸ List.cons_ne_nil 0 [])
    rw [hread] at hhead
    exact ⟨rfl, hhead.symm⟩
  · rintro ⟨rfl, hb⟩
    exact ⟨⟨by simp, by simp [Memory.read, hb]⟩, by simp⟩

/-- **When strings are read exactly.** -/
theorem read_str_exact_iff (m : GuestMem w) (addr : Word w) (size : Nat) :
    ReadsExactly m addr size ↔ AllOrNothing m addr size := by
  unfold AllOrNothing
  split
  · rename_i hle
    rw [ReadsExactly, guestReadStr_of_le_one hle]
    constructor
    · rintro ⟨h, -⟩ rfl hb
      cases h [] (stringFits_one.2 ⟨rfl, hb⟩)
    · intro h
      refine ⟨?_, fun _ => rfl⟩
      intro s hs
      obtain rfl : size = 1 := by
        have := hs.2
        omega
      exact (h rfl (stringFits_one.1 hs).2).elim
  · rename_i hgt
    rw [Nat.not_le] at hgt
    constructor
    · rintro ⟨-, h⟩
      by_cases hs : ∃ s, StringFits m addr size s
      · exact .inl hs
      · exact .inr ((guestReadStr_eq_none hgt).1 (h hs))
    · intro h
      refine ⟨fun s hs => guestReadStr_of_holds hs.1 hgt hs.2, fun hno => ?_⟩
      exact (guestReadStr_eq_none hgt).2 (h.resolve_left hno)

/-! ## By each way -/

/-- The same of `guest_read_str` with a method in use. -/
def ReadsExactlyBy (a : Arch w) (A : Ways w) (k : Method) (m : GuestMem w) (addr : Word w)
    (size : Nat) : Prop :=
  (∀ s, StringFits m addr size s → (guestReadStrBy a A k addr size).2 = some s) ∧
  ((¬∃ s, StringFits m addr size s) → (guestReadStrBy a A k addr size).2 = none)

/-- **When strings are read exactly**, whatever method is in use and however the kernel has the
tracer change to another. -/
theorem read_str_by_exact_iff (a : Arch w) {A : Ways w} (hA : Serves A m.toMemory) (k : Method)
    (addr : Word w) (size : Nat) : ReadsExactlyBy a A k m addr size ↔ AllOrNothing m addr size := by
  unfold ReadsExactlyBy
  rw [guestReadStrBy_eq hA]
  exact read_str_exact_iff m addr size

/-- A kernel that permits every way. -/
def openWays (m : Memory w) : Ways w where
  processVm addr len := if m.read addr len = [] then .error EFAULT else .ok (m.read addr len)
  procMem addr len := if m.read addr len = [] then .error EIO else .ok (m.read addr len)
  peek word :=
    if ∀ i < w / 8, (m.byte (word + BitVec.ofNat w i)).isSome = true then
      .ok fun i => (m.byte (word + BitVec.ofNat w i)).getD 0
    else .error EIO

theorem openWays_serves {m : Memory w}
    (h : ∀ word : Word w, word &&& wordMask w = 0 →
      (∀ i < w / 8, (m.byte (word + BitVec.ofNat w i)).isSome = true) ∨
        ∀ i < w / 8, m.byte (word + BitVec.ofNat w i) = none) : Serves (openWays m) m := by
  have hway : ∀ (addr : Word w) (len : Nat) (e : Int), Delivers m addr len
      (if m.read addr len = [] then .error e else .ok (m.read addr len)) := by
    intro addr len e
    split
    · exact .inr ‹_›
    · rfl
  refine ⟨fun addr len => hway addr len _, fun addr len => hway addr len _, fun word hw => ?_⟩
  unfold openWays
  dsimp only
  by_cases hall : ∀ i < w / 8, (m.byte (word + BitVec.ofNat w i)).isSome = true
  · rw [if_pos hall]
    intro i hi
    obtain ⟨b, hb⟩ := Option.isSome_iff_exists.1 (hall i hi)
    dsimp only
    rw [hb, Option.getD_some]
  · rw [if_neg hall]
    exact (h word hw).resolve_left hall

/-- A page that begins with `/b` and its NUL, and ends with `/a`, and nothing behind it. -/
def pageEnd : GuestMem 64 where
  byte a :=
    if a.toNat / 4096 = 1 then
      some (([(0x1000, 47), (0x1001, 98), (0x1ffe, 47), (0x1fff, 97)].lookup a.toNat).getD 0)
    else none
  writable _ := true
  errno := -14

theorem pageEnd_serves : Serves (openWays pageEnd.toMemory) pageEnd.toMemory := by
  apply openWays_serves
  intro word hword
  have hmod : word.toNat % 8 = 0 := by
    have hand := congrArg BitVec.toNat hword
    rw [BitVec.toNat_and] at hand
    exact (Nat.and_two_pow_sub_one_eq_mod word.toNat 3).symm.trans hand
  -- the bytes of a word are in one page
  have hpage : ∀ i < 8, (word + BitVec.ofNat 64 i).toNat / 4096 = word.toNat / 4096 := by
    intro i hi
    have := word.isLt
    rw [BitVec.toNat_add, BitVec.toNat_ofNat]
    omega
  by_cases h : word.toNat / 4096 = 1
  · refine .inl fun i hi => ?_
    have hi := (hpage i hi).trans h
    show (if _ then _ else _ : Option Byte).isSome = true
    rw [if_pos hi]
    rfl
  · refine .inr fun i hi => ?_
    exact if_neg fun hp => h ((hpage i hi).symm.trans hp)

/-- The path `/b` is read word by word. -/
theorem whole_read : ReadsExactlyBy x86_64 (openWays pageEnd.toMemory) .peekPoke pageEnd 0x1000#64
    pathLen := by
  apply (read_str_by_exact_iff x86_64 pageEnd_serves .peekPoke 0x1000#64 pathLen).2
  exact .inl ⟨cstr "/b", ⟨by decide, by decide⟩, by decide⟩

/-- The cut-off text is read as the path `/a`. -/
theorem cut_off_read :
    guestReadStr pageEnd 0x1ffe#64 pathLen = some (cstr "/a") ∧
      ¬∃ s, StringFits pageEnd 0x1ffe#64 pathLen s := by
  have hread : pageEnd.read 0x1ffe#64 (pathLen - 1) = cstr "/a" :=
    Memory.read_stop (m := pageEnd.toMemory) (k := 3) (by decide) (by decide)
  constructor
  · rw [guestReadStr_eq, hread]
    rfl
  · rintro ⟨s, hs⟩
    have hmem := (Memory.holdsString_iff.1 hs).1
    rw [Memory.read_stop (m := pageEnd.toMemory) (k := 3) (by decide) (by decide)] at hmem
    revert hmem
    decide

/-- The same with a method in use. -/
def CutOff (k : Method) : Prop :=
  (guestReadStrBy x86_64 (openWays pageEnd.toMemory) k 0x1ffe#64 pathLen).2 = some (cstr "/a") ∧
    ¬ReadsExactlyBy x86_64 (openWays pageEnd.toMemory) k pageEnd 0x1ffe#64 pathLen

theorem cutOff_by (k : Method) : CutOff k := by
  have hcut := (guestReadStrBy_eq (a := x86_64) pageEnd_serves k 0x1ffe#64 pathLen).trans
    cut_off_read.1
  refine ⟨hcut, fun h => ?_⟩
  cases hcut.symm.trans (h.2 cut_off_read.2)

theorem cut_off_by_every_way : CutOff .processVm ∧ CutOff .procMem ∧ CutOff .peekPoke :=
  ⟨cutOff_by _, cutOff_by _, cutOff_by _⟩

end Emuroot
