import Emuroot.Model.PeekPoke

/-!
# Access to memory word by word

`peek_poke_exact`: `peek_poke` transfers the longest prefix that lies in accessible words, and no
other byte. `peekPoke_guestRead` and `peekPoke_guestWrite`: where words are accessible as a whole,
that is what `guestRead` reads and `guestWrite` writes.
-/

namespace Emuroot

variable {w : Nat} {a : Arch w} {m m' : Memory w} {addr x : Word w} {buf : List Byte} {writeIt : Bool}

/-- The word of the address can be read and, for a write, written. -/
def Accessible (m : Memory w) (writeIt : Bool) (x : Word w) : Prop :=
  ∀ i < w / 8, (m.byte (wordAt x + BitVec.ofNat w i)).isSome ∧
    (writeIt = true → m.writable (wordAt x + BitVec.ofNat w i) = true)

/-- The longest prefix of `len` bytes that lies in accessible words has `k` bytes. -/
structure LongestPrefix (m : Memory w) (writeIt : Bool) (addr : Word w) (len k : Nat) : Prop where
  le : k ≤ len
  inside : ∀ i < k, Accessible m writeIt (addr + BitVec.ofNat w i)
  stop : k < len → ¬Accessible m writeIt (addr + BitVec.ofNat w k)

/-! ## Words -/

theorem exists_mask (a : Arch w) : ∃ k ≤ w, w / 8 = 2 ^ k ∧ w / 8 * 8 = w ∧
    wordMask w = Align.mask w k := by
  rcases a.bits with rfl | rfl
  · exact ⟨2, by decide, rfl, rfl, rfl⟩
  · exact ⟨3, by decide, rfl, rfl, rfl⟩

/-- The place of an address in its word. -/
def wordOff (x : Word w) : Nat := (x - wordAt x).toNat

theorem wordOff_lt (a : Arch w) (x : Word w) : wordOff x < w / 8 := word_off_lt a x

theorem wordAt_add_off (x : Word w) : wordAt x + BitVec.ofNat w (wordOff x) = x := word_add_off x

/-- The addresses behind an address that are in its word. -/
theorem wordAt_add (a : Arch w) {t : Nat} (h : wordOff x + t < w / 8) :
    wordAt (x + BitVec.ofNat w t) = wordAt x := by
  obtain ⟨k, hk, hw, -, hmask⟩ := exists_mask a
  have hoff : wordOff x = x.toNat % 2 ^ k := by
    rw [wordOff, wordAt, Align.sub_and_not, hmask, Align.toNat_low hk]
  rw [hoff, hw] at h
  rw [wordAt, wordAt, hmask]
  exact Align.down_add hk h

/-- An accessible address can be read, and written if that is asked for. -/
theorem Accessible.byte (a : Arch w) (h : Accessible m writeIt x) :
    (m.byte x).isSome ∧ (writeIt = true → m.writable x = true) := by
  have hx := h _ (wordOff_lt a x)
  rwa [wordAt_add_off] at hx

theorem Accessible.add (h : Accessible m writeIt x) (a : Arch w) {t : Nat}
    (ht : wordOff x + t < w / 8) : Accessible m writeIt (x + BitVec.ofNat w t) := by
  rwa [Accessible, wordAt_add a ht]

theorem pow_width (a : Arch w) : 256 ^ (w / 8) = 2 ^ w := by
  obtain ⟨-, -, -, h8, -⟩ := exists_mask a
  rw [show 256 = 2 ^ 8 by rfl, ← Nat.pow_mul, Nat.mul_comm, h8]

theorem cellBytes_cellWord {bytes : List Byte} (h : bytes.length = w / 8) :
    cellBytes a (cellWord a bytes) = bytes := by
  have hlt := ofBytes_lt a.bigEndian bytes
  rw [h, pow_width a] at hlt
  rw [cellBytes, cellWord, BitVec.toNat_ofNat, Nat.mod_eq_of_lt hlt, ← h]
  exact toBytes_ofBytes _ _

/-- A word that is peeked, by its bytes. -/
theorem peekData_some {word cell : Word w} (h : peekData a m word = some cell) :
    (m.read word (w / 8)).length = w / 8 ∧ cellBytes a cell = m.read word (w / 8) := by
  unfold peekData at h
  dsimp only at h
  split at h
  · rename_i hlen
    rw [← Option.some.inj h]
    exact ⟨hlen, cellBytes_cellWord hlen⟩
  · cases h

theorem peekData_none {word : Word w} (h : peekData a m word = none) :
    (m.read word (w / 8)).length ≠ w / 8 := by
  unfold peekData at h
  dsimp only at h
  split at h
  · cases h
  · assumption

/-! ## A round -/

/-- `s` is what `peek_poke` has got to: so many accessible bytes, and no other. -/
structure Transferred (m : Memory w) (addr : Word w) (buf : List Byte) (writeIt : Bool)
    (s : PeekPoke w) : Prop where
  le : s.done ≤ buf.length
  inside : ∀ i < s.done, Accessible m writeIt (addr + BitVec.ofNat w i)
  reads : writeIt = false → s.mem = m ∧ s.buf = m.read addr s.done ++ buf.drop s.done
  writes : writeIt = true → s.mem = m.write addr (buf.take s.done) ∧ s.buf = buf

section
variable {s s' : PeekPoke w}

/-- Where a readable range is written, what can be read stays the same. -/
theorem isSome_write {bs : List Byte} (h : ∀ i < bs.length, (m.byte (addr + BitVec.ofNat w i)).isSome)
    (x : Word w) : ((m.write addr bs).byte x).isSome ↔ (m.byte x).isSome := by
  constructor
  · intro hx
    by_cases hin : ∃ i < bs.length, x = addr + BitVec.ofNat w i
    · obtain ⟨i, hi, rfl⟩ := hin
      exact h i hi
    · rwa [Memory.write_byte_other fun i hi he => hin ⟨i, hi, he⟩] at hx
  · exact Memory.isSome_write x

theorem Transferred.start (m : Memory w) (addr : Word w) (buf : List Byte) (writeIt : Bool) :
    Transferred m addr buf writeIt ⟨m, buf, 0⟩ where
  le := Nat.zero_le _
  inside := fun i hi => absurd hi (Nat.not_lt_zero i)
  reads := fun _ => ⟨rfl, rfl⟩
  writes := fun _ => ⟨rfl, rfl⟩

/-- What was transferred leaves the rest as accessible as it was. -/
theorem Transferred.isSome_iff (a : Arch w) (h : Transferred m addr buf writeIt s) (x : Word w) :
    (s.mem.byte x).isSome ↔ (m.byte x).isSome := by
  cases hw : writeIt with
  | false => rw [(h.reads hw).1]
  | true =>
    rw [(h.writes hw).1]
    refine isSome_write (fun i hi => ?_) x
    rw [List.length_take_of_le h.le] at hi
    exact ((h.inside i hi).byte a).1

theorem Transferred.writable_eq (h : Transferred m addr buf writeIt s) :
    s.mem.writable = m.writable := by
  cases hw : writeIt with
  | false => rw [(h.reads hw).1]
  | true => rw [(h.writes hw).1, Memory.write_writable]

theorem Transferred.length_read (a : Arch w) (h : Transferred m addr buf writeIt s) :
    (m.read addr s.done).length = s.done :=
  Memory.length_read_eq_iff.2 fun i hi => ((h.inside i hi).byte a).1

/-- The round leaves the loop where it has come to an inaccessible word. -/
theorem Transferred.stop (h : Transferred m addr buf writeIt s)
    (hs : peekPokeStep a addr buf.length writeIt s = .inr s') :
    s' = s ∧ (s.done < buf.length → ¬Accessible m writeIt (addr + BitVec.ofNat w s.done)) := by
  unfold peekPokeStep at hs
  split at hs
  · extract_lets word off chunk at hs
    split at hs
    · rename_i hpeek
      refine ⟨(Sum.inr.inj hs).symm, fun _ hacc => peekData_none hpeek ?_⟩
      exact Memory.length_read_eq_iff.2 fun i hi => (h.isSome_iff a _).2 (hacc i hi).1
    · split at hs
      · rename_i hw
        extract_lets bytes at hs
        split at hs
        · rename_i hpoke
          refine ⟨(Sum.inr.inj hs).symm, fun _ hacc => ?_⟩
          unfold pokeData at hpoke
          split at hpoke
          · cases hpoke
          · rename_i hcan
            refine hcan (Memory.canWrite_iff.2 fun i hi => ?_)
            rw [h.writable_eq]
            exact (hacc i hi).2 hw
        · cases hs
      · cases hs
  · rename_i hge
    exact ⟨(Sum.inr.inj hs).symm, fun hlt => absurd hlt hge⟩

section
variable {word cell : Word w} {off chunk : Nat}

/-- The chunk of a word that is read. -/
theorem Transferred.read (h : Transferred m addr buf writeIt s) (hw : writeIt = false)
    (hword : word + BitVec.ofNat w off = addr + BitVec.ofNat w s.done) (hoff : off + chunk ≤ w / 8)
    (hread : (s.mem.read word (w / 8)).length = w / 8)
    (hcell : cellBytes a cell = s.mem.read word (w / 8)) :
    s.buf.splice s.done (((cellBytes a cell).drop off).take chunk) =
      m.read addr (s.done + chunk) ++ buf.drop (s.done + chunk) := by
  obtain ⟨hmem, hbuf⟩ := h.reads hw
  have hfront := h.length_read a
  have hgot : ((cellBytes a cell).drop off).take chunk =
      m.read (addr + BitVec.ofNat w s.done) chunk := by
    rw [hmem] at hread hcell
    rw [hcell, Memory.read_drop hread (by omega), hword, Memory.read_take (by omega)]
  have hlen : (m.read (addr + BitVec.ofNat w s.done) chunk).length = chunk := by
    rw [← hgot, hcell, List.length_take, List.length_drop, hread]
    omega
  rw [hgot, hbuf, Memory.read_split hfront, List.splice, hlen, List.take_left' hfront, ← List.drop_drop,
    List.drop_left' hfront, List.drop_drop]

/-- The chunk of a word that is written: the rest of the word is put back as it was. -/
theorem Transferred.write (h : Transferred m addr buf writeIt s) (hw : writeIt = true)
    (hword : word + BitVec.ofNat w off = addr + BitVec.ofNat w s.done) (hoff : off + chunk ≤ w / 8)
    (hdone : s.done + chunk ≤ buf.length) (hread : (s.mem.read word (w / 8)).length = w / 8)
    (hcell : cellBytes a cell = s.mem.read word (w / 8)) (hcan : s.mem.canWrite word (w / 8) = true) :
    s.mem.write word
        (cellBytes a (cellWord a ((cellBytes a cell).splice off ((s.buf.drop s.done).take chunk)))) =
      m.write addr (buf.take (s.done + chunk)) := by
  obtain ⟨hmem, hbuf⟩ := h.writes hw
  have hsrc : ((buf.drop s.done).take chunk).length = chunk := by
    rw [List.length_take, List.length_drop]
    omega
  have hwidth : w / 8 ≤ 2 ^ w := (Nat.div_le_self w 8).trans (Nat.le_of_lt Nat.lt_two_pow_self)
  have hfront : m.canWrite addr (buf.take s.done).length = true := by
    rw [List.length_take_of_le h.le]
    exact Memory.canWrite_iff.2 fun i hi => ((h.inside i hi).byte a).2 hw
  have happend : m.write addr (buf.take s.done ++ (buf.drop s.done).take chunk) = _ :=
    Memory.write_append hfront
  rw [List.length_take_of_le h.le, ← List.take_add] at happend
  rw [hcell, hbuf, cellBytes_cellWord (by rw [List.length_splice (by omega), hread]),
    Memory.write_splice hread hcan hwidth (by omega), hword, hmem, happend]

end

/-- A round transfers what lies in the next word. -/
theorem Transferred.step (h : Transferred m addr buf writeIt s)
    (hs : peekPokeStep a addr buf.length writeIt s = .inl s') :
    Transferred m addr buf writeIt s' := by
  unfold peekPokeStep at hs
  split at hs
  · rename_i hlt
    extract_lets word off chunk at hs
    have hoff : off < w / 8 := wordOff_lt a (addr + BitVec.ofNat w s.done)
    have hword : word + BitVec.ofNat w off = addr + BitVec.ofNat w s.done := wordAt_add_off _
    have hchunk : off + chunk ≤ w / 8 ∧ s.done + chunk ≤ buf.length := by omega
    -- the bytes of the chunk are as accessible as the word
    have hinside : Accessible m writeIt (addr + BitVec.ofNat w s.done) →
        ∀ i < s.done + chunk, Accessible m writeIt (addr + BitVec.ofNat w i) := by
      intro hacc i hi
      by_cases hd : i < s.done
      · exact h.inside i hd
      · obtain ⟨t, rfl⟩ : ∃ t, i = s.done + t := ⟨i - s.done, by omega⟩
        rw [← Memory.add_add]
        exact hacc.add a (show off + t < w / 8 by omega)
    split at hs
    · cases hs
    · rename_i cell hpeek
      obtain ⟨hread, hcell⟩ := peekData_some hpeek
      have hbytes : ∀ i < w / 8, (m.byte (word + BitVec.ofNat w i)).isSome := fun i hi =>
        (h.isSome_iff a _).1 (Memory.length_read_eq_iff.1 hread i hi)
      split at hs
      · rename_i hw
        extract_lets bytes at hs
        split at hs
        · cases hs
        · rename_i mem hpoke
          cases hs
          unfold pokeData at hpoke
          split at hpoke
          · rename_i hcan
            have hacc : Accessible m writeIt (addr + BitVec.ofNat w s.done) := fun i hi =>
              ⟨hbytes i hi, fun _ => h.writable_eq ▸ Memory.canWrite_iff.1 hcan i hi⟩
            refine ⟨hchunk.2, hinside hacc, fun hr => absurd hw (by simp [hr]), fun _ => ?_⟩
            rw [← Option.some.inj hpoke]
            exact ⟨h.write hw hword hchunk.1 hchunk.2 hread hcell hcan, (h.writes hw).2⟩
          · cases hpoke
      · rename_i hw
        extract_lets got at hs
        cases hs
        have hacc : Accessible m writeIt (addr + BitVec.ofNat w s.done) := fun i hi =>
          ⟨hbytes i hi, fun hw' => absurd hw' hw⟩
        refine ⟨hchunk.2, hinside hacc, fun hr => ⟨(h.reads hr).1, ?_⟩, fun hw' => absurd hw' hw⟩
        exact h.read hr hword hchunk.1 hread hcell
  · cases hs

end

/-! ## The whole transfer -/

/-- The loop ends with the longest prefix in accessible words transferred. -/
theorem peekPoke_spec (a : Arch w) (m : Memory w) (addr : Word w) (buf : List Byte)
    (writeIt : Bool) :
    ∃ s, (peekPoke a m addr buf writeIt).1 = s ∧ Transferred m addr buf writeIt s ∧
      LongestPrefix m writeIt addr buf.length s.done := by
  obtain ⟨s, hs, hstop⟩ := (peekPokeLoop a addr buf.length writeIt).run_spec
    (I := Transferred m addr buf writeIt) (fun s s' h => h.step) (Transferred.start m addr buf writeIt)
  obtain ⟨heq, hend⟩ := hs.stop hstop
  exact ⟨s, heq, hs, hs.le, hs.inside, hend⟩

theorem toInt_neg_one (a : Arch w) : (-1 : Word w).toInt = -1 := by
  rcases a.bits with rfl | rfl <;> rfl

theorem toInt_ofNat (a : Arch w) {k : Nat} (hk : k < 2 ^ (w - 1)) : (BitVec.ofNat w k).toInt = k := by
  have hhalf : 2 ^ w = 2 * 2 ^ (w - 1) := by
    rcases a.bits with rfl | rfl <;> rfl
  have htoNat : (BitVec.ofNat w k).toNat = k := by
    rw [BitVec.toNat_ofNat, Nat.mod_eq_of_lt (by omega)]
  rw [BitVec.toInt_eq_toNat_of_lt (by omega), htoNat]

/-- The result as a number. -/
theorem toInt_ret (a : Arch w) {k n : Nat} (hk : k < 2 ^ (w - 1)) :
    (if k = 0 ∧ n > 0 then -1 else BitVec.ofNat w k : Word w).toInt =
      if k = 0 ∧ n > 0 then -1 else (k : Int) := by
  split
  · exact toInt_neg_one a
  · exact toInt_ofNat a hk

/-- **Word-wise access is byte-exact.** For every alignment, length, byte order and word size:
`peek_poke` transfers the longest prefix of its range that lies in accessible words and returns its
length, or -1 if there is none of a range that is not empty. A read delivers these bytes and leaves
the memory, a write changes these bytes and no other. -/
theorem peek_poke_exact (a : Arch w) (m : Memory w) (addr : Word w) (buf : List Byte)
    (writeIt : Bool) (hwrap : addr.toNat + buf.length ≤ 2 ^ w) :
    ∃ k, LongestPrefix m writeIt addr buf.length k ∧
      (peekPoke a m addr buf writeIt).2 =
        (if k = 0 ∧ buf.length > 0 then -1 else BitVec.ofNat w k) ∧
      (k < 2 ^ (w - 1) → (peekPoke a m addr buf writeIt).2.toInt =
        if k = 0 ∧ buf.length > 0 then -1 else (k : Int)) ∧
      (writeIt = false →
        (peekPoke a m addr buf writeIt).1.mem = m ∧
        ∀ i, (peekPoke a m addr buf writeIt).1.buf[i]? =
          if i < k then m.byte (addr + BitVec.ofNat w i) else buf[i]?) ∧
      (writeIt = true →
        (peekPoke a m addr buf writeIt).1.buf = buf ∧
        (∀ i < k, (peekPoke a m addr buf writeIt).1.mem.byte (addr + BitVec.ofNat w i) = buf[i]?) ∧
        (∀ x, (∀ i < k, x ≠ addr + BitVec.ofNat w i) →
          (peekPoke a m addr buf writeIt).1.mem.byte x = m.byte x) ∧
        (peekPoke a m addr buf writeIt).1.mem.writable = m.writable) := by
  obtain ⟨s, heq, hs, hlong⟩ := peekPoke_spec a m addr buf writeIt
  have hret : (peekPoke a m addr buf writeIt).2 =
      if s.done = 0 ∧ buf.length > 0 then -1 else BitVec.ofNat w s.done := by
    rw [← heq]
    rfl
  refine ⟨s.done, hlong, hret, fun hk => ?_, fun hr => ?_, fun hw => ?_⟩
  · rw [hret, toInt_ret a hk]
  all_goals rw [heq]
  · obtain ⟨hmem, hbuf⟩ := hs.reads hr
    have hlen := hs.length_read a
    refine ⟨hmem, fun i => ?_⟩
    rw [hbuf]
    split
    · rename_i hi
      rw [List.getElem?_append_left (by omega), Memory.getElem?_read hlen hi]
    · rw [List.getElem?_append_right (by omega), hlen, List.getElem?_drop]
      congr 1
      omega
  · obtain ⟨hmem, hbuf⟩ := hs.writes hw
    have hle := hs.le
    have hlen : (buf.take s.done).length = s.done := List.length_take_of_le hle
    refine ⟨hbuf, fun i hi => ?_, fun x hx => ?_, hs.writable_eq⟩
    · have hcan : m.canWrite addr (i + 1) = true := Memory.canWrite_iff.2 fun j hj =>
        ((hs.inside j (by omega)).byte a).2 hw
      rw [hmem, Memory.write_byte_self hcan (by omega) (by omega), ← List.getElem?_eq_getElem,
        List.getElem?_take_of_lt hi]
    · rw [hmem, Memory.write_byte_other]
      rwa [hlen]

/-- Sevens, mapped up to the address 4112. -/
def mappedTo4112 : Memory 64 where
  byte := fun x => if x.toNat < 4112 then some 7 else none
  writable := fun x => x.toNat < 4112

/-- Twenty bytes written from within a word to beyond the end: thirteen of them, and the byte in
front of them stays. -/
theorem peek_poke_exact_edge :
    ∃ k, LongestPrefix mappedTo4112 true 4099 20 k ∧
      (peekPoke x86_64 mappedTo4112 4099 (List.replicate 20 1) true).2 = 13 ∧
      (peekPoke x86_64 mappedTo4112 4099 (List.replicate 20 1) true).1.mem.byte 4098 = some 7 := by
  obtain ⟨k, hk, -, -, -, hw⟩ :=
    peek_poke_exact x86_64 mappedTo4112 4099 (List.replicate 20 1) true (by decide)
  have hle : k ≤ 20 := hk.le
  refine ⟨k, hk, by decide +kernel, ((hw rfl).2.2.1 4098 fun i hi he => ?_).trans (by decide)⟩
  have hnat := congrArg BitVec.toNat he
  rw [BitVec.toNat_add, BitVec.toNat_ofNat] at hnat
  have h8 : (4098 : Word 64).toNat = 4098 := rfl
  have h9 : (4099 : Word 64).toNat = 4099 := rfl
  omega

/-! ## Whole words -/

/-- The bytes of a word are alike: all or none of them can be read, and all or none written, where
they can be read. -/
structure WholeWords (m : Memory w) : Prop where
  byte : ∀ x, (m.byte x).isSome → ∀ i < w / 8, (m.byte (wordAt x + BitVec.ofNat w i)).isSome
  writable : ∀ x, m.writable x = true → (m.byte x).isSome ∧
    ∀ i < w / 8, m.writable (wordAt x + BitVec.ofNat w i) = true

theorem WholeWords.accessible (h : WholeWords m) (hr : (m.byte x).isSome)
    (hw : writeIt = true → m.writable x = true) : Accessible m writeIt x := fun i hi =>
  ⟨h.byte x hr i hi, fun hw' => (h.writable x (hw hw')).2 i hi⟩

/-- In memory of whole words a read by `peek_poke` is `guestRead`. -/
theorem peekPoke_guestRead (a : Arch w) {m : GuestMem w} (h : WholeWords m.toMemory) (addr : Word w)
    (buf : List Byte) :
    (peekPoke a m.toMemory addr buf false).1.buf =
      guestRead m addr buf.length ++ buf.drop (guestRead m addr buf.length).length := by
  obtain ⟨s, heq, hs, hlong⟩ := peekPoke_spec a m.toMemory addr buf false
  have hlen := hs.length_read a
  have hall : m.read addr buf.length = m.read addr s.done := by
    obtain hlt | hge := Nat.lt_or_ge s.done buf.length
    · have hnone : m.byte (addr + BitVec.ofNat w s.done) = none := by
        by_contra hne
        exact hlong.stop hlt (h.accessible (Option.isSome_iff_ne_none.2 hne) nofun)
      have hrest := Memory.read_split hlen (buf.length - s.done)
      rw [Nat.add_sub_cancel' hlong.le] at hrest
      rw [hrest, (Memory.read_eq_nil (by omega)).2 hnone, List.append_nil]
    · rw [Nat.le_antisymm hlong.le hge]
  rw [heq, (hs.reads rfl).2, guestRead, hall, hlen]

/-- In memory of whole words a write by `peek_poke` is `guestWrite`. -/
theorem peekPoke_guestWrite (a : Arch w) {m : GuestMem w} (h : WholeWords m.toMemory)
    (addr : Word w) {buf : List Byte} (hlen : buf.length < 2 ^ (w - 1)) :
    guestWrite m addr buf =
      ({ m with toMemory := (peekPoke a m.toMemory addr buf true).1.mem },
        (peekPoke a m.toMemory addr buf true).2 == BitVec.ofNat w buf.length) := by
  obtain ⟨s, heq, hs, hlong⟩ := peekPoke_spec a m.toMemory addr buf true
  have hret : (peekPoke a m.toMemory addr buf true).2 =
      if s.done = 0 ∧ buf.length > 0 then -1 else BitVec.ofNat w s.done := by
    rw [← heq]
    rfl
  have hcan : m.canWrite addr s.done = true := Memory.canWrite_iff.2 fun i hi =>
    ((hs.inside i hi).byte a).2 rfl
  have hstop : s.done < buf.length → m.writable (addr + BitVec.ofNat w s.done) = false := by
    intro hlt
    by_contra hne
    have hw : m.writable (addr + BitVec.ofNat w s.done) = true := by simpa using hne
    exact hlong.stop hlt (h.accessible (h.writable _ hw).1 fun _ => hw)
  have hmem : (peekPoke a m.toMemory addr buf true).1.mem = m.write addr buf := by
    rw [heq, (hs.writes rfl).1, Memory.write_take hlong.le hcan hstop]
  have hok : m.canWrite addr buf.length =
      ((peekPoke a m.toMemory addr buf true).2 == BitVec.ofNat w buf.length) := by
    rw [hret]
    obtain hlt | hge := Nat.lt_or_ge s.done buf.length
    · have hcannot : m.canWrite addr buf.length = false := by
        by_contra hne
        have hw := Memory.canWrite_iff.1 (by simpa using hne) s.done hlt
        rw [hstop hlt] at hw
        cases hw
      rw [hcannot, eq_comm, beq_eq_false_iff_ne]
      intro he
      have hint := congrArg BitVec.toInt he
      rw [toInt_ret a (by omega), toInt_ofNat a hlen] at hint
      split at hint <;> omega
    · obtain heq' : s.done = buf.length := Nat.le_antisymm hlong.le hge
      rw [heq'] at hcan ⊢
      rw [hcan, if_neg (by omega), beq_self_eq_true]
  rw [guestWrite, hmem, hok]

end Emuroot
