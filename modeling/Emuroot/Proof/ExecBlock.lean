import Emuroot.Lib.Vectors
import Emuroot.Proof.EntryFrame

/-!
# The block of an execve

`placeBlock` puts a path and an argument vector into the guest (`placeBlock_placed`): the path
register points to the path, the vector's entries are the guest's own pointers or point to the
made-up strings. Nothing off the block changes (`placeBlock_byte`). `readArgv_eq` is the other way,
the vector as it is read.
-/

namespace Emuroot

variable {w : Nat} {σ : Type} {P : Platform w σ} {s : St w σ} {m : GuestMem w} {args : List (EArg w)}
  {base : Word w} {host : CStr}

theorem Arch.width (A : Arch w) : 2 ^ w ≤ 256 ^ wordBytes w ∧ 0 < wordBytes w := by
  rcases A.bits with rfl | rfl <;> decide

theorem Arch.wordBytes_le (A : Arch w) : wordBytes w ≤ 8 := by
  rcases A.bits with rfl | rfl <;> decide

/-! ## Reading the guest's vector -/

theorem readArgv_eq (A : Arch w) {big : Bool} {a : Word w} {ps : List (Word w)}
    (h : m.HoldsVector big (wordBytes w) a ps) (n : Nat) :
    readArgv m big a n = (ps.take n).map .ptr := by
  have hword : ∀ {a : Word w} {p : Word w},
      m.read a (wordBytes w) = toBytes big (wordBytes w) p.toNat →
      (guestRead m a (wordBytes w)).length = wordBytes w ∧
        BitVec.ofNat w (ofBytes big (guestRead m a (wordBytes w))) = p := by
    intro a p hr
    have hp : p.toNat < 256 ^ wordBytes w := Nat.lt_of_lt_of_le p.isLt A.width.1
    rw [guestRead, hr, ofBytes_toBytes big hp, BitVec.ofNat_toNat, BitVec.setWidth_eq]
    exact ⟨length_toBytes .., rfl⟩
  induction ps generalizing a n with
  | nil =>
    cases n with
    | zero => rfl
    | succ n =>
      have hr := hword (p := 0) h
      simp [readArgv, hr.2]
  | cons p ps ih =>
    cases n with
    | zero => rfl
    | succ n =>
      obtain ⟨hp, hr, hps⟩ := h
      simp only [readArgv, (hword hr).1, (hword hr).2, ne_eq, not_true_eq_false, hp, or_self,
        if_false, ih hps, List.take_succ_cons, List.map_cons]

/-! ## The layout -/

/-- What an entry of the vector is, at the address. -/
def EntryAt (m : GuestMem w) (p : Word w) : EArg w → Prop
  | .str x => m.HoldsString p x
  | .ptr q => p = q

/-- The strings lie one behind the other from `off` on. -/
theorem entryPtrs_at {off : Nat} (h0 : ∀ x, EArg.str x ∈ args → 0 ∉ x)
    (h : m.read (base + BitVec.ofNat w off) (args.flatMap EArg.text).length =
      args.flatMap EArg.text) :
    List.Forall₂ (EntryAt m) (entryPtrs base off args) args := by
  induction args generalizing off with
  | nil => exact .nil
  | cons e args ih =>
    have hrest : ∀ x, EArg.str x ∈ args → 0 ∉ x := fun x hx => h0 x (List.mem_cons_of_mem _ hx)
    cases e with
    | ptr q => exact .cons rfl (ih hrest h)
    | str x =>
      rw [List.flatMap_cons] at h
      have hx := Memory.read_mid [] (EArg.text (.str x : EArg w)) _ (by rwa [List.nil_append])
      have hargs := Memory.read_mid (EArg.text (.str x : EArg w)) _ [] (by rwa [List.append_nil])
      simp only [EArg.text, List.length_append, List.length_singleton, List.length_nil,
        BitVec.add_zero] at hx hargs
      rw [BitVec.add_assoc, ← BitVec.ofNat_add, ← Nat.add_assoc] at hargs
      exact .cons ⟨h0 x List.mem_cons_self, hx⟩ (ih hrest hargs)

/-- No entry is null if the strings' addresses are not. -/
theorem entryPtrs_ne_zero {off : Nat} (hp : ∀ q, EArg.ptr q ∈ args → q ≠ 0)
    (hb : ∀ i < off + (args.flatMap EArg.text).length, base + BitVec.ofNat w i ≠ 0) :
    ∀ p ∈ entryPtrs base off args, p ≠ 0 := by
  induction args generalizing off with
  | nil => simp [entryPtrs]
  | cons e args ih =>
    have hrest : ∀ q, EArg.ptr q ∈ args → q ≠ 0 := fun q hq => hp q (List.mem_cons_of_mem _ hq)
    intro p hm
    cases e with
    | ptr q =>
      rcases List.mem_cons.1 hm with rfl | hm
      · exact hp p List.mem_cons_self
      · exact ih hrest hb p hm
    | str x =>
      simp only [List.flatMap_cons, EArg.text, List.length_append, List.length_singleton] at hb
      rcases List.mem_cons.1 hm with rfl | hm
      · exact hb off (by omega)
      · exact ih hrest (fun i hi => hb i (by omega)) p hm

theorem length_entryPtrs (off : Nat) : (entryPtrs base off args).length = args.length := by
  induction args generalizing off with
  | nil => rfl
  | cons e args ih => cases e <;> simp [entryPtrs, ih]

theorem length_vector (big : Bool) (k : Nat) (ps : List (Word w)) :
    (ps.flatMap fun p : Word w => toBytes big k p.toNat).length = ps.length * k := by
  induction ps with
  | nil => simp
  | cons p ps ih =>
    rw [List.flatMap_cons, List.length_append, ih, length_toBytes, List.length_cons,
      Nat.succ_mul, Nat.add_comm]

theorem length_blockText : (blockText host args).length =
    host.length + 1 + (args.flatMap EArg.text).length +
      (16 - (host.length + 1 + (args.flatMap EArg.text).length) % 16) % 16 := by
  simp only [blockText, List.length_append, List.length_singleton, List.length_replicate]

theorem length_execBlock_le (big : Bool) (base : Word w) (host : CStr) (args : List (EArg w)) :
    (execBlock big base host args).length ≤ blockRoom host args := by
  have hpad := Nat.mod_lt (16 - (host.length + 1 + (args.flatMap EArg.text).length) % 16)
    (by decide : 16 > 0)
  rw [execBlock, List.length_append, length_vector, length_blockText, List.length_append,
    length_entryPtrs, List.length_singleton, blockRoom]
  omega

/-- What can be read in a block that lies in memory. -/
theorem execBlock_read {big : Bool} (h0 : 0 ∉ host) (hs : ∀ x, EArg.str x ∈ args → 0 ∉ x)
    (hp : ∀ q, EArg.ptr q ∈ args → q ≠ 0)
    (hb : ∀ i < blockRoom host args, base + BitVec.ofNat w i ≠ 0)
    (h : m.read base (execBlock big base host args).length = execBlock big base host args) :
    m.HoldsString base host ∧ ∃ ptrs : List (Word w), List.Forall₂ (EntryAt m) ptrs args ∧
      m.HoldsVector big (wordBytes w) (base + BitVec.ofNat w (blockText host args).length) ptrs := by
  have hroom : host.length + 1 + (args.flatMap EArg.text).length ≤ blockRoom host args := by
    rw [blockRoom]
    omega
  have hhost := Memory.read_mid [] (host ++ [0])
    (args.flatMap EArg.text ++
      (List.replicate ((16 - (host ++ [0] ++ args.flatMap EArg.text).length % 16) % 16) 0 ++
        (entryPtrs base (host.length + 1) args ++ [0]).flatMap fun p : Word w =>
          toBytes big (wordBytes w) p.toNat))
    (by simpa [execBlock, blockText, List.append_assoc] using h)
  have htext := Memory.read_mid (host ++ [0]) (args.flatMap EArg.text)
    (List.replicate ((16 - (host ++ [0] ++ args.flatMap EArg.text).length % 16) % 16) 0 ++
      (entryPtrs base (host.length + 1) args ++ [0]).flatMap fun p : Word w =>
        toBytes big (wordBytes w) p.toNat)
    (by simpa [execBlock, blockText, List.append_assoc] using h)
  have hvec := Memory.read_mid (blockText host args)
    ((entryPtrs base (host.length + 1) args ++ [0]).flatMap fun p : Word w =>
      toBytes big (wordBytes w) p.toNat) []
    (by simpa [execBlock] using h)
  refine ⟨⟨h0, ?_⟩, entryPtrs base (host.length + 1) args, ?_, ?_⟩
  · simpa using hhost
  · apply entryPtrs_at hs
    simpa using htext
  · apply Memory.holdsVector_of_read
    · exact entryPtrs_ne_zero hp fun i hi => hb i (by omega)
    · exact hvec

/-! ## The block in the guest -/

/-- The outcome of a block that could be placed. -/
theorem placeBlock_done {pathSlot argvSlot : Nat}
    (h : (placeBlock P s pathSlot argvSlot host args).2 = 1) :
    let base := (scratch s (blockRoom host args)).1
    let block := execBlock P.arch.bigEndian base host args
    base ≠ 0 ∧ s.mem.canWrite base block.length = true ∧
      (placeBlock P s pathSlot argvSlot host args).1 =
        ((({ (scratch s (blockRoom host args)).2 with
            mem := (guestWrite s.mem base block).1 }).setArg P pathSlot base).setArg P argvSlot
          (base + BitVec.ofNat w (blockText host args).length)) := by
  have hm := scratch_mem s (blockRoom host args)
  unfold placeBlock at h ⊢
  dsimp only at h ⊢
  by_cases hc : (P.calloc s.fs (blockRoom host args) && P.calloc s.fs (args.length + 1)) = true
  · rw [if_pos hc] at h ⊢
    by_cases hz : (scratch s (blockRoom host args)).1 = 0
    · rw [if_pos hz] at h
      cases h
    · rw [if_neg hz] at h ⊢
      rw [hm] at h ⊢
      cases hw : s.mem.canWrite (scratch s (blockRoom host args)).1
          (execBlock P.arch.bigEndian (scratch s (blockRoom host args)).1 host args).length with
      | false => simp [guestWrite, hw] at h
      | true =>
        simp only [guestWrite, hw, if_true, and_true]
        exact hz
  · rw [if_neg hc, if_pos rfl] at h
    cases h

theorem placeBlock_result (pathSlot argvSlot : Nat) :
    (placeBlock P s pathSlot argvSlot host args).2 = 1 ∨
      (placeBlock P s pathSlot argvSlot host args).2 = -1 ∧
        (placeBlock P s pathSlot argvSlot host args).1.arg P pathSlot = 0 := by
  unfold placeBlock
  dsimp only
  generalize (if P.calloc s.fs (blockRoom host args) && P.calloc s.fs (args.length + 1) then
    scratch s (blockRoom host args) else (0, s)) = q
  split
  · exact .inr ⟨rfl, Regs.put_self ..⟩
  · split
    · exact .inl rfl
    · exact .inr ⟨rfl, Regs.put_self ..⟩

/-- A block is placed where there is room for it. -/
theorem placeBlock_succeeds (hcalloc : ∀ n, P.calloc s.fs n = true)
    (hw : ∀ a n, s.mem.canWrite a n = true)
    (htop : blockRoom host args + 16 ≤ s.t.scratchTop.toNat) (pathSlot argvSlot : Nat) :
    (placeBlock P s pathSlot argvSlot host args).2 = 1 := by
  have hbase := scratch_ne_zero htop
  unfold placeBlock
  dsimp only
  rw [hcalloc, hcalloc, Bool.and_self, if_pos rfl, if_neg hbase, scratch_mem]
  simp only [guestWrite, hw, if_true]

theorem placeBlock_ne_zero (s : St w σ) (host : CStr) (args : List (EArg w))
    (pathSlot argvSlot : Nat) : (placeBlock P s pathSlot argvSlot host args).2 ≠ 0 := by
  intro h
  rcases placeBlock_result (P := P) (s := s) pathSlot argvSlot with h1 | ⟨h1, -⟩
  · exact absurd (h1.symm.trans h) (by decide)
  · exact absurd (h1.symm.trans h) (by decide)

/-- The registers and the memory behind a block that was placed. -/
theorem placeBlock_regs (h : (placeBlock P s 1 2 host args).2 = 1) :
    let base := (scratch s (blockRoom host args)).1
    let u := (placeBlock P s 1 2 host args).1
    u.arg P 1 = base ∧ u.arg P 2 = base + BitVec.ofNat w (blockText host args).length ∧
      u.mem = (guestWrite s.mem base (execBlock P.arch.bigEndian base host args)).1 := by
  obtain ⟨-, -, hu⟩ := placeBlock_done h
  have hne : P.arch.regArg 1 ≠ P.arch.regArg 2 := by
    have := P.arch.apart
    simp only [List.nodup_cons, List.mem_cons, not_or] at this
    exact this.1.1
  dsimp only
  rw [hu]
  exact ⟨(Regs.put_of_ne _ _ hne).trans (Regs.put_self ..), Regs.put_self .., rfl⟩

/-- **A block that was placed is there**, with the registers pointing to it. -/
theorem placeBlock_placed (h0 : 0 ∉ host) (hs : ∀ x, EArg.str x ∈ args → 0 ∉ x)
    (hp : ∀ q, EArg.ptr q ∈ args → q ≠ 0) (hroom : blockRoom host args + 16 ≤ 2 ^ w)
    (h : (placeBlock P s 1 2 host args).2 = 1) :
    let u := (placeBlock P s 1 2 host args).1
    u.mem.HoldsString (u.arg P 1) host ∧ ∃ ptrs : List (Word w),
      List.Forall₂ (EntryAt u.mem) ptrs args ∧
      u.mem.HoldsVector P.arch.bigEndian (wordBytes w) (u.arg P 2) ptrs := by
  obtain ⟨hbase, hw, -⟩ := placeBlock_done h
  obtain ⟨harg1, harg2, hmem⟩ := placeBlock_regs h
  have hlen := length_execBlock_le P.arch.bigEndian (scratch s (blockRoom host args)).1 host args
  dsimp only
  rw [harg1, harg2, hmem]
  apply execBlock_read h0 hs hp
  · intro i hi h0
    obtain ⟨hpos, -, -, heq⟩ := scratch_within hbase hroom hi
    rw [h0, show (0 : Word w).toNat = 0 from BitVec.toNat_zero] at heq
    omega
  · exact Memory.read_write_self hw (by omega)

/-- Where the block lies. -/
theorem placeBlock_top {pathSlot argvSlot : Nat}
    (h : (placeBlock P s pathSlot argvSlot host args).2 = 1) :
    (placeBlock P s pathSlot argvSlot host args).1.t.scratchTop =
      (scratch s (blockRoom host args)).1 := by
  obtain ⟨hbase, -, hu⟩ := placeBlock_done h
  rw [hu]
  show (scratch s (blockRoom host args)).2.t.scratchTop = _
  unfold scratch at hbase ⊢
  dsimp only at hbase ⊢
  split
  · rename_i htop
    rw [if_pos htop] at hbase
    exact (hbase rfl).elim
  · rfl

/-- **Nothing off the block changes**: it lies between the old and the new top of scratch. -/
theorem placeBlock_byte {pathSlot argvSlot : Nat} {a : Word w}
    (hroom : blockRoom host args + 16 ≤ 2 ^ w)
    (h : (placeBlock P s pathSlot argvSlot host args).2 = 1)
    (ha : a < (placeBlock P s pathSlot argvSlot host args).1.t.scratchTop ∨ s.t.scratchTop ≤ a) :
    (placeBlock P s pathSlot argvSlot host args).1.mem.byte a = s.mem.byte a := by
  obtain ⟨hbase, -, hu⟩ := placeBlock_done h
  rw [placeBlock_top h] at ha
  rw [hu]
  apply Memory.write_byte_other
  rintro i hi rfl
  obtain ⟨-, hlt, -, heq⟩ := scratch_within hbase hroom
    (Nat.lt_of_lt_of_le hi (length_execBlock_le ..))
  rw [BitVec.lt_def, BitVec.le_def, heq] at ha
  omega

/-- The vector's address is one in the block. -/
theorem placeBlock_argv {pathSlot argvSlot : Nat} (hroom : blockRoom host args + 16 ≤ 2 ^ w)
    (h : (placeBlock P s pathSlot argvSlot host args).2 = 1) :
    let a := (placeBlock P s pathSlot argvSlot host args).1.arg P argvSlot
    a < s.t.scratchTop ∧ s.t.scratchTop.toNat < a.toNat + blockRoom host args + 16 := by
  obtain ⟨hbase, -, hu⟩ := placeBlock_done h
  have ha : (placeBlock P s pathSlot argvSlot host args).1.arg P argvSlot =
      (scratch s (blockRoom host args)).1 + BitVec.ofNat w (blockText host args).length := by
    rw [hu]
    exact Regs.put_self ..
  have hlt : (blockText host args).length < blockRoom host args := by
    have hpad := Nat.mod_lt (16 - (host.length + 1 + (args.flatMap EArg.text).length) % 16)
      (by decide : 16 > 0)
    rw [length_blockText, blockRoom]
    omega
  obtain ⟨-, hbelow, habove, heq⟩ := scratch_within hbase hroom hlt
  dsimp only
  rw [ha, BitVec.lt_def, heq]
  omega

end Emuroot
