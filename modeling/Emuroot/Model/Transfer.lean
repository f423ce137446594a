import Emuroot.Lib.Align
import Emuroot.Model.Creds
import Emuroot.Model.Guest

/-!
# The ways into the traced process's memory (`guest.c`)

`guest_read` goes by `process_vm_readv`, by `/proc/PID/mem` or word by word with `PTRACE_PEEKDATA`,
and from a way that is not permitted to the next. `transferRead_eq`: by every way it reads the
longest prefix that can be read, as `guestRead` has it.
-/

namespace Emuroot

variable {w : Nat}

/-- `enum method` -/
inductive Method
  | processVm | procMem | peekPoke
  deriving DecidableEq

/-- What the kernel answers the tracer: `process_vm_readv`, a `pread` of `/proc/PID/mem`, and
`PTRACE_PEEKDATA` of a word, by its bytes; or the `errno`. -/
structure Ways (w : Nat) where
  processVm : Word w → Nat → Except Int (List Byte)
  procMem : Word w → Nat → Except Int (List Byte)
  peek : Word w → Except Int (Nat → Byte)

def ESRCH : Int := 3
def EIO : Int := 5

/-- Errors that mean "not this way", as opposed to "no such memory". -/
def denied (err : Int) : Bool := err != EFAULT && err != ESRCH && err != EIO && err != EINVAL

/-- The bits of an address within its word. -/
def wordMask (w : Nat) : Word w := BitVec.ofNat w (w / 8 - 1)

/-- A word of `peek_poke`; `done` is what was read so far. -/
def peekStep (A : Ways w) (addr : Word w) (len : Nat) (done : List Byte) :
    List Byte ⊕ List Byte :=
  if done.length < len then
    let word := (addr + BitVec.ofNat w done.length) &&& ~~~wordMask w
    let off := (addr + BitVec.ofNat w done.length - word).toNat
    let chunk := min (w / 8 - off) (len - done.length)
    match A.peek word with
    | .error _ => .inr done
    | .ok cell => .inl (done ++ (List.range chunk).map fun i => cell (off + i))
  else .inr done

/-- The place of an address in its word. -/
theorem word_off_lt (a : Arch w) (x : Word w) : (x - (x &&& ~~~wordMask w)).toNat < w / 8 := by
  have hw : 0 < w / 8 := by
    rcases a.bits with rfl | rfl <;> decide
  have hmask : (wordMask w).toNat ≤ w / 8 - 1 := by
    rw [wordMask, BitVec.toNat_ofNat]
    exact Nat.mod_le _ _
  rw [Align.sub_and_not, BitVec.toNat_and]
  have hle := Nat.and_le_right (n := x.toNat) (m := (wordMask w).toNat)
  omega

theorem peekStep_decreases (a : Arch w) {A : Ways w} {addr : Word w} {len : Nat}
    {done done' : List Byte} (h : peekStep A addr len done = .inl done') :
    len - done'.length < len - done.length := by
  unfold peekStep at h
  split at h
  · rename_i hlt
    extract_lets word off chunk at h
    have hoff : off < w / 8 := word_off_lt a _
    split at h
    · cases h
    · cases h
      rw [List.length_append, List.length_map, List.length_range]
      omega
  · cases h

section
variable (a : Arch w) (A : Ways w)

/-- `peek_poke` for a read: what was read up to the first word that cannot be. -/
def peekRead (addr : Word w) (len : Nat) : List Byte :=
  Loop.run
    { step := peekStep A addr len
      measure := fun done => len - done.length
      decreases := peekStep_decreases a } []

/-- The way's answer, unless it is not permitted. -/
def attempt (m : Method) (r : Except Int (List Byte)) (next : Method × List Byte) :
    Method × List Byte :=
  match r with
  | .ok bs => (m, bs)
  | .error e => if denied e then next else (m, [])

/-- `transfer` for a read, with the method from then on; `-1` is no bytes. -/
def transferRead (m : Method) (addr : Word w) (len : Nat) : Method × List Byte :=
  let peek := (Method.peekPoke, peekRead a A addr len)
  let proc := attempt .procMem (A.procMem addr len) peek
  match m with
  | .processVm => attempt .processVm (A.processVm addr len) proc
  | .procMem => proc
  | .peekPoke => peek

/-- A chunk of `guest_read_str`, by whatever way. -/
def readStrByStep (addr : Word w) (size : Nat) (s : Method × List Byte) :
    Method × List Byte ⊕ Method × Option CStr :=
  let (m, buf) := s
  if buf.length + 1 < size then
    let want := min (size - 1 - buf.length) 128
    let (m, got) := transferRead a A m (addr + BitVec.ofNat w buf.length) want
    if got = [] then .inr (m, if buf = [] then none else some (cStrOf buf))
    else if 0 ∈ got then .inr (m, some (cStrOf (buf ++ got)))
    else if got.length < want then .inr (m, some (cStrOf (buf ++ got)))
    else .inl (m, buf ++ got)
  else .inr (m, if buf = [] then none else some (cStrOf buf))

theorem readStrByStep_decreases {addr : Word w} {size : Nat} {s s' : Method × List Byte}
    (h : readStrByStep a A addr size s = .inl s') : size - s'.2.length < size - s.2.length := by
  unfold readStrByStep at h
  dsimp only at h
  split at h
  · split at h
    · cases h
    · rename_i hne
      have hpos := List.length_pos_iff.2 hne
      split at h
      · cases h
      · split at h
        · cases h
        · cases h
          rw [List.length_append]
          omega
  · cases h

/-- `guest_read_str` with a method in use, and the method from then on; `none` is `-1`. -/
def guestReadStrBy (m : Method) (addr : Word w) (size : Nat) : Method × Option CStr :=
  Loop.run
    { step := readStrByStep a A addr size
      measure := fun s => size - s.2.length
      decreases := readStrByStep_decreases a A } (m, [])

end

/-! ## What the ways read -/

/-- A transfer is not permitted, or delivers the longest prefix that can be read. -/
def Delivers (m : Memory w) (addr : Word w) (len : Nat) (r : Except Int (List Byte)) : Prop :=
  match r with
  | .ok bs => bs = m.read addr len
  | .error e => denied e = true ∨ m.read addr len = []

/-- The kernel gives access to the memory: to the longest prefix that can be read, and to words
that can be read, of which no byte can be where the word cannot. -/
structure Serves (A : Ways w) (m : Memory w) : Prop where
  processVm : ∀ addr len, Delivers m addr len (A.processVm addr len)
  procMem : ∀ addr len, Delivers m addr len (A.procMem addr len)
  peek : ∀ word, word &&& wordMask w = 0 →
    match A.peek word with
    | .ok cell => ∀ i < w / 8, m.byte (word + BitVec.ofNat w i) = some (cell i)
    | .error _ => ∀ i < w / 8, m.byte (word + BitVec.ofNat w i) = none

variable {a : Arch w} {A : Ways w} {m : Memory w} {addr : Word w}

/-- An address is its word and its place in it. -/
theorem word_add_off (x : Word w) :
    (x &&& ~~~wordMask w) + BitVec.ofNat w (x - (x &&& ~~~wordMask w)).toNat = x := by
  rw [BitVec.ofNat_toNat, BitVec.setWidth_eq, BitVec.add_comm, BitVec.sub_add_cancel]

/-- **`peek_poke` reads** the longest prefix that can be read. -/
theorem peekRead_eq (a : Arch w) (hA : Serves A m) (addr : Word w) (len : Nat) :
    peekRead a A addr len = m.read addr len := by
  let L : Loop (List Byte) (List Byte) :=
    { step := peekStep A addr len
      measure := fun done => len - done.length
      decreases := peekStep_decreases a }
  let I : List Byte → Prop := fun done => done.length ≤ len ∧ m.read addr done.length = done
  -- the bytes of the word at which the loop is
  have hbyte : ∀ (x : Word w) (i : Nat), x + BitVec.ofNat w i =
      (x &&& ~~~wordMask w) + BitVec.ofNat w ((x - (x &&& ~~~wordMask w)).toNat + i) := by
    intro x i
    rw [BitVec.ofNat_add, ← BitVec.add_assoc, word_add_off]
  have haligned : ∀ x : Word w, (x &&& ~~~wordMask w) &&& wordMask w = 0 := by
    intro x
    ext i hi
    cases h : (wordMask w)[i] <;> simp [h]
  have hI : ∀ done done', I done → L.step done = .inl done' → I done' := by
    rintro done done' ⟨hlen, hread⟩ hs
    change peekStep A addr len done = _ at hs
    unfold peekStep at hs
    split at hs
    · extract_lets word off chunk at hs
      have hpeek := hA.peek word (haligned _)
      have hoff : off < w / 8 := word_off_lt a _
      split at hs
      · cases hs
      · rename_i cell hcell
        rw [hcell] at hpeek
        cases hs
        show _ ≤ len ∧ m.read addr _ = _
        rw [List.length_append, List.length_map, List.length_range, Memory.read_add hread]
        refine ⟨by omega, congrArg (done ++ ·) ?_⟩
        have hcells : m.read (addr + BitVec.ofNat w done.length)
            ((List.range chunk).map fun i => cell (off + i)).length =
              (List.range chunk).map fun i => cell (off + i) := by
          apply Memory.read_eq
          intro i hi
          rw [List.length_map, List.length_range] at hi
          rw [List.getElem_map, List.getElem_range, hbyte]
          exact hpeek (off + i) (by omega)
        rwa [List.length_map, List.length_range] at hcells
    · cases hs
  obtain ⟨done, ⟨hlen, hread⟩, hs⟩ := L.run_spec hI (s := []) ⟨Nat.zero_le _, rfl⟩
  change peekStep A addr len done = .inr (peekRead a A addr len) at hs
  have hall := Memory.read_add hread (len - done.length)
  rw [Nat.add_sub_cancel' hlen] at hall
  unfold peekStep at hs
  split at hs
  · rename_i hlt
    extract_lets word off chunk at hs
    have hpeek := hA.peek word (haligned _)
    have hoff : off < w / 8 := word_off_lt a _
    split at hs
    · rename_i e he
      rw [he] at hpeek
      have hnone : m.byte (addr + BitVec.ofNat w done.length) = none := by
        rw [← word_add_off (addr + BitVec.ofNat w done.length)]
        exact hpeek off hoff
      rw [hall, (Memory.read_eq_nil (by omega)).2 hnone, List.append_nil]
      exact (Sum.inr.inj hs).symm
    · cases hs
  · have hend : len - done.length = 0 := by omega
    rw [hall, hend, Memory.read, List.append_nil]
    exact (Sum.inr.inj hs).symm

theorem attempt_eq {method : Method} {addr : Word w} {len : Nat} {r : Except Int (List Byte)}
    {next : Method × List Byte} (h : Delivers m addr len r) (hn : next.2 = m.read addr len) :
    (attempt method r next).2 = m.read addr len := by
  cases r with
  | ok bs => exact h
  | error e =>
    unfold attempt
    dsimp only
    cases hd : denied e with
    | true => exact hn
    | false =>
      have hnil := h.resolve_left (by simp [hd])
      exact hnil.symm

/-- **Every way reads the same**, whichever is in use. -/
theorem transferRead_eq (hA : Serves A m) (method : Method) (addr : Word w) (len : Nat) :
    (transferRead a A method addr len).2 = m.read addr len := by
  have hpeek : (Method.peekPoke, peekRead a A addr len).2 = m.read addr len :=
    peekRead_eq a hA addr len
  have hproc : (attempt .procMem (A.procMem addr len) (.peekPoke, peekRead a A addr len)).2 =
      m.read addr len := attempt_eq (hA.procMem addr len) hpeek
  cases method with
  | processVm => exact attempt_eq (hA.processVm addr len) hproc
  | procMem => exact hproc
  | peekPoke => exact hpeek

/-- **The strings are the same**, whichever way is in use and what others it is given up for. -/
theorem guestReadStrBy_eq {m : GuestMem w} (hA : Serves A m.toMemory) (method : Method)
    (addr : Word w) (size : Nat) :
    (guestReadStrBy a A method addr size).2 = guestReadStr m addr size := by
  let L : Loop (List Byte) (Option CStr) :=
    { step := readStrStep m addr size
      measure := fun buf => size - buf.length
      decreases := readStrStep_decreases }
  refine (Loop.run_map (L := L) (f := Prod.snd) (g := Prod.snd) (fun s => ?_) (method, [])).symm
  obtain ⟨k, buf⟩ := s
  have hgot := transferRead_eq (a := a) hA k (addr + BitVec.ofNat w buf.length)
    (min (size - 1 - buf.length) 128)
  show readStrStep m addr size buf = Sum.map Prod.snd Prod.snd (readStrByStep a A addr size (k, buf))
  unfold readStrStep readStrByStep guestRead
  dsimp only
  rw [← hgot]
  split
  · split
    · rfl
    · split
      · rfl
      · split <;> rfl
  · rfl

end Emuroot
