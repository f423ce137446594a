import Emuroot.Model.Fake
import Emuroot.Model.Linux
import Mathlib.Algebra.Group.Int.Defs

/-!
# The buffers of reported paths

The exits of getcwd, and of readlink on a link of `/proc`, put a guest path where the kernel has put
a host path. `reported_paths_iff`: when the guest gets the guest path as the kernel would have given
it, within its buffer. The kernel has cut the host path to the buffer, or refused it, by then.
-/

namespace Emuroot

variable {w : Nat} {σ : Type}

/-! ## Names -/

/-- `emuroot_host_to_guest` for a buffer that takes any name. -/
def namedAs (ctx : Ctx) (root host : CStr) : Option CStr :=
  match hostBinding ctx host with
  | some best => some (orSlash (unlessRoot best.guest ++ host.drop best.host.length))
  | none =>
    if root ≠ [] ∧ hasPrefix host root then some (orSlash (host.drop root.length)) else none

/-- The path by which the guest knows a host path: itself where it has no name. -/
def shownAs (ctx : Ctx) (root host : CStr) : CStr := (namedAs ctx root host).getD host

theorem orSlash_snprintf_comm {n : Nat} (hn : 2 ≤ n) (x : CStr) :
    orSlash (snprintf n x) = snprintf n (orSlash x) := by
  obtain ⟨k, rfl⟩ : ∃ k, n = k + 2 := ⟨n - 2, by omega⟩
  cases x with
  | nil => simp [orSlash, snprintf]
  | cons c x => simp [orSlash, snprintf]

theorem hostToGuest_eq (ctx : Ctx) (root host : CStr) {n : Nat} (hn : 2 ≤ n) :
    hostToGuest ctx root host n = (namedAs ctx root host).map (snprintf n) := by
  unfold hostToGuest namedAs
  cases hostBinding ctx host with
  | some best => exact congrArg some (orSlash_snprintf_comm hn _)
  | none =>
    dsimp only
    split
    · exact congrArg some (orSlash_snprintf_comm hn _)
    · rfl

theorem length_orSlash_append_le (x y : CStr) (n : Nat) :
    (orSlash (x ++ y.drop n)).length ≤ x.length + y.length + 1 := by
  unfold orSlash
  split
  · simp
  · rw [List.length_append, List.length_drop]
    omega

theorem mem_orSlash {x : CStr} {c : Byte} (h : c ∈ orSlash x) : c ∈ x ∨ c = slash := by
  unfold orSlash at h
  split at h
  · exact .inr (List.mem_singleton.1 h)
  · exact .inl h

theorem namedAs_noNul {ctx : Ctx} {root host name : CStr} (h : ∀ b ∈ ctx.bindings, 0 ∉ b.guest)
    (h0 : 0 ∉ host) (hn : namedAs ctx root host = some name) : 0 ∉ name := by
  intro hm
  unfold namedAs at hn
  split at hn
  · rename_i best hbest
    rw [← Option.some.inj hn] at hm
    rcases mem_orSlash hm with hm | hm
    · rcases List.mem_append.1 hm with hm | hm
      · unfold unlessRoot at hm
        split at hm
        · cases hm
        · exact h best (Pick.pick_mem hbest).1 hm
      · exact h0 (List.mem_of_mem_drop hm)
    · cases hm
  · split at hn
    · rw [← Option.some.inj hn] at hm
      rcases mem_orSlash hm with hm | hm
      · exact h0 (List.mem_of_mem_drop hm)
      · cases hm
    · cases hn

theorem length_shownAs_le {ctx : Ctx} {root host : CStr}
    (h : ∀ b ∈ ctx.bindings, b.guest.length < pathLen) :
    (shownAs ctx root host).length ≤ pathLen + host.length := by
  unfold shownAs namedAs
  split
  · rename_i best hbest
    have hb := h best (Pick.pick_mem hbest).1
    have hlen : (unlessRoot best.guest).length ≤ best.guest.length := by
      unfold unlessRoot
      split <;> simp
    have := length_orSlash_append_le (unlessRoot best.guest) host best.host.length
    rw [Option.getD_some]
    omega
  · split
    · have := length_orSlash_append_le [] host root.length
      rw [List.nil_append, List.length_nil] at this
      rw [Option.getD_some]
      simp only [pathLen]
      omega
    · rw [Option.getD_none]
      omega

/-! ## The calls -/

/-- The address is in a buffer. -/
def InBuffer (buf : Word w) (size : Nat) (a : Word w) : Prop := ∃ i < size, a = buf + BitVec.ofNat w i

/-- Nothing but the buffer is changed. -/
def WithinBuffer (m m' : Memory w) (buf : Word w) (size : Nat) : Prop :=
  ∀ a, ¬InBuffer buf size a → m'.byte a = m.byte a

section
variable (P : Platform w σ)

/-- What the guest's strings and names are limited to. -/
structure FitPaths (s : St w σ) (host : CStr) : Prop where
  text : host ≠ [] ∧ 0 ∉ host
  short : host.length < pathLen
  guests : ∀ b ∈ s.ctx.bindings, 0 ∉ b.guest ∧ b.guest.length < pathLen

/-- The exit of a getcwd of the working directory `host`, which the kernel has run on memory `m`: it
writes the path with its NUL, or fails with ERANGE. Nothing can be mapped at the addresses that the
lengths of paths are. -/
structure GetcwdDone (m : Memory w) (s : St w σ) (host : CStr) : Prop extends FitPaths s host where
  action : P.actionOf s.t.sysno = some .getcwd
  result : if host.length + 1 ≤ (s.t.args 1).toNat then
      m.canWrite (s.t.args 0) (host.length + 1) = true ∧
        s.mem.toMemory = m.write (s.t.args 0) (host ++ [0]) ∧
        s.regs P.arch.ret = BitVec.ofInt w (host.length + 1 : Nat)
    else s.mem.toMemory = m ∧ s.regs P.arch.ret = BitVec.ofInt w (-34)
  arg1 : P.arch.arg1 ≠ P.arch.ret → s.arg P 1 = s.t.args 0
  low : P.arch.arg1 = P.arch.ret → ∀ a : Word w, a.toNat ≤ pathLen →
    m.byte a = none ∧ m.writable a = false

/-- The guest has its guest path and its length, or ERANGE, and no byte off its buffer is changed. -/
def GetcwdRight (m : Memory w) (s u : St w σ) (host : CStr) : Prop :=
  let shown := shownAs s.ctx s.t.root host
  let size := (s.t.args 1).toNat
  (if shown.length + 1 ≤ size then
      u.mem.HoldsString (s.t.args 0) shown ∧
        u.regs P.arch.ret = BitVec.ofInt w (shown.length + 1 : Nat)
    else u.regs P.arch.ret = BitVec.ofInt w (-34)) ∧
  WithinBuffer m u.mem.toMemory (s.t.args 0) size

/-- The kernel refuses the host path as it would the guest path; or they are the same; or the exit
finds the buffer, and the guest path fits it, a path buffer, and writable memory. -/
def GetcwdFits (m : Memory w) (s : St w σ) (host : CStr) : Prop :=
  let shown := shownAs s.ctx s.t.root host
  let size := (s.t.args 1).toNat
  if host.length + 1 ≤ size then
    shown = host ∨ P.arch.arg1 ≠ P.arch.ret ∧ shown.length + 1 ≤ size ∧ shown.length < pathLen ∧
      m.canWrite (s.t.args 0) (shown.length + 1) = true
  else size < shown.length + 1

instance (m : Memory w) (s : St w σ) (host : CStr) : Decidable (GetcwdFits P m s host) := by
  unfold GetcwdFits
  infer_instance

/-- The buffer of a readlink, and its size. -/
def linkBuf (s : St w σ) : Word w := s.t.args (if P.nr.is .readlinkat s.t.sysno then 2 else 1)

def linkSize (s : St w σ) : Nat :=
  (s.t.args (if P.nr.is .readlinkat s.t.sysno then 3 else 2)).toNat

/-- The size that the kernel takes, which is an int. -/
def linkTaken (s : St w σ) : Nat := linkSize P s % 2 ^ 32

/-- The exit of a readlink of a link with the text `host`, which the kernel has run on memory `m`: it
writes as much of the text as the buffer takes. -/
structure ReadlinkRan (m : Memory w) (s : St w σ) (host : CStr) : Prop extends FitPaths s host where
  action : P.actionOf s.t.sysno = some .readlink
  exe : s.t.exe.length < pathLen
  size : 0 < linkTaken P s ∧ linkTaken P s < 2 ^ 31
  wrote : m.canWrite (linkBuf P s) (host.take (linkTaken P s)).length = true
  mem : s.mem.toMemory = m.write (linkBuf P s) (host.take (linkTaken P s))
  ret : s.regs P.arch.ret = BitVec.ofInt w ((host.take (linkTaken P s)).length : Nat)

/-- The link has been taken for one of `/proc`. -/
structure ReadlinkDone (m : Memory w) (s : St w σ) (host : CStr) : Prop extends
    ReadlinkRan P m s host where
  procLink : s.t.procLink = true

/-- The path to report: the program that runs through a loader, or the guest's name for the text. -/
def linkAnswer (s : St w σ) (host : CStr) : CStr :=
  if s.t.procLinkExe ∧ s.t.exe ≠ [] then s.t.exe else shownAs s.ctx s.t.root host

/-- The guest has as much of the answer as the buffer takes, and no byte off the buffer is changed. -/
def LinkReported (m : Memory w) (s u : St w σ) (answer : CStr) : Prop :=
  let size := linkSize P s
  u.regs P.arch.ret = BitVec.ofInt w (min answer.length size : Nat) ∧
    u.mem.read (linkBuf P s) (min answer.length size) = answer.take size ∧
    WithinBuffer m u.mem.toMemory (linkBuf P s) size

def ReadlinkRight (m : Memory w) (s u : St w σ) (host : CStr) : Prop :=
  LinkReported P m s u (linkAnswer s host)

/-- The guest path that is to be written can be; it fits a path buffer where the buffer is longer;
and of a text that the kernel had to cut, what is left shows as the text does, as far as the buffer
goes (and where a size past an int has it written over the end of the buffer, as far as the kernel
went). -/
def ReadlinkFits (m : Memory w) (s : St w σ) (host : CStr) : Prop :=
  let answer := linkAnswer s host
  let size := linkSize P s
  let fits := fun n : Nat => m.canWrite (linkBuf P s) (min n size)
  if s.t.procLinkExe ∧ s.t.exe ≠ [] then fits answer.length = true
  else if host.length ≤ linkTaken P s then
    namedAs s.ctx s.t.root host = none ∨
      fits answer.length = true ∧ (answer.length < pathLen ∨ size < pathLen)
  else
    let left := snprintf pathLen (shownAs s.ctx s.t.root (host.take (linkTaken P s)))
    left.take (if fits left.length then size else linkTaken P s) = answer.take size

instance (m : Memory w) (s : St w σ) (host : CStr) : Decidable (ReadlinkFits P m s host) := by
  unfold ReadlinkFits
  infer_instance

end

variable {P : Platform w σ} {m : Memory w} {s : St w σ} {host : CStr}

/-! ## The exits -/

/-- The record of a file that was made does not concern a reported path. -/
theorem commitCreated_eq (s : St w σ) (ret : Int) :
    ∃ owners, commitCreated P s ret =
      { s with ctx := { s.ctx with owners := owners }, t := { s.t with created := [] } } := by
  unfold commitCreated
  split
  · rename_i hc
    refine ⟨s.ctx.owners, ?_⟩
    rw [← hc]
  · exact ⟨_, rfl⟩

theorem withinBuffer_write {buf : Word w} {size : Nat} {bs : List Byte} (h : bs.length ≤ size) :
    WithinBuffer m (m.write buf bs) buf size :=
  fun _ ha => Memory.write_byte_other fun i hi he => ha ⟨i, Nat.lt_of_lt_of_le hi h, he⟩

theorem WithinBuffer.trans {m' m'' : Memory w} {buf : Word w} {size : Nat}
    (h : WithinBuffer m m' buf size) (h' : WithinBuffer m' m'' buf size) :
    WithinBuffer m m'' buf size := fun a ha => (h' a ha).trans (h a ha)

/-- A small result as the register has it. -/
theorem toInt_result (A : Arch w) {x : Int} (hx : -2 ^ 31 ≤ x ∧ x < 2 ^ 31) :
    (BitVec.ofInt w x).toInt = x := by
  rw [BitVec.toInt_ofInt]
  rcases A.bits with rfl | rfl
  · rw [Int.bmod_eq_of_le] <;> omega
  · rw [Int.bmod_eq_of_le] <;> omega

theorem result_inj (A : Arch w) {x y : Int} (hx : -2 ^ 31 ≤ x ∧ x < 2 ^ 31)
    (hy : -2 ^ 31 ≤ y ∧ y < 2 ^ 31) : BitVec.ofInt w x = BitVec.ofInt w y ↔ x = y := by
  constructor
  · intro h
    rw [← toInt_result A hx, h, toInt_result A hy]
  · exact congrArg _

/-! ### getcwd -/

theorem onExit_getcwd (ha : P.actionOf s.t.sysno = some .getcwd) :
    ∃ owners, onExit P s = exitGetcwd P
      { s with ctx := { s.ctx with owners := owners }, t := { s.t with created := [] } }
      (s.arg P 1) (s.regs P.arch.ret).toInt := by
  obtain ⟨owners, hc⟩ := commitCreated_eq (P := P) s (s.regs P.arch.ret).toInt
  refine ⟨owners, ?_⟩
  unfold onExit onExitAt
  dsimp only
  rw [hc]
  dsimp only
  rw [ha]
  exact if_pos rfl

/-- A getcwd whose path is not to be found leaves the result as it is. -/
theorem onExit_getcwd_left (ha : P.actionOf s.t.sysno = some .getcwd)
    (h : (s.regs P.arch.ret).toInt ≤ 0 ∨ guestReadStr s.mem (s.arg P 1) pathLen = none ∨
      guestReadStr s.mem (s.arg P 1) pathLen = some host ∧ namedAs s.ctx s.t.root host = none) :
    (onExit P s).mem = s.mem ∧ (onExit P s).regs = s.regs := by
  obtain ⟨owners, he⟩ := onExit_getcwd ha
  rw [he]
  unfold exitGetcwd
  split
  · exact ⟨rfl, rfl⟩
  · rename_i hpos
    rcases h with h | h | ⟨h, hn⟩
    · exact (hpos h).elim
    · simp only [St.guestReadStr, h, and_self]
    · have hnone : hostToGuest s.ctx s.t.root host pathLen = none := by
        rw [hostToGuest_eq _ _ _ (by decide), hn]
        rfl
      simp only [St.guestReadStr, h]
      split
      · exact ⟨rfl, rfl⟩
      · rename_i guest hg
        cases hnone.symm.trans hg

/-- One whose path has a name has it written. -/
theorem onExit_getcwd_named {name : CStr} (ha : P.actionOf s.t.sysno = some .getcwd)
    (hpos : 0 < (s.regs P.arch.ret).toInt)
    (hr : guestReadStr s.mem (s.arg P 1) pathLen = some host)
    (hn : namedAs s.ctx s.t.root host = some name) :
    let bytes := snprintf pathLen name ++ [0]
    (onExit P s).mem.toMemory = s.mem.write (s.arg P 1) bytes ∧
      (onExit P s).regs P.arch.ret =
        if s.mem.canWrite (s.arg P 1) bytes.length then BitVec.ofInt w bytes.length
        else s.regs P.arch.ret := by
  obtain ⟨owners, he⟩ := onExit_getcwd ha
  have hsome : hostToGuest s.ctx s.t.root host pathLen = some (snprintf pathLen name) := by
    rw [hostToGuest_eq _ _ _ (by decide), hn]
    rfl
  dsimp only
  rw [he]
  unfold exitGetcwd
  rw [if_neg (by omega)]
  simp only [St.guestReadStr, hr]
  split
  · rename_i hg
    cases hsome.symm.trans hg
  · rename_i guest hg
    obtain rfl : snprintf pathLen name = guest := Option.some.inj (hsome.symm.trans hg)
    simp only [St.guestWrite, guestWrite, List.length_append, List.length_singleton]
    split
    · exact ⟨rfl, Regs.put_self ..⟩
    · exact ⟨rfl, rfl⟩

/-- The path that the kernel has written. -/
theorem GetcwdDone.holds (h : GetcwdDone P m s host) (hs : host.length + 1 ≤ (s.t.args 1).toNat) :
    s.mem.HoldsString (s.t.args 0) host := by
  have hres := h.result
  rw [if_pos hs] at hres
  have hlt := (s.t.args 1).isLt
  rw [hres.2.1]
  exact Memory.holdsString_write h.text.2 hres.1 (by omega)

/-- What the exit does to a getcwd that the kernel refused, or whose path it does not find or has no
name for. -/
theorem GetcwdDone.left (h : GetcwdDone P m s host)
    (hl : (s.t.args 1).toNat < host.length + 1 ∨ P.arch.arg1 = P.arch.ret ∨
      namedAs s.ctx s.t.root host = none) :
    (onExit P s).mem = s.mem ∧ (onExit P s).regs = s.regs := by
  apply onExit_getcwd_left h.action
  have hres := h.result
  by_cases hs : host.length + 1 ≤ (s.t.args 1).toNat
  · rw [if_pos hs] at hres
    right
    by_cases harg : P.arch.arg1 = P.arch.ret
    · left
      -- the address that is taken for the buffer is the length of a path
      have haddr : s.arg P 1 = BitVec.ofInt w (host.length + 1 : Nat) := by
        rw [← hres.2.2, ← harg]
        rfl
      have hlow : (s.arg P 1).toNat ≤ pathLen := by
        have hshort := h.short
        rw [haddr, BitVec.ofInt_natCast, BitVec.toNat_ofNat]
        exact (Nat.mod_le _ _).trans hshort
      obtain ⟨hbyte, hwr⟩ := h.low harg _ hlow
      have hkept : s.mem.byte (s.arg P 1) = none := by
        rw [hres.2.1, Memory.write_byte_other, hbyte]
        intro i hi he
        rw [List.length_append, List.length_singleton] at hi
        have := Memory.canWrite_iff.1 hres.1 i hi
        rw [← he, hwr] at this
        cases this
      rw [guestReadStr_eq, if_pos ((Memory.read_eq_nil (by decide)).2 hkept)]
    · right
      refine ⟨?_, hl.resolve_left (by omega) |>.resolve_left harg⟩
      rw [h.arg1 harg]
      exact guestReadStr_of_holds (h.holds hs) (by decide) h.short
  · rw [if_neg hs] at hres
    left
    rw [hres.2]
    rcases P.arch.bits with rfl | rfl <;> decide

/-- A result that is left as the kernel gave it is right for the path that the kernel wrote. -/
theorem GetcwdDone.left_iff (h : GetcwdDone P m s host)
    (hs : host.length + 1 ≤ (s.t.args 1).toNat) {u : St w σ} (hm : u.mem = s.mem)
    (hr : u.regs = s.regs) :
    GetcwdRight P m s u host ↔ shownAs s.ctx s.t.root host = host := by
  have hres := h.result
  rw [if_pos hs] at hres
  have hshort := h.short
  constructor
  · rintro ⟨hright, -⟩
    split at hright
    · exact hright.1.unique (hm ▸ h.holds hs)
    · rw [hr, hres.2.2, result_inj P.arch (by simp only [pathLen] at hshort; omega) (by omega)] at hright
      omega
  · intro he
    refine ⟨?_, ?_⟩
    · rw [he, if_pos hs, hm, hr]
      exact ⟨h.holds hs, hres.2.2⟩
    · rw [hm, hres.2.1]
      exact withinBuffer_write (by simpa using hs)

/-- A name that is written in the place of the path. -/
theorem GetcwdDone.named_iff {name : CStr} (h : GetcwdDone P m s host)
    (hs : host.length + 1 ≤ (s.t.args 1).toNat) (harg : P.arch.arg1 ≠ P.arch.ret)
    (hn : namedAs s.ctx s.t.root host = some name) :
    GetcwdRight P m s (onExit P s) host ↔
      name.length + 1 ≤ (s.t.args 1).toNat ∧ name.length < pathLen ∧
        m.canWrite (s.t.args 0) (name.length + 1) = true := by
  have hres := h.result
  rw [if_pos hs] at hres
  obtain ⟨hcan, hmem, hret⟩ := hres
  have hshort := h.short
  have hlt := (s.t.args 1).isLt
  have hshown : shownAs s.ctx s.t.root host = name := by
    rw [shownAs, hn]
    rfl
  have hname : name.length ≤ pathLen + host.length := 
    hshown ▸ length_shownAs_le fun b hb => (h.guests b hb).2
  have hbuf : s.arg P 1 = s.t.args 0 := h.arg1 harg
  simp only [pathLen] at hname hshort
  have hpos : 0 < (s.regs P.arch.ret).toInt := by
    rw [hret, toInt_result P.arch (by omega)]
    omega
  obtain ⟨hum, hur⟩ := onExit_getcwd_named h.action hpos
    (hbuf ▸ guestReadStr_of_holds (h.holds hs) (by decide) h.short) hn
  rw [hbuf] at hum hur
  have hlen : (snprintf pathLen name ++ [0]).length = min 4095 name.length + 1 := by
    rw [List.length_append, snprintf, List.length_take, List.length_singleton]
    rfl
  have hwr : s.mem.canWrite (s.t.args 0) (min 4095 name.length + 1) =
      m.canWrite (s.t.args 0) (min 4095 name.length + 1) := by
    rw [hmem, Memory.write_canWrite]
  rw [hlen, hwr] at hur
  unfold GetcwdRight
  dsimp only
  rw [hshown]
  constructor
  · rintro ⟨hright, -⟩
    by_cases hfit : name.length + 1 ≤ (s.t.args 1).toNat
    · rw [if_pos hfit, hur] at hright
      have hres := hright.2
      split at hres
      · rename_i hw
        rw [result_inj P.arch (by omega) (by omega)] at hres
        have hshort' : name.length ≤ 4095 := by omega
        rw [Nat.min_eq_right hshort'] at hw
        exact ⟨hfit, Nat.lt_succ_of_le hshort', hw⟩
      · rename_i hw
        rw [hret, result_inj P.arch (by omega) (by omega)] at hres
        have hsame : min 4095 name.length = host.length := by omega
        rw [hsame] at hw
        exact (hw hcan).elim
    · rw [if_neg hfit, hur] at hright
      split at hright
      · rw [result_inj P.arch (by omega) (by omega)] at hright
        omega
      · rw [hret, result_inj P.arch (by omega) (by omega)] at hright
        omega
  · rintro ⟨hfit, hshort', hw⟩
    have hwhole : snprintf pathLen name = name := snprintf_of_lt hshort'
    have hmin : min 4095 name.length = name.length :=
      Nat.min_eq_right (Nat.le_of_lt_succ hshort')
    have h0 : 0 ∉ name := namedAs_noNul (fun b hb => (h.guests b hb).1) h.text.2 hn
    rw [hwhole] at hum
    rw [hmin, if_pos hw] at hur
    rw [if_pos hfit, hum, hur, hmem]
    refine ⟨⟨Memory.holdsString_write h0 (by rwa [Memory.write_canWrite]) (by omega), rfl⟩, ?_⟩
    have h1 : WithinBuffer m (m.write (s.t.args 0) (host ++ [0])) (s.t.args 0) (s.t.args 1).toNat :=
      withinBuffer_write (by simpa using hs)
    exact h1.trans (withinBuffer_write (by simpa using hfit))

theorem getcwd_iff (h : GetcwdDone P m s host) :
    GetcwdRight P m s (onExit P s) host ↔ GetcwdFits P m s host := by
  have hres := h.result
  unfold GetcwdFits
  dsimp only
  by_cases hs : host.length + 1 ≤ (s.t.args 1).toNat
  · rw [if_pos hs] at hres ⊢
    by_cases harg : P.arch.arg1 = P.arch.ret
    · obtain ⟨hm, hr⟩ := h.left (.inr (.inl harg))
      rw [h.left_iff hs hm hr]
      simp [harg]
    · cases hn : namedAs s.ctx s.t.root host with
      | none =>
        obtain ⟨hm, hr⟩ := h.left (.inr (.inr hn))
        have hself : shownAs s.ctx s.t.root host = host := by
          rw [shownAs, hn]
          rfl
        rw [h.left_iff hs hm hr]
        exact ⟨.inl, fun _ => hself⟩
      | some name =>
        have hshown : shownAs s.ctx s.t.root host = name := by
          rw [shownAs, hn]
          rfl
        rw [h.named_iff hs harg hn, hshown]
        constructor
        · exact fun hfit => .inr ⟨harg, hfit⟩
        · rintro (rfl | ⟨-, hfit⟩)
          · exact ⟨hs, h.short, hres.1⟩
          · exact hfit
  · rw [if_neg hs] at hres ⊢
    obtain ⟨hm, hr⟩ := h.left (.inl (Nat.lt_of_not_le hs))
    have hlen : (shownAs s.ctx s.t.root host).length ≤ pathLen + host.length :=
      length_shownAs_le fun b hb => (h.guests b hb).2
    have hshort := h.short
    simp only [pathLen] at hlen hshort
    constructor
    · rintro ⟨hright, -⟩
      by_contra hfit
      rw [if_pos (by omega), hr, hres.2, result_inj P.arch (by omega) (by omega)] at hright
      omega
    · intro hfit
      refine ⟨?_, ?_⟩
      · rw [if_neg (by omega), hr, hres.2]
      · rw [hm, hres.1]
        exact fun _ _ => rfl

/-! ### readlink -/

/-- What the exit finds for the text that the kernel has written. -/
def foundAnswer (s : St w σ) (text : CStr) : Option CStr :=
  if s.t.procLinkExe ∧ s.t.exe ≠ [] then some s.t.exe
  else (namedAs s.ctx s.t.root text).map (snprintf pathLen)

theorem mapProcLink_found {text : CStr} (hlen : text.length < pathLen)
    (hread : s.mem.read (linkBuf P s) text.length = text) (h0 : 0 ∉ text) :
    match foundAnswer s text with
    | none => (mapProcLink P s text.length).mem = s.mem ∧ (mapProcLink P s text.length).regs = s.regs
    | some a =>
      (mapProcLink P s text.length).mem.toMemory =
          s.mem.write (linkBuf P s) (a.take (min a.length (linkSize P s))) ∧
        (mapProcLink P s text.length).regs P.arch.ret =
          if s.mem.canWrite (linkBuf P s) (min a.length (linkSize P s)) then
            BitVec.ofInt w (min a.length (linkSize P s) : Nat)
          else s.regs P.arch.ret := by
  have hcstr : cStrOf text = text := by
    rw [cStrOf, List.takeWhile_eq_self_iff]
    intro c hm
    simpa using fun hc : c = 0 => h0 (hc ▸ hm)
  have hfound : (if s.t.procLinkExe = true ∧ s.t.exe ≠ [] then some s.t.exe
      else hostToGuest s.ctx s.t.root text pathLen) = foundAnswer s text := by
    rw [hostToGuest_eq _ _ _ (by decide)]
    rfl
  unfold mapProcLink
  extract_lets isAt buf size
  have hgot : guestRead s.mem buf text.length = text := hread
  rw [if_neg (Nat.not_le_of_lt hlen)]
  simp only [St.guestRead, hgot, ne_eq, not_true_eq_false, if_false, hcstr]
  rw [show (if s.t.procLinkExe = true ∧ ¬s.t.exe = [] then some s.t.exe
      else hostToGuest s.ctx s.t.root text pathLen) = foundAnswer s text from hfound]
  cases foundAnswer s text with
  | none => exact ⟨rfl, rfl⟩
  | some a =>
    have hn : (a.take (min a.length size.toNat)).length = min a.length size.toNat := by simp
    simp only [St.guestWrite, guestWrite, hn]
    split
    · rename_i hw
      refine ⟨rfl, ?_⟩
      rw [if_pos (show s.mem.canWrite (linkBuf P s) (min a.length (linkSize P s)) = true from hw)]
      exact Regs.put_self ..
    · rename_i hw
      refine ⟨rfl, ?_⟩
      rw [if_neg (show ¬s.mem.canWrite (linkBuf P s) (min a.length (linkSize P s)) = true from hw)]

/-- The address space takes more than a path. -/
theorem pathLen_le (P : Platform w σ) : 2 * pathLen ≤ 2 ^ w :=
  Nat.le_trans (show 2 * pathLen ≤ 2 ^ 32 by decide) (P.arch.two_pow_le (Nat.le_refl _))

theorem linkTaken_le (s : St w σ) : linkTaken P s ≤ linkSize P s := Nat.mod_le _ _

theorem length_linkText_le (s : St w σ) (host : CStr) :
    (host.take (linkTaken P s)).length ≤ linkSize P s := by
  rw [List.length_take]
  exact Nat.le_trans (Nat.min_le_left _ _) (linkTaken_le s)

namespace ReadlinkRan

theorem text_length (h : ReadlinkRan P m s host) :
    0 < (host.take (linkTaken P s)).length ∧ (host.take (linkTaken P s)).length < pathLen := by
  have hpos := List.length_pos_iff.2 h.text.1
  have hsize := h.size.1
  have hshort := h.short
  rw [List.length_take]
  omega

theorem shown_le (h : ReadlinkRan P m s host) :
    (shownAs s.ctx s.t.root host).length ≤ 2 * pathLen := by
  have hshort := h.short
  have hshown : (shownAs s.ctx s.t.root host).length ≤ pathLen + host.length :=
    length_shownAs_le fun b hb => (h.guests b hb).2
  omega

theorem answer_le (h : ReadlinkRan P m s host) : (linkAnswer s host).length ≤ 2 * pathLen := by
  have hexe := h.exe
  unfold linkAnswer
  split
  · omega
  · exact h.shown_le

theorem read (h : ReadlinkRan P m s host) :
    s.mem.read (linkBuf P s) (host.take (linkTaken P s)).length = host.take (linkTaken P s) := by
  have hlen := h.text_length.2
  have hw := pathLen_le P
  rw [h.mem]
  exact Memory.read_write_self h.wrote (by omega)

theorem onExit_eq (h : ReadlinkRan P m s host) :
    ∃ owners, onExit P s = if s.t.procLink = true then mapProcLink P
        { s with ctx := { s.ctx with owners := owners }, t := { s.t with created := [] } }
        (host.take (linkTaken P s)).length
      else { s with ctx := { s.ctx with owners := owners }, t := { s.t with created := [] } } := by
  obtain ⟨hpos, hlen⟩ := h.text_length
  obtain ⟨owners, hc⟩ := commitCreated_eq (P := P) s (s.regs P.arch.ret).toInt
  have hret : (s.regs P.arch.ret).toInt = (host.take (linkTaken P s)).length := by
    rw [h.ret, toInt_result P.arch (by simp only [pathLen] at hlen; omega)]
  refine ⟨owners, ?_⟩
  unfold onExit onExitAt
  dsimp only
  rw [hc, hret]
  dsimp only
  rw [h.action]
  show (if !s.t.procLink ∨ _ then _ else _) = _
  cases hp : s.t.procLink with
  | false => rw [if_pos (by simp), if_neg (by decide)]
  | true =>
    rw [if_neg (by simp only [Bool.not_true, Bool.false_eq_true, false_or]; omega), if_pos rfl]
    rfl

/-- The text that is left in the buffer. -/
theorem kept_iff (h : ReadlinkRan P m s host) {u : St w σ} (hm : u.mem = s.mem)
    (hr : u.regs = s.regs) {answer : CStr} (ha : answer.length ≤ 2 * pathLen) :
    LinkReported P m s u answer ↔ host.take (linkTaken P s) = answer.take (linkSize P s) := by
  have hlen := h.text_length.2
  have hle := length_linkText_le (P := P) s host
  have hread := h.read
  simp only [pathLen] at hlen ha
  unfold LinkReported
  dsimp only
  rw [hm, hr, h.ret, result_inj P.arch (by omega) (by omega), Int.ofNat_inj]
  constructor
  · rintro ⟨hsame, hbytes, -⟩
    rw [← hsame, hread] at hbytes
    exact hbytes
  · intro he
    have hsame := congrArg List.length he
    rw [List.length_take (i := linkSize P s), Nat.min_comm] at hsame
    refine ⟨hsame, ?_, ?_⟩
    · rw [← hsame, hread, he]
    · rw [h.mem]
      exact withinBuffer_write hle

/-- A link that has not been taken for one of `/proc`. -/
theorem unmarked_iff (h : ReadlinkRan P m s host) (hp : s.t.procLink = false) {answer : CStr}
    (ha : answer.length ≤ 2 * pathLen) :
    LinkReported P m s (onExit P s) answer ↔
      host.take (linkTaken P s) = answer.take (linkSize P s) := by
  obtain ⟨owners, he⟩ := h.onExit_eq
  rw [he, hp]
  exact h.kept_iff rfl rfl ha

end ReadlinkRan

namespace ReadlinkDone

/-- The exit writes the answer that it finds. -/
theorem exit (h : ReadlinkDone P m s host) :
    match foundAnswer s (host.take (linkTaken P s)) with
    | none => (onExit P s).mem = s.mem ∧ (onExit P s).regs = s.regs
    | some a =>
      (onExit P s).mem.toMemory =
          s.mem.write (linkBuf P s) (a.take (min a.length (linkSize P s))) ∧
        (onExit P s).regs P.arch.ret =
          if s.mem.canWrite (linkBuf P s) (min a.length (linkSize P s)) then
            BitVec.ofInt w (min a.length (linkSize P s) : Nat)
          else s.regs P.arch.ret := by
  obtain ⟨owners, he⟩ := h.onExit_eq
  rw [he, if_pos h.procLink]
  exact mapProcLink_found (P := P)
    (s := { s with ctx := { s.ctx with owners := owners }, t := { s.t with created := [] } })
    h.text_length.2 h.read fun h0 => h.text.2 (List.mem_of_mem_take h0)

/-- The text is left where no answer is found for it. -/
theorem left_iff (h : ReadlinkDone P m s host)
    (hn : foundAnswer s (host.take (linkTaken P s)) = none) {answer : CStr}
    (ha : answer.length ≤ 2 * pathLen) :
    LinkReported P m s (onExit P s) answer ↔
      host.take (linkTaken P s) = answer.take (linkSize P s) := by
  have hexit := h.exit
  rw [hn] at hexit
  exact h.kept_iff hexit.1 hexit.2 ha

/-- An answer that is found is written, as far as it can be; where it cannot, the guest has as many
bytes of it as the text had. -/
theorem found_iff {a : CStr} (h : ReadlinkDone P m s host) (ha : a.length < pathLen)
    (hn : foundAnswer s (host.take (linkTaken P s)) = some a) {answer : CStr}
    (hmax : answer.length ≤ 2 * pathLen) :
    LinkReported P m s (onExit P s) answer ↔
      a.take (if m.canWrite (linkBuf P s) (min a.length (linkSize P s)) then linkSize P s
        else (host.take (linkTaken P s)).length) = answer.take (linkSize P s) := by
  have hexit := h.exit
  rw [hn] at hexit
  obtain ⟨hm, hr⟩ := hexit
  have hlen := h.text_length.2
  have hle := length_linkText_le (P := P) s host
  have hw := pathLen_le P
  have hwr : ∀ n, s.mem.canWrite (linkBuf P s) n = m.canWrite (linkBuf P s) n := by
    intro n
    rw [h.mem, Memory.write_canWrite]
  have hframe : WithinBuffer m (onExit P s).mem.toMemory (linkBuf P s) (linkSize P s) := by
    have h1 : WithinBuffer m s.mem.toMemory (linkBuf P s) (linkSize P s) := by
      rw [h.mem]
      exact withinBuffer_write hle
    rw [hm]
    exact h1.trans (withinBuffer_write (by rw [List.length_take]; omega))
  have hbytes : ∀ k, k ≤ min a.length (linkSize P s) → m.canWrite (linkBuf P s) k = true →
      (onExit P s).mem.read (linkBuf P s) k = a.take k := by
    intro k hk hcan
    rw [hm, Memory.read_write_front (by rwa [hwr]) (by rw [List.length_take]; omega)
      (by rw [List.length_take]; omega), List.take_take, Nat.min_eq_left hk]
  rw [hwr] at hr
  simp only [pathLen] at hlen hmax ha
  unfold LinkReported
  dsimp only
  by_cases hcan : m.canWrite (linkBuf P s) (min a.length (linkSize P s)) = true
  · rw [if_pos hcan] at hr ⊢
    rw [hr, result_inj P.arch (by omega) (by omega), Int.ofNat_inj]
    have hwhole := hbytes _ (Nat.le_refl _) hcan
    constructor
    · rintro ⟨hsame, hread, -⟩
      rw [← hread, ← hsame, hwhole, Nat.min_comm, ← List.take_take, List.take_length]
    · intro he
      have hsame := congrArg List.length he
      rw [List.length_take, List.length_take, Nat.min_comm, Nat.min_comm (linkSize P s)] at hsame
      refine ⟨hsame, ?_, hframe⟩
      rw [← hsame, hwhole, Nat.min_comm, ← List.take_take, List.take_length, he]
  · rw [if_neg hcan] at hr ⊢
    rw [hr, h.ret, result_inj P.arch (by omega) (by omega), Int.ofNat_inj]
    have hmore : (host.take (linkTaken P s)).length < min a.length (linkSize P s) := by
      by_contra hlt
      exact hcan (Memory.canWrite_le h.wrote (Nat.le_of_not_lt hlt))
    have hpart := hbytes _ (Nat.le_of_lt hmore) h.wrote
    constructor
    · rintro ⟨hsame, hread, -⟩
      rw [← hread, ← hsame, hpart]
    · intro he
      have hsame := congrArg List.length he
      rw [List.length_take_of_le (by omega), List.length_take (i := linkSize P s),
        Nat.min_comm] at hsame
      refine ⟨hsame, ?_, hframe⟩
      rw [← hsame, hpart, he]

/-- The answer is the program that runs through a loader. -/
theorem exe_iff (h : ReadlinkDone P m s host) (hexe : s.t.procLinkExe ∧ s.t.exe ≠ []) :
    ReadlinkRight P m s (onExit P s) host ↔
      m.canWrite (linkBuf P s) (min (linkAnswer s host).length (linkSize P s)) = true := by
  have ha : linkAnswer s host = s.t.exe := if_pos hexe
  unfold ReadlinkRight
  rw [h.found_iff h.exe (if_pos hexe) h.answer_le, ha]
  split
  · rename_i hcan
    exact ⟨fun _ => hcan, fun _ => rfl⟩
  · rename_i hcan
    refine ⟨fun he => ?_, fun h' => (hcan h').elim⟩
    have hmore : (host.take (linkTaken P s)).length < min s.t.exe.length (linkSize P s) := by
      by_contra hlt
      exact hcan (Memory.canWrite_le h.wrote (Nat.le_of_not_lt hlt))
    have hsame := congrArg List.length he
    rw [List.length_take_of_le (by omega), List.length_take (i := linkSize P s)] at hsame
    omega

/-- The kernel has written the whole text. -/
theorem whole_iff (h : ReadlinkDone P m s host) (hexe : ¬(s.t.procLinkExe ∧ s.t.exe ≠ []))
    (hs : host.length ≤ linkTaken P s) :
    ReadlinkRight P m s (onExit P s) host ↔
      namedAs s.ctx s.t.root host = none ∨
        m.canWrite (linkBuf P s) (min (linkAnswer s host).length (linkSize P s)) = true ∧
          ((linkAnswer s host).length < pathLen ∨ linkSize P s < pathLen) := by
  have hsize := linkTaken_le (P := P) s
  have htext : host.take (linkTaken P s) = host := List.take_of_length_le hs
  have hfound : foundAnswer s host = (namedAs s.ctx s.t.root host).map (snprintf pathLen) :=
    if_neg hexe
  have ha : linkAnswer s host = (namedAs s.ctx s.t.root host).getD host := if_neg hexe
  cases hn : namedAs s.ctx s.t.root host with
  | none =>
    rw [hn] at hfound ha
    unfold ReadlinkRight
    rw [h.left_iff (by rw [htext, hfound]; rfl) h.answer_le, htext, ha]
    simp only [Option.getD_none, true_or, iff_true]
    exact (List.take_of_length_le (by omega)).symm
  | some name =>
    rw [hn] at hfound ha
    have hleft : (snprintf pathLen name).length = min (pathLen - 1) name.length := List.length_take
    have hpath : 0 < pathLen := by decide
    have hlen : (snprintf pathLen name).length < pathLen := by omega
    unfold ReadlinkRight
    rw [h.found_iff hlen (by rw [htext, hfound]; rfl) h.answer_le, htext, ha, hleft]
    simp only [Option.getD_some, reduceCtorEq, false_or]
    split
    · rename_i hcan
      rw [snprintf, List.take_take, List.take_eq_take_iff]
      constructor
      · intro he
        have hsame : min (min (pathLen - 1) name.length) (linkSize P s) =
            min name.length (linkSize P s) := by omega
        exact ⟨hsame ▸ hcan, by omega⟩
      · rintro ⟨-, hfit⟩
        omega
    · rename_i hcan
      have hmore : host.length < min (min (pathLen - 1) name.length) (linkSize P s) := by
        by_contra hlt
        exact hcan (Memory.canWrite_le (htext ▸ h.wrote) (Nat.le_of_not_lt hlt))
      constructor
      · intro he
        have hsame := congrArg List.length he
        rw [List.length_take_of_le (by omega), List.length_take] at hsame
        omega
      · rintro ⟨hcan', -⟩
        exact (hcan (Memory.canWrite_le hcan' (by omega))).elim

/-- The kernel has cut the text. -/
theorem cut_iff (h : ReadlinkDone P m s host) (hexe : ¬(s.t.procLinkExe ∧ s.t.exe ≠ []))
    (hs : linkTaken P s < host.length) :
    let left := snprintf pathLen (shownAs s.ctx s.t.root (host.take (linkTaken P s)))
    ReadlinkRight P m s (onExit P s) host ↔
      left.take (if m.canWrite (linkBuf P s) (min left.length (linkSize P s)) then linkSize P s
        else linkTaken P s) = (linkAnswer s host).take (linkSize P s) := by
  have hsize := linkTaken_le (P := P) s
  have htext : (host.take (linkTaken P s)).length = linkTaken P s :=
    List.length_take_of_le (Nat.le_of_lt hs)
  have hfound : foundAnswer s (host.take (linkTaken P s)) =
      (namedAs s.ctx s.t.root (host.take (linkTaken P s))).map (snprintf pathLen) := if_neg hexe
  dsimp only
  rw [shownAs]
  cases hn : namedAs s.ctx s.t.root (host.take (linkTaken P s)) with
  | none =>
    rw [hn] at hfound
    have hwhole : snprintf pathLen (host.take (linkTaken P s)) = host.take (linkTaken P s) :=
      snprintf_of_lt h.text_length.2
    have hcan := h.wrote
    have hall : (host.take (linkTaken P s)).take (linkSize P s) = host.take (linkTaken P s) :=
      List.take_of_length_le (by omega)
    rw [htext] at hcan
    unfold ReadlinkRight
    rw [h.left_iff hfound h.answer_le, Option.getD_none, hwhole, htext, Nat.min_eq_left hsize, if_pos hcan,
      hall]
  | some name =>
    rw [hn] at hfound
    have hlen : (snprintf pathLen name).length < pathLen := by
      rw [snprintf, List.length_take]
      exact Nat.lt_succ_of_le (Nat.min_le_left _ _)
    unfold ReadlinkRight
    rw [h.found_iff hlen hfound h.answer_le, htext, Option.getD_some]

end ReadlinkDone

theorem readlink_iff (h : ReadlinkDone P m s host) :
    ReadlinkRight P m s (onExit P s) host ↔ ReadlinkFits P m s host := by
  unfold ReadlinkFits
  dsimp only
  split
  · rename_i hexe
    exact h.exe_iff hexe
  · rename_i hexe
    split
    · rename_i hs
      exact h.whole_iff hexe hs
    · rename_i hs
      exact h.cut_iff hexe (Nat.lt_of_not_le hs)

/-- The reported paths: what the guest finds in its buffer is right just when it fits. -/
theorem reported_paths_iff (m : Memory w) (s : St w σ) (host : CStr) :
    (GetcwdDone P m s host → (GetcwdRight P m s (onExit P s) host ↔ GetcwdFits P m s host)) ∧
      (ReadlinkDone P m s host →
        (ReadlinkRight P m s (onExit P s) host ↔ ReadlinkFits P m s host)) :=
  ⟨getcwd_iff, readlink_iff⟩

/-! ### The root's `/etc` -/

/-- The memory before. -/
def emptyMem : Memory 64 := (linuxMem []).toMemory

/-- The exit of call `nr` that has written `bytes` to 4096 and returned their number. -/
def wroteExit (ctx : Ctx) (nr : Nat) (args : List Nat) (bytes : List Byte) : St 64 Unit :=
  let s := linuxCall ctx ctx.root nr args []
  { s with
    t := { s.t with
      sysno := nr
      args := fun i => s.arg linuxPlatform (i + 1)
      procLink := true }
    regs := s.regs.put x86_64.ret (BitVec.ofInt 64 bytes.length)
    mem := { s.mem with toMemory := s.mem.write 4096 bytes } }

/-- `getcwd(4096, size)` in `host`. -/
def cwdExit (ctx : Ctx) (host : CStr) (size : Nat) : St 64 Unit :=
  wroteExit ctx 79 [4096, size] (host ++ [0])

/-- `readlink(path, 4096, size)` of a link to `host`. -/
def linkExit (ctx : Ctx) (host : CStr) (size : Nat) : St 64 Unit :=
  wroteExit ctx 89 [0, 4096, size] (host.take size)

theorem cwdExit_done {ctx : Ctx} {host : CStr} {size : Nat}
    (h : FitPaths (cwdExit ctx host size) host) (hs : size < 2 ^ 64)
    (hfit : host.length + 1 ≤ size) :
    GetcwdDone linuxPlatform emptyMem (cwdExit ctx host size) host := by
  have harg : ((cwdExit ctx host size).t.args 1).toNat = size :=
    Nat.mod_eq_of_lt (b := 2 ^ 64) hs
  have hlen : (host ++ [0]).length = host.length + 1 := List.length_append
  refine ⟨h, ?_, ?_, ?_, ?_⟩
  · exact (by decide +kernel : linuxPlatform.actionOf 79 = some .getcwd)
  · rw [harg, if_pos hfit, ← hlen]
    refine ⟨Memory.canWrite_iff.2 fun _ _ => rfl, rfl, ?_⟩
    exact Regs.put_self (linuxRegs 79 [4096, size]) x86_64.ret _
  · exact fun _ => rfl
  · exact fun h => absurd h (by decide)

theorem linkExit_done {ctx : Ctx} {host : CStr} {size : Nat}
    (h : FitPaths (linkExit ctx host size) host) (hpos : 0 < size) (hs : size < 2 ^ 31) :
    ReadlinkDone linuxPlatform emptyMem (linkExit ctx host size) host := by
  have hword : size < 2 ^ 64 := by omega
  have harg : linkSize linuxPlatform (linkExit ctx host size) = size :=
    Nat.mod_eq_of_lt (b := 2 ^ 64) hword
  have hint : linkTaken linuxPlatform (linkExit ctx host size) = size := by
    rw [linkTaken, harg]
    exact Nat.mod_eq_of_lt (by omega)
  refine ⟨⟨h, ?_, ?_, ?_, ?_, ?_, ?_⟩, rfl⟩
  · exact (by decide +kernel : linuxPlatform.actionOf 89 = some .readlink)
  · exact (by decide : 0 < pathLen)
  · omega
  · exact Memory.canWrite_iff.2 fun _ _ => rfl
  · rw [hint]
    rfl
  · rw [hint]
    exact Regs.put_self (linuxRegs 89 [0, 4096, size]) x86_64.ret _

def etcCtx : Ctx := { Ctx.create with root := cstr "/r" }

theorem reported_in_root :
    GetcwdRight linuxPlatform emptyMem (cwdExit etcCtx (cstr "/r/etc") 7)
        (onExit linuxPlatform (cwdExit etcCtx (cstr "/r/etc") 7)) (cstr "/r/etc") ∧
      ReadlinkRight linuxPlatform emptyMem (linkExit etcCtx (cstr "/r/etc") 6)
        (onExit linuxPlatform (linkExit etcCtx (cstr "/r/etc") 6)) (cstr "/r/etc") := by
  constructor
  · refine ((reported_paths_iff _ _ _).1 (cwdExit_done ?_ (by decide) (by decide))).2 ?_
    · exact ⟨by decide, by decide, by decide⟩
    · decide +kernel
  · refine ((reported_paths_iff _ _ _).2 (linkExit_done ?_ (by decide) (by decide))).2 ?_
    · exact ⟨by decide, by decide, by decide⟩
    · decide +kernel

/-- The host's `/h` is the guest's `/longer`. -/
def longerCtx : Ctx := { Ctx.create with bindings := [⟨cstr "/h", cstr "/longer", []⟩] }

/-- The guest's path is written over the end of a buffer that takes the host's. -/
theorem getcwd_overrun :
    GetcwdDone linuxPlatform emptyMem (cwdExit longerCtx (cstr "/h") 3) (cstr "/h") ∧
      ¬GetcwdRight linuxPlatform emptyMem (cwdExit longerCtx (cstr "/h") 3)
        (onExit linuxPlatform (cwdExit longerCtx (cstr "/h") 3)) (cstr "/h") := by
  have hdone : GetcwdDone linuxPlatform emptyMem (cwdExit longerCtx (cstr "/h") 3) (cstr "/h") :=
    cwdExit_done ⟨by decide, by decide, by decide⟩ (by decide) (by decide)
  refine ⟨hdone, fun h => ?_⟩
  have hfits := (getcwd_iff hdone).1 h
  revert hfits
  decide +kernel

end Emuroot
