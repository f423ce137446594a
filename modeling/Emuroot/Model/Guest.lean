import Emuroot.Lib.Loop
import Emuroot.Lib.Memory
import Emuroot.Model.Arch
import Emuroot.Model.CString

/-!
# The traced process's memory (`guest.c`)

Each method transfers the longest accessible prefix; `GuestMem.errno` is what the method in use
leaves in `errno` when there is none.
-/

namespace Emuroot

def EFAULT : Int := 14

structure GuestMem (w : Nat) extends Memory w where
  errno : Int

variable {w : Nat}

/-- `guest_read`: the bytes transferred; `-1` is none for a positive length. -/
def guestRead (m : GuestMem w) (addr : Word w) (len : Nat) : List Byte := m.read addr len

/-- `guest_write`, with whether it returned 0. -/
def guestWrite (m : GuestMem w) (addr : Word w) (data : List Byte) : GuestMem w × Bool :=
  ({ m with toMemory := m.write addr data }, m.canWrite addr data.length)

/-- The C string in a buffer. -/
def cStrOf (buf : List Byte) : CStr := buf.takeWhile (· != 0)

/-- A chunk of `guest_read_str`; `buf` is what was read so far. -/
def readStrStep (m : GuestMem w) (addr : Word w) (size : Nat) (buf : List Byte) :
    List Byte ⊕ Option CStr :=
  if buf.length + 1 < size then
    let want := min (size - 1 - buf.length) 128
    let got := guestRead m (addr + BitVec.ofNat w buf.length) want
    -- ran into unmapped memory, perhaps after some text
    if got = [] then .inr (if buf = [] then none else some (cStrOf buf))
    else if 0 ∈ got then .inr (some (cStrOf (buf ++ got)))
    else if got.length < want then .inr (some (cStrOf (buf ++ got)))
    else .inl (buf ++ got)
  else .inr (if buf = [] then none else some (cStrOf buf))

theorem readStrStep_decreases {m : GuestMem w} {addr : Word w} {size : Nat} {buf buf' : List Byte}
    (h : readStrStep m addr size buf = .inl buf') : size - buf'.length < size - buf.length := by
  unfold readStrStep at h
  split at h
  · rename_i hlt
    extract_lets want got at h
    split at h
    · cases h
    · rename_i hne
      have hpos : 0 < got.length := List.length_pos_iff.2 hne
      split at h
      · cases h
      · split at h
        · cases h
        · cases h
          rw [List.length_append]
          omega
  · cases h

/-- `guest_read_str`; `none` is `-1`. -/
def guestReadStr (m : GuestMem w) (addr : Word w) (size : Nat) : Option CStr :=
  Loop.run
    { step := readStrStep m addr size
      measure := fun buf => size - buf.length
      decreases := readStrStep_decreases } []

theorem head_cStrOf (buf : List Byte) : (cStrOf buf).head? = buf.head?.filter (· != 0) := by
  cases buf with
  | nil => rfl
  | cons b buf =>
    rw [cStrOf, List.takeWhile_cons, List.head?_cons, Option.filter_some]
    split <;> rfl

theorem cStrOf_append {s : CStr} (h : 0 ∉ s) (r : List Byte) : cStrOf (s ++ 0 :: r) = s :=
  Memory.takeWhile_noNul h r

theorem cStrOf_append_of_mem {buf : List Byte} (h : 0 ∈ buf) (r : List Byte) :
    cStrOf (buf ++ r) = cStrOf buf := by
  obtain ⟨x, y, rfl, hx⟩ := List.eq_append_cons_of_mem h
  rw [List.append_assoc, List.cons_append, cStrOf_append hx, cStrOf_append hx]

/-- **The loop of `guest_read_str`**: chunk by chunk it reads what can be read for the buffer, and
goes by the first NUL in it, if there is one. -/
theorem guestReadStr_eq (m : GuestMem w) (addr : Word w) (size : Nat) :
    guestReadStr m addr size =
      if m.read addr (size - 1) = [] then none else some (cStrOf (m.read addr (size - 1))) := by
  let L : Loop (List Byte) (Option CStr) :=
    { step := readStrStep m addr size
      measure := fun buf => size - buf.length
      decreases := readStrStep_decreases }
  -- what was read so far is the beginning of what can be read
  let I : List Byte → Prop := fun buf =>
    buf.length ≤ size - 1 ∧ m.read addr buf.length = buf
  have hrest : ∀ {buf}, I buf → m.read addr (size - 1) =
      buf ++ m.read (addr + BitVec.ofNat w buf.length) (size - 1 - buf.length) := by
    rintro buf ⟨hlen, hread⟩
    rw [← Memory.read_add hread, Nat.add_sub_cancel' hlen]
  have hI : ∀ buf buf', I buf → L.step buf = .inl buf' → I buf' := by
    rintro buf buf' ⟨hlen, hread⟩ hs
    change readStrStep m addr size buf = _ at hs
    unfold readStrStep at hs
    split at hs
    · extract_lets want got at hs
      have hgot : got.length ≤ want := Memory.length_read_le ..
      repeat' split at hs
      all_goals cases hs
      have hfull : got.length = want := by omega
      refine ⟨by rw [List.length_append]; omega, ?_⟩
      rw [List.length_append, Memory.read_add hread, hfull]
      rfl
    · cases hs
  obtain ⟨buf, hbuf, hs⟩ := L.run_spec hI (s := []) ⟨Nat.zero_le _, rfl⟩
  change readStrStep m addr size buf = .inr (guestReadStr m addr size) at hs
  have hall := hrest hbuf
  unfold readStrStep at hs
  split at hs
  · extract_lets want got at hs
    have hwant : want ≤ size - 1 - buf.length ∧ 0 < want := by omega
    -- a range that ends early is all that can be read
    have hstop : got.length < want → m.read addr (size - 1) = buf ++ got := fun hlt => by
      rw [hall, Memory.read_stop hlt hwant.1]
      rfl
    split at hs
    · rename_i hnil
      rw [hstop (by rw [hnil]; exact hwant.2), hnil, List.append_nil]
      exact (Sum.inr.inj hs).symm
    · rename_i hne
      have hne' : m.read addr (size - 1) ≠ [] := by
        rw [hall]
        intro hnil
        have hbyte := (Memory.read_eq_nil (Nat.lt_of_lt_of_le hwant.2 hwant.1)).1
          (List.append_eq_nil_iff.1 hnil).2
        exact hne ((Memory.read_eq_nil hwant.2).2 hbyte)
      rw [if_neg hne']
      split at hs
      · rename_i hmem
        rw [← Sum.inr.inj hs, hall, ← List.take_append_drop want (m.read (addr + _) (_ - _)),
          Memory.read_take hwant.1, ← List.append_assoc]
        exact congrArg some (cStrOf_append_of_mem (List.mem_append_right _ hmem) _).symm
      · split at hs
        · rename_i hlt
          rw [hstop hlt]
          exact (Sum.inr.inj hs).symm
        · cases hs
  · have hend : size - 1 - buf.length = 0 := by omega
    rw [hend, Memory.read, List.append_nil] at hall
    rw [hall]
    exact (Sum.inr.inj hs).symm

/-- A string that is read begins with the byte at its address, unless that is NUL. -/
theorem head_guestReadStr {m : GuestMem w} {addr : Word w} {size : Nat} {s : CStr}
    (h : guestReadStr m addr size = some s) : s.head? = (m.byte addr).filter (· != 0) := by
  rw [guestReadStr_eq] at h
  split at h
  · cases h
  · rename_i hne
    rw [← Option.some.inj h, head_cStrOf, Memory.head_read hne]

/-- A string that fits the buffer is read. -/
theorem guestReadStr_of_holds {m : GuestMem w} {addr : Word w} {size : Nat} {s : CStr}
    (h : m.HoldsString addr s) (hsize : 1 < size) (hs : s.length < size) :
    guestReadStr m addr size = some s := by
  have htake := Memory.read_take (m := m.toMemory) (a := addr) (k := size - 1) (n := size) (by omega)
  obtain ⟨h0, heq⟩ := Memory.holdsString_iff.1 ⟨h, hs⟩
  obtain ⟨x, r, hr, hx⟩ := List.eq_append_cons_of_mem h0
  rw [hr, Memory.takeWhile_noNul hx] at heq
  subst heq
  have hlen := Memory.length_read_le m.toMemory addr size
  rw [hr, List.length_append, List.length_cons] at hlen
  rw [guestReadStr_eq, ← htake, hr]
  obtain hlt | hge := Nat.lt_or_ge s.length (size - 1)
  · obtain ⟨k, hk⟩ : ∃ k, size - 1 = s.length + (k + 1) := ⟨size - 1 - s.length - 1, by omega⟩
    rw [hk, List.take_length_add_append, List.take_succ_cons, cStrOf_append hx, if_neg (by simp)]
  · rw [show size - 1 = s.length by omega, List.take_left, if_neg]
    · exact congrArg some (List.takeWhile_eq_self_iff.2 fun b hb => by
        simpa using fun hz : b = 0 => hx (hz ▸ hb))
    · rintro rfl
      simp only [List.length_nil] at hge
      omega

/-- `len` bytes read into a variable that was 0, as a number. -/
def readNat (big : Bool) (m : GuestMem w) (addr : Word w) (len : Nat) : Nat :=
  let got := guestRead m addr len
  ofBytes big (got ++ List.replicate (len - got.length) 0)

end Emuroot
