import Emuroot.Lib.Ladder
import Emuroot.Model.Access
import Emuroot.Proof.PeekPoke

/-!
# Every way into the guest's memory is the same

`methods_agree`: in a session of reads and writes, with whatever is refused from call to call, each
comes to what `guestRead` and `guestWrite` say, and the method in use only moves on past what was
refused.
-/

namespace Emuroot

variable {w : Nat}

/-- A transfer that is asked for, with the sandbox and the memory as they are by then. -/
structure Xfer (w : Nat) where
  box : Sandbox
  mem : Memory w
  addr : Word w
  buf : List Byte
  writeIt : Bool

/-- What is refused is not permitted, words are accessible as a whole, the address is an `off_t`, and
nothing is written that is write-protected: `process_vm_writev` alone leaves that as it is. -/
structure Xfer.Fair (offBits : Nat) (x : Xfer w) : Prop where
  processVm : ∀ e, x.box.processVm = some e → denied e = true
  procMem : ∀ e, x.box.procMem = some e → denied e = true
  whole : WholeWords x.mem
  short : x.buf.length < 2 ^ (w - 1)
  place : (offT offBits x.addr.toNat).isSome
  protection : x.writeIt = true → x.mem.NoReadOnly x.addr x.buf.length

/-- What `guest_read` and `guest_write` make of a transfer: the memory, and the bytes that were read
or whether all were written. -/
def Xfer.answer (x : Xfer w) (t : Transfer w) : Memory w × (List Byte ⊕ Bool) :=
  (t.mem, if x.writeIt then .inr (t.n == x.buf.length) else .inl (t.buf.take t.n.toNat))

/-- The transfer by `guestRead` or `guestWrite`. -/
def Xfer.plain (x : Xfer w) : Memory w × (List Byte ⊕ Bool) :=
  let m : GuestMem w := { x.mem with errno := 0 }
  if x.writeIt then
    let (m, ok) := guestWrite m x.addr x.buf
    (m.toMemory, .inr ok)
  else (x.mem, .inl (guestRead m x.addr x.buf.length))

section
variable (a : Arch w) (offBits : Nat) (env : MethodEnv)

/-- A session of transfers, with the method in use from then on. -/
def transfers : Option Method → List (Xfer w) → Option Method × List (Transfer w)
  | method, [] => (method, [])
  | method, x :: xs =>
    let (m, t) := transfer a offBits env method x.box x.mem x.addr x.buf x.writeIt
    let (method, ts) := transfers (some m) xs
    (method, t :: ts)

/-- A transfer, unless it is not permitted. -/
def permitted (r : Transfer w × Int) : Option (Transfer w) :=
  if r.1.n ≥ 0 ∨ !denied r.2 then some r.1 else none

/-- The methods that can be given up, and the one that cannot. -/
def methodRungs : List (Xfer w → Option (Transfer w)) :=
  [fun x => permitted (emurootProcessVm x.box x.mem x.addr x.buf x.writeIt),
    fun x => permitted (procMem offBits x.box x.mem x.addr x.buf x.writeIt)]

def lastMethod (x : Xfer w) : Transfer w := (peekPokeTransfer a x.mem x.addr x.buf x.writeIt).1

variable {a offBits env}

/-! ## `transfer` as a ladder -/

/-- A method's answer stands, or the next one is asked. -/
theorem transferStep_ladder (x : Xfer w) (method : Method) :
    (∃ t, transferStep a offBits x.box x.mem x.addr x.buf x.writeIt method = .inr (method, t) ∧
      Ladder.serve (methodRungs offBits) (lastMethod a) method.rank x = (method.rank, t)) ∨
    (transferStep a offBits x.box x.mem x.addr x.buf x.writeIt method = .inl method.next ∧
      Ladder.serve (methodRungs offBits) (lastMethod a) method.rank x =
        Ladder.serve (methodRungs offBits) (lastMethod a) method.next.rank x) := by
  have hstep : ∀ r : Transfer w × Int, transferBy a offBits method x.box x.mem x.addr x.buf x.writeIt = r →
      method ≠ .peekPoke →
      (∃ t, transferStep a offBits x.box x.mem x.addr x.buf x.writeIt method = .inr (method, t) ∧
        permitted r = some t) ∨
      (transferStep a offBits x.box x.mem x.addr x.buf x.writeIt method = .inl method.next ∧
        permitted r = none) := by
    intro r hr hm
    unfold transferStep
    rw [hr]
    dsimp only
    split
    · rename_i h
      rw [← or_assoc] at h
      exact .inl ⟨r.1, rfl, if_pos (h.resolve_right hm)⟩
    · rename_i h
      rw [← or_assoc, not_or] at h
      exact .inr ⟨rfl, if_neg h.1⟩
  cases method with
  | processVm =>
    rcases hstep _ rfl (by decide) with ⟨t, hs, hp⟩ | ⟨hs, hp⟩
    · exact .inl ⟨t, hs, Ladder.serve_some rfl hp⟩
    · exact .inr ⟨hs, Ladder.serve_none rfl hp⟩
  | procMem =>
    rcases hstep _ rfl (by decide) with ⟨t, hs, hp⟩ | ⟨hs, hp⟩
    · exact .inl ⟨t, hs, Ladder.serve_some rfl hp⟩
    · exact .inr ⟨hs, Ladder.serve_none rfl hp⟩
  | peekPoke =>
    refine .inl ⟨lastMethod a x, ?_, Ladder.serve_last (Nat.le_refl 2)⟩
    unfold transferStep
    exact if_pos (.inr (.inr rfl))

/-- **`transfer` climbs the methods.** -/
theorem transfer_serve (a : Arch w) (offBits : Nat) (env : MethodEnv) (method : Option Method) (x : Xfer w) :
    ((transfer a offBits env method x.box x.mem x.addr x.buf x.writeIt).1.rank,
      (transfer a offBits env method x.box x.mem x.addr x.buf x.writeIt).2) =
      Ladder.serve (methodRungs offBits) (lastMethod a) (current env method).rank x := by
  let L : Loop Method (Method × Transfer w) :=
    { step := transferStep a offBits x.box x.mem x.addr x.buf x.writeIt
      measure := fun method => 2 - method.rank
      decreases := transferStep_decreases a offBits }
  obtain ⟨e, he, hs⟩ := L.run_spec
    (I := fun e => Ladder.serve (methodRungs offBits) (lastMethod a) (current env method).rank x =
      Ladder.serve (methodRungs offBits) (lastMethod a) e.rank x)
    (fun e e' hI hs => by
      rcases transferStep_ladder (a := a) x e with ⟨t, ht, -⟩ | ⟨hn, hl⟩
      · exact absurd (hs.symm.trans ht) nofun
      · obtain rfl : e' = e.next := Sum.inl.inj (hs.symm.trans hn)
        exact hI.trans hl)
    (s := current env method) rfl
  change transferStep a offBits x.box x.mem x.addr x.buf x.writeIt e =
    .inr (transfer a offBits env method x.box x.mem x.addr x.buf x.writeIt) at hs
  rcases transferStep_ladder (a := a) x e with ⟨t, ht, hl⟩ | ⟨hn, -⟩
  · rw [← Sum.inr.inj (ht.symm.trans hs), he, hl]
  · exact absurd (hs.symm.trans hn) nofun

theorem transfers_session (a : Arch w) (offBits : Nat) (env : MethodEnv) (method : Option Method)
    (xs : List (Xfer w)) :
    ((current env (transfers a offBits env method xs).1).rank, (transfers a offBits env method xs).2) =
      Ladder.session (methodRungs offBits) (lastMethod a) (current env method).rank xs := by
  induction xs generalizing method with
  | nil => rfl
  | cons x xs ih =>
    have hx := transfer_serve a offBits env method x
    have hxs := ih (some (transfer a offBits env method x.box x.mem x.addr x.buf x.writeIt).1)
    unfold Ladder.session
    dsimp only
    dsimp only [current] at hxs
    rw [← hx]
    dsimp only
    rw [← hxs]
    rfl

end

/-! ## What each method transfers -/

variable {a : Arch w} {offBits : Nat} {x : Xfer w} {m : Memory w} {addr : Word w} {buf : List Byte} {writeIt : Bool}

/-- A transfer of the longest prefix that is accessible. -/
def prefixTransfer (m : Memory w) (addr : Word w) (buf : List Byte) (writeIt : Bool) : Transfer w :=
  (kernelTransfer m EFAULT addr buf writeIt).1

theorem kernelTransfer_fst (fault : Int) :
    (kernelTransfer m fault addr buf writeIt).1 = prefixTransfer m addr buf writeIt := by
  unfold prefixTransfer kernelTransfer
  split
  · dsimp only
    split <;> rfl
  · dsimp only
    split <;> rfl

theorem prefixTransfer_write : prefixTransfer m addr buf true =
    ⟨m.write addr buf, buf,
      if m.writeLen addr buf.length = 0 ∧ buf.length > 0 then -1 else m.writeLen addr buf.length⟩ := by
  unfold prefixTransfer kernelTransfer
  rw [if_pos rfl]
  dsimp only
  split
  · rename_i h
    rw [Memory.write_of_writeLen h.1]
  · rfl

theorem prefixTransfer_read : prefixTransfer m addr buf false =
    ⟨m, buf.splice 0 (m.read addr buf.length),
      if m.read addr buf.length = [] ∧ buf.length > 0 then -1
      else (m.read addr buf.length).length⟩ := by
  unfold prefixTransfer kernelTransfer
  rw [if_neg Bool.false_ne_true]
  dsimp only
  split
  · rename_i h
    rw [h.1]
    simp [List.splice]
  · rfl

theorem kernelTransfer_permitted {fault : Int} (h : denied fault = false) :
    permitted (kernelTransfer m fault addr buf writeIt) = some (prefixTransfer m addr buf writeIt) := by
  rw [← kernelTransfer_fst fault]
  apply if_pos
  unfold kernelTransfer
  split
  · dsimp only
    split
    · exact .inr (by simp [h])
    · exact .inl (Int.natCast_nonneg _)
  · dsimp only
    split
    · exact .inr (by simp [h])
    · exact .inl (Int.natCast_nonneg _)

theorem WholeWords.forced (h : WholeWords m) : WholeWords m.forced where
  byte := h.byte
  writable x hx := ⟨hx, h.byte x hx⟩

/-- Where nothing is write-protected, forcing the access makes no difference. -/
theorem forced_prefixTransfer (h : writeIt = true → m.NoReadOnly addr buf.length) :
    (prefixTransfer m.forced addr buf writeIt).protect m = prefixTransfer m addr buf writeIt := by
  cases writeIt with
  | true =>
    have hro := h rfl
    have hmem : { m.forced.write addr buf with writable := m.writable } = m.write addr buf :=
      Memory.ext_byte (congrFun (Memory.forced_write hro)) (Memory.write_writable m addr buf).symm
    rw [prefixTransfer_write, prefixTransfer_write, Memory.forced_writeLen hro, Transfer.protect]
    rw [hmem]
  | false =>
    rw [prefixTransfer_read, prefixTransfer_read, Memory.forced_read]
    rfl

theorem emurootProcessVm_permitted (h : x.Fair offBits) {t : Transfer w}
    (ht : permitted (emurootProcessVm x.box x.mem x.addr x.buf x.writeIt) = some t) :
    t = prefixTransfer x.mem x.addr x.buf x.writeIt := by
  unfold emurootProcessVm at ht
  split at ht
  · rename_i e he
    have hd := h.processVm e he
    simp [permitted, hd] at ht
  · rw [kernelTransfer_permitted (by decide)] at ht
    exact (Option.some.inj ht).symm

theorem procMem_permitted (h : x.Fair offBits) {t : Transfer w}
    (ht : permitted (procMem offBits x.box x.mem x.addr x.buf x.writeIt) = some t) :
    t = prefixTransfer x.mem x.addr x.buf x.writeIt := by
  unfold procMem at ht
  split at ht
  · rename_i e he
    have hd := h.procMem e he
    simp [permitted, hd] at ht
  obtain ⟨_, hplace⟩ := Option.isSome_iff_exists.1 h.place
  rw [hplace] at ht
  · have hp : permitted (kernelTransfer x.mem.forced EIO x.addr x.buf x.writeIt) =
        some (prefixTransfer x.mem.forced x.addr x.buf x.writeIt) :=
      kernelTransfer_permitted (by decide)
    dsimp only [permitted, Transfer.protect] at ht hp
    split at hp
    · rename_i hn
      rw [if_pos hn] at ht
      rw [← forced_prefixTransfer h.protection, ← Option.some.inj hp]
      exact (Option.some.inj ht).symm
    · cases hp

/-- In memory of whole words `peek_poke` transfers the longest prefix that is accessible. -/
theorem peekPoke_prefix (a : Arch w) (h : WholeWords m) (hlen : buf.length < 2 ^ (w - 1)) :
    (⟨(peekPoke a m addr buf writeIt).1.mem, (peekPoke a m addr buf writeIt).1.buf,
      (peekPoke a m addr buf writeIt).2.toInt⟩ : Transfer w) = prefixTransfer m addr buf writeIt := by
  obtain ⟨s, heq, hs, hlong⟩ := peekPoke_spec a m addr buf writeIt
  have hret : (peekPoke a m addr buf writeIt).2.toInt =
      if s.done = 0 ∧ buf.length > 0 then -1 else (s.done : Int) := by
    rw [← toInt_ret a (Nat.lt_of_le_of_lt hlong.le hlen), ← heq]
    rfl
  rw [hret, heq]
  cases writeIt with
  | true =>
    obtain ⟨hmem, hbuf⟩ := hs.writes rfl
    have hcan : m.canWrite addr s.done = true := Memory.canWrite_iff.2 fun i hi =>
      ((hs.inside i hi).byte a).2 rfl
    have hstop : s.done < buf.length → m.writable (addr + BitVec.ofNat w s.done) = false := by
      intro hlt
      by_contra hne
      have hw : m.writable (addr + BitVec.ofNat w s.done) = true := by simpa using hne
      exact hlong.stop hlt (h.accessible (h.writable _ hw).1 fun _ => hw)
    rw [prefixTransfer_write, Memory.writeLen_eq hlong.le hcan hstop, hmem, hbuf,
      Memory.write_take hlong.le hcan hstop]
  | false =>
    obtain ⟨hmem, hbuf⟩ := hs.reads rfl
    have hgot := hs.length_read a
    have hall : m.read addr buf.length = m.read addr s.done := by
      have hrest := Memory.read_split hgot (buf.length - s.done)
      rw [Nat.add_sub_cancel' hlong.le] at hrest
      rw [hrest]
      obtain hlt | hge := Nat.lt_or_ge s.done buf.length
      · have hnone : m.byte (addr + BitVec.ofNat w s.done) = none := by
          by_contra hne
          exact hlong.stop hlt (h.accessible (Option.isSome_iff_ne_none.2 hne) nofun)
        rw [(Memory.read_eq_nil (by omega)).2 hnone, List.append_nil]
      · rw [show buf.length - s.done = 0 by omega, Memory.read, List.append_nil]
    have hnil : m.read addr s.done = [] ↔ s.done = 0 := by
      rw [← List.length_eq_zero_iff, hgot]
    rw [prefixTransfer_read, hall, hmem, hbuf, hgot, List.splice, hgot]
    simp [hnil]

theorem peekPokeTransfer_eq (a : Arch w) (h : x.Fair offBits) :
    lastMethod a x = prefixTransfer x.mem x.addr x.buf x.writeIt := by
  rw [← forced_prefixTransfer h.protection, ← peekPoke_prefix a h.whole.forced h.short]
  rfl

/-- Every method makes the same transfer, if it is permitted. -/
theorem serves_methods (a : Arch w) (h : x.Fair offBits) :
    Ladder.Serves (methodRungs offBits) (lastMethod a)
      (fun x => prefixTransfer x.mem x.addr x.buf x.writeIt) x where
  rung r hr t ht := by
    rcases List.mem_cons.1 hr with rfl | hr
    · exact emurootProcessVm_permitted h ht
    · obtain rfl := List.mem_singleton.1 hr
      exact procMem_permitted h ht
  last := peekPokeTransfer_eq a h

/-- The transfer is `guestRead` or `guestWrite`. -/
theorem answer_prefixTransfer (x : Xfer w) :
    x.answer (prefixTransfer x.mem x.addr x.buf x.writeIt) = x.plain := by
  unfold Xfer.answer Xfer.plain guestWrite guestRead
  cases x.writeIt with
  | true =>
    have hok : ((if x.mem.writeLen x.addr x.buf.length = 0 ∧ x.buf.length > 0 then (-1 : Int)
        else x.mem.writeLen x.addr x.buf.length) == x.buf.length) =
        x.mem.canWrite x.addr x.buf.length := by
      rw [Bool.eq_iff_iff, ← Memory.writeLen_iff, beq_iff_eq]
      split <;> omega
    rw [prefixTransfer_write]
    simp [hok]
  | false =>
    have hn : (if x.mem.read x.addr x.buf.length = [] ∧ x.buf.length > 0 then (-1 : Int)
        else (x.mem.read x.addr x.buf.length).length).toNat =
        (x.mem.read x.addr x.buf.length).length := by
      split
      · rename_i h
        rw [h.1]
        rfl
      · rfl
    rw [prefixTransfer_read]
    simp [hn, List.splice]

/-- The sandbox refuses the method. -/
def Xfer.Refuses (x : Xfer w) : Method → Prop
  | .processVm => x.box.processVm.isSome
  | .procMem => x.box.procMem.isSome
  | .peekPoke => False

theorem permitted_kernelTransfer {fault : Int} (h : denied fault = false) :
    permitted (kernelTransfer m fault addr buf writeIt) ≠ none := by
  rw [kernelTransfer_permitted h]
  exact Option.some_ne_none _

/-- A method that is given up was refused. -/
theorem refuses_of_rung {method : Method} {r : Xfer w → Option (Transfer w)}
    (hr : (methodRungs offBits)[method.rank]? = some r) (hx : r x = none) : x.Refuses method := by
  cases method with
  | processVm =>
    cases hr
    dsimp only [emurootProcessVm] at hx
    split at hx
    · rename_i e he
      exact Option.isSome_iff_exists.2 ⟨e, he⟩
    · exact absurd hx (permitted_kernelTransfer (by decide))
  | procMem =>
    cases hr
    dsimp only [procMem] at hx
    split at hx
    · rename_i e he
      exact Option.isSome_iff_exists.2 ⟨e, he⟩
    · exfalso
      split at hx
      · have hinval : denied EINVAL = false := by decide
        simp [permitted, hinval] at hx
      · have hio : denied EIO = false := by decide
        apply permitted_kernelTransfer hio
        · unfold permitted at hx ⊢
          split at hx
          · cases hx
          · rename_i hn
            exact if_neg hn
  | peekPoke => cases hr

/-- **Every way into the guest's memory is the same.** Whatever the sandbox refuses from call to call:
each read and each write of a session comes to what `guestRead` and `guestWrite` say of the memory
as it is by then. The method in use only moves on, past methods that the session saw refused. -/
theorem methods_agree (a : Arch w) (offBits : Nat) (env : MethodEnv) (method : Option Method)
    (xs : List (Xfer w)) (h : ∀ x ∈ xs, x.Fair offBits) :
    List.zipWith Xfer.answer xs (transfers a offBits env method xs).2 = xs.map Xfer.plain ∧
      ∀ m : Method, (current env method).rank ≤ m.rank →
        m.rank < (current env (transfers a offBits env method xs).1).rank → ∃ x ∈ xs, x.Refuses m := by
  have hsession := transfers_session a offBits env method xs
  have hrank := congrArg Prod.fst hsession
  have hanswers := congrArg Prod.snd hsession
  dsimp only at hrank hanswers
  constructor
  · rw [hanswers, Ladder.session_answers fun x hx => serves_methods a (h x hx), List.zipWith_map_right,
      List.zipWith_self]
    exact List.map_congr_left fun x _ => answer_prefixTransfer x
  · intro m hle hlt
    have hk : (current env method).rank ≤ (methodRungs (w := w) offBits).length := by
      cases current env method <;> simp [Method.rank, methodRungs]
    rw [hrank] at hlt
    obtain ⟨x, hx, r, hr, hnone⟩ := (Ladder.session_use hk).2.2 m.rank hle hlt
    exact ⟨x, hx, refuses_of_rung hr hnone⟩

/-- Sevens everywhere. -/
def sevens : Memory 64 := ⟨fun _ => some 7, fun _ => true⟩

/-- A write while `process_vm_writev` is permitted, and a read once all but `PTRACE_PEEKDATA` is
refused. -/
def shrinkingSandbox : List (Xfer 64) :=
  [⟨⟨none, none⟩, sevens, 4099, [1, 2], true⟩,
    ⟨⟨some 1, some 13⟩, sevens.write 4099 [1, 2], 4098, [0, 0, 0, 0], false⟩]

theorem methods_agree_shrinking :
    List.zipWith Xfer.answer shrinkingSandbox
        (transfers x86_64 64 ⟨none, false⟩ none shrinkingSandbox).2 =
      [(sevens.write 4099 [1, 2], .inr true),
        (sevens.write 4099 [1, 2], .inl ((sevens.write 4099 [1, 2]).read 4098 4))] := by
  refine (methods_agree x86_64 64 ⟨none, false⟩ none shrinkingSandbox fun x hx => ?_).1
  have hbyte : ∀ y, ((sevens.write 4099 [1, 2]).byte y).isSome := fun y =>
    Memory.isSome_write y rfl
  have hwritable : ∀ y, (sevens.write 4099 [1, 2]).writable y = true := fun y => by
    rw [Memory.write_writable]
    rfl
  rcases List.mem_cons.1 hx with rfl | hx
  · exact ⟨nofun, nofun, ⟨fun _ _ _ _ => rfl, fun _ _ => ⟨rfl, fun _ _ => rfl⟩⟩, by decide,
      by decide, fun _ _ _ => rfl⟩
  · obtain rfl := List.mem_singleton.1 hx
    refine ⟨?_, ?_, ⟨fun _ _ _ _ => hbyte _, fun _ _ => ⟨hbyte _, fun _ _ => hwritable _⟩⟩, by decide,
      by decide, nofun⟩
    · rintro e ⟨⟩
      decide
    · rintro e ⟨⟩
      decide

end Emuroot
