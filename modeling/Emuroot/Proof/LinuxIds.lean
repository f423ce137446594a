import Emuroot.Lib.LinuxCreds
import Emuroot.Proof.Fakeroot

/-!
# The fake credentials and those of Linux (`creds.c`)

`step_agrees_iff`: a call does to the fake credentials what Linux does to those of a process whose
capabilities come and go with effective uid 0, unless it sets an id to -1 or is a `setgroups` that
the table's size or an invalid group tells apart. `creds_linux` is that for runs of whole system
calls.
-/

namespace Emuroot

variable {w : Nat} {σ : Type} {c c' : Creds} {k : Linux.Cred}

/-! ## One side -/

/-- One side of the credentials, as Linux keeps it. -/
def Creds.side (c : Creds) (w : Which) : Linux.Side :=
  ⟨(c.ids w).real, (c.ids w).effective, (c.ids w).saved, c.fs w⟩

/-- One side replaced, or the error. -/
def Creds.setSide (c : Creds) (w : Which) : Except Int Linux.Side → Creds × Int
  | .ok s => (c.put w ⟨s.real, s.effective, s.saved⟩ s.fs, 0)
  | .error e => (c, -e)

theorem Creds.put_side (c : Creds) (w : Which) : c.put w (c.ids w) (c.fs w) = c := by
  cases w <;> rfl

@[simp] theorem Creds.side_put (c : Creds) (w : Which) (ids : Ids) (fs : UInt32) :
    (c.put w ids fs).side w = ⟨ids.real, ids.effective, ids.saved, fs⟩ := by
  simp [Creds.side]

theorem Creds.side_put_ne (c : Creds) {w v : Which} (ids : Ids) (fs : UInt32) (h : v ≠ w) :
    (c.put w ids fs).side v = c.side v := by
  obtain ⟨h1, h2⟩ := c.ids_put_ne ids fs h
  rw [Creds.side, h1, h2]
  rfl

theorem setId_eq (w : Which) (c : Creds) {u : UInt32} (hu : u ≠ noid) :
    setId w c u = c.setSide w ((c.side w).setId (privileged c) u) := by
  unfold setId
  split
  · rename_i hp
    rw [Linux.Side.setId_cap hu hp]
    simp [applyIds, hu, Creds.setSide]
  · rename_i hp
    have hp' : privileged c = false := by simpa using hp
    split
    · rename_i h
      rw [Linux.Side.setId_held hu hp' h]
      simp [applyIds, hu, Creds.setSide, Creds.side]
    · rename_i h
      rw [Linux.Side.setId_refused hu hp' h]
      rfl

theorem setreId_eq (w : Which) (c : Creds) (r e : UInt32) (h : (c.ids w).effective ≠ noid) :
    setreId w c r e = c.setSide w ((c.side w).setreId (privileged c) r e) := by
  -- the saved id is set to the new effective one, which is an id
  have hne : (if e ≠ noid then e else (c.ids w).effective) ≠ noid := by
    split
    · assumption
    · exact h
  unfold setreId
  by_cases hr : r ≠ noid ∧ r ≠ (c.ids w).real ∧ r ≠ (c.ids w).effective ∧ privileged c = false
  · rw [Linux.Side.setreId_refused (.inl hr), if_pos (by simp [hr])]
    rfl
  by_cases he : e ≠ noid ∧ in3 (c.ids w) e = false ∧ privileged c = false
  · rw [Linux.Side.setreId_refused (.inr he), if_pos (by simp [he])]
    rfl
  have hgo : ¬(!privileged c && ((r != noid && r != (c.ids w).real && r != (c.ids w).effective) ||
      (e != noid && !in3 (c.ids w) e))) = true := by
    intro hc
    simp only [Bool.and_eq_true, Bool.not_eq_true', Bool.or_eq_true, bne_iff_ne] at hc
    obtain ⟨hp, hc | hc⟩ := hc
    · exact hr ⟨hc.1.1, hc.1.2, hc.2, hp⟩
    · exact he ⟨hc.1, hc.2, hp⟩
  rw [Linux.Side.setreId_ok hr he, if_neg hgo]
  dsimp only [Creds.setSide, applyIds]
  by_cases hs : r ≠ noid ∨ e ≠ noid ∧ e ≠ (c.ids w).real
  · have hs' : r ≠ Linux.noId ∨ e ≠ Linux.noId ∧ e ≠ (c.side w).real := hs
    rw [if_pos hs, if_pos hs', if_pos hne]
    simp only [ne_eq, ite_not]
    rfl
  · have hs' : ¬(r ≠ Linux.noId ∨ e ≠ Linux.noId ∧ e ≠ (c.side w).real) := hs
    rw [if_neg hs, if_neg hs']
    simp only [ne_eq, ite_not, if_true]
    rfl

theorem setresId_eq (w : Which) (c : Creds) (r e s : UInt32) :
    setresId w c r e s = c.setSide w ((c.side w).setresId (privileged c) r e s) := by
  unfold setresId
  by_cases hf : privileged c = false ∧ ∃ u ∈ [r, e, s], u ≠ noid ∧ in3 (c.ids w) u = false
  · rw [Linux.Side.setresId_refused hf, if_pos]
    · rfl
    · obtain ⟨hp, hu⟩ := hf
      simpa [hp, or_assoc] using hu
  · rw [Linux.Side.setresId_ok hf, if_neg]
    · simp only [Creds.setSide, applyIds, ne_eq, ite_not]
      rfl
    · intro hc
      simp only [Bool.and_eq_true, Bool.not_eq_true', Bool.or_eq_true, bne_iff_ne] at hc
      obtain ⟨hp, (hc | hc) | hc⟩ := hc
      · exact hf ⟨hp, r, by simp, hc⟩
      · exact hf ⟨hp, e, by simp, hc⟩
      · exact hf ⟨hp, s, by simp, hc⟩

theorem setfsId_eq (w : Which) (c : Creds) (u : UInt32) :
    setfsId w c u =
      ((c.setSide w (.ok ((c.side w).setfsId (privileged c) u))).1, ((c.side w).fs.toNat : Int)) := by
  unfold setfsId
  by_cases hu : u ≠ noid ∧ (privileged c ∨ u = c.fs w ∨ in3 (c.ids w) u)
  · have hl : u ≠ Linux.noId ∧ (privileged c ∨ (c.side w).holds u ∨ u = (c.side w).fs) :=
      ⟨hu.1, hu.2.imp_right Or.symm⟩
    rw [if_pos hu, Linux.Side.setfsId, if_pos hl]
    rfl
  · have hl : ¬(u ≠ Linux.noId ∧ (privileged c ∨ (c.side w).holds u ∨ u = (c.side w).fs)) :=
      fun h => hu ⟨h.1, h.2.imp_right Or.symm⟩
    rw [if_neg hu, Linux.Side.setfsId, if_neg hl]
    exact congrArg (·, ((c.fs w).toNat : Int)) (c.put_side w).symm

/-! ## A call -/

/-- The call as Linux gets it. -/
def CredCall.linux : CredCall → Linux.Call
  | .setuid u => .setuid u
  | .setgid g => .setgid g
  | .setreuid r e => .setreuid r e
  | .setregid r e => .setregid r e
  | .setresuid r e s => .setresuid r e s
  | .setresgid r e s => .setresgid r e s
  | .setfsuid u => .setfsuid u
  | .setfsgid g => .setfsgid g
  | .setgroups list n => .setgroups n list

/-- The list of a setgroups has as many groups as the call says. -/
def CredCall.Counted : CredCall → Prop
  | .setgroups list n => list.length = n.toNat
  | _ => True

/-- Full capabilities exactly with effective uid 0. -/
def rootCaps (k : Linux.Cred) : Linux.Caps := ⟨k.user.effective == 0, k.user.effective == 0⟩

/-- `k` are the credentials `c`; Linux keeps the groups sorted. -/
structure SameCreds (c : Creds) (k : Linux.Cred) : Prop where
  user : k.user = c.side .user
  group : k.group = c.side .group
  groups : k.groups.Perm c.groups

/-- The fake credentials take the call as Linux does: it does not set an id to -1, and is no
setgroups that succeeds here with the group -1 or fails here for more groups than there is room
for. -/
def AsLinux (c : Creds) : CredCall → Prop
  | .setuid u => u ≠ noid
  | .setgid g => g ≠ noid
  | .setgroups list n => privileged c →
      (n ≤ credsMaxGroups → noid ∉ list) ∧
      (credsMaxGroups < n → n ≤ Linux.ngroupsMax → noid ∈ list)
  | _ => True

theorem SameCreds.caps (h : SameCreds c k) : rootCaps k = ⟨privileged c, privileged c⟩ := by
  rw [rootCaps, h.user]
  rfl

theorem SameCreds.setUser (h : SameCreds c k) (r : Except Int Linux.Side) :
    (c.setSide .user r).2 = (k.setUser r).2 ∧ SameCreds (c.setSide .user r).1 (k.setUser r).1 := by
  cases r with
  | ok s =>
    have hne : Which.group ≠ .user := by decide
    have hs := c.side_put .user ⟨s.real, s.effective, s.saved⟩ s.fs
    exact ⟨rfl, hs.symm, h.group.trans (c.side_put_ne _ _ hne).symm, h.groups⟩
  | error e => exact ⟨rfl, h⟩

theorem SameCreds.setGroup (h : SameCreds c k) (r : Except Int Linux.Side) :
    (c.setSide .group r).2 = (k.setGroup r).2 ∧
      SameCreds (c.setSide .group r).1 (k.setGroup r).1 := by
  cases r with
  | ok s =>
    have hne : Which.user ≠ .group := by decide
    have hs := c.side_put .group ⟨s.real, s.effective, s.saved⟩ s.fs
    exact ⟨rfl, h.user.trans (c.side_put_ne _ _ hne).symm, hs.symm, h.groups⟩
  | error e => exact ⟨rfl, h⟩

theorem setgroups_agrees_iff (h : SameCreds c k) {list : List UInt32} {n : Int}
    (hn : list.length = n.toNat) :
    ((credsSetgroups c list n).2 = (k.setgroups (privileged c) n list).2 ∧
      SameCreds (credsSetgroups c list n).1 (k.setgroups (privileged c) n list).1) ↔
    AsLinux c (.setgroups list n) := by
  unfold AsLinux credsSetgroups Linux.Cred.setgroups
  cases hp : privileged c with
  | false =>
    rw [if_pos (by rfl), if_pos rfl]
    exact iff_of_true ⟨rfl, h⟩ (nomatch ·)
  | true =>
    simp only [Bool.not_true, Bool.false_eq_true, if_false, Bool.true_eq_false, true_imp_iff]
    have hmax : (credsMaxGroups : Int) < Linux.ngroupsMax := Int.ofNat_lt.2 (by decide)
    have hinval : -EINVAL ≠ 0 := by decide
    by_cases hneg : n < 0
    · have hnil : list = [] := List.length_eq_zero_iff.1 (by omega)
      rw [dif_pos (.inl hneg), if_pos (.inl hneg)]
      exact iff_of_true ⟨rfl, h⟩ ⟨fun _ => by simp [hnil], fun hn => absurd hn (by omega)⟩
    by_cases hbig : n > credsMaxGroups
    · rw [dif_pos (.inr hbig)]
      by_cases hlin : n ≤ Linux.ngroupsMax
      · rw [if_neg (by omega)]
        split
        · exact iff_of_true ⟨rfl, h⟩ ⟨fun hn => absurd hn (by omega), fun _ _ => ‹_›⟩
        · rename_i hno
          exact iff_of_false (fun hr => hinval hr.1) fun hr => hno (hr.2 hbig hlin)
      · rw [if_pos (.inr (by omega))]
        exact iff_of_true ⟨rfl, h⟩ ⟨fun hn => absurd hn (by omega), fun _ hn => absurd hn hlin⟩
    · rw [dif_neg (by omega), if_neg (by omega)]
      split
      · rename_i hno
        exact iff_of_false (fun hr => hinval hr.1.symm) fun hr => hr.1 (Int.not_lt.1 hbig) hno
      · rename_i hno
        refine iff_of_true ⟨rfl, h.user, h.group, ?_⟩ ⟨fun _ => hno, fun hn => absurd hn hbig⟩
        have htake : list.take n.toNat = list := List.take_of_length_le (by omega)
        have hperm := List.mergeSort_perm list fun a b => decide (a ≤ b)
        exact hperm.trans (.of_eq htake.symm)

/-- **A call is taken as Linux takes it** exactly when `AsLinux` says so. -/
theorem step_agrees_iff (h : SameCreds c k) (hv : k.Valid) {call : CredCall} (hc : call.Counted) :
    ((call.run c).2 = (call.linux.run (rootCaps k) k).2 ∧
      SameCreds (call.run c).1 (call.linux.run (rootCaps k) k).1) ↔ AsLinux c call := by
  have hu : (c.ids .user).effective ≠ noid := by
    have := hv.user
    rwa [h.user] at this
  have hg : (c.ids .group).effective ≠ noid := by
    have := hv.group
    rwa [h.group] at this
  -- the errors of a call that sets an id to -1
  have hnot : ∀ w, (setId w c noid).2 ≠ -Linux.EINVAL := by
    intro w
    have h0 : (0 : Int) ≠ -Linux.EINVAL := by decide
    have h1 : -EPERM ≠ -Linux.EINVAL := by decide
    unfold setId
    split
    · exact h0
    split
    · exact h0
    · exact h1
  rw [h.caps]
  cases call with
  | setuid u =>
    constructor
    · rintro ⟨hr, -⟩ rfl
      exact hnot .user hr
    · intro hne
      have hs := h.setUser ((c.side .user).setId (privileged c) u)
      rw [← setId_eq .user c hne, ← h.user] at hs
      exact hs
  | setgid u =>
    constructor
    · rintro ⟨hr, -⟩ rfl
      exact hnot .group hr
    · intro hne
      have hs := h.setGroup ((c.side .group).setId (privileged c) u)
      rw [← setId_eq .group c hne, ← h.group] at hs
      exact hs
  | setreuid r e =>
    refine iff_of_true ?_ trivial
    have hs := h.setUser ((c.side .user).setreId (privileged c) r e)
    rw [← setreId_eq .user c r e hu, ← h.user] at hs
    exact hs
  | setregid r e =>
    refine iff_of_true ?_ trivial
    have hs := h.setGroup ((c.side .group).setreId (privileged c) r e)
    rw [← setreId_eq .group c r e hg, ← h.group] at hs
    exact hs
  | setresuid r e s =>
    refine iff_of_true ?_ trivial
    have hs := h.setUser ((c.side .user).setresId (privileged c) r e s)
    rw [← setresId_eq, ← h.user] at hs
    exact hs
  | setresgid r e s =>
    refine iff_of_true ?_ trivial
    have hs := h.setGroup ((c.side .group).setresId (privileged c) r e s)
    rw [← setresId_eq, ← h.group] at hs
    exact hs
  | setfsuid u =>
    refine iff_of_true ?_ trivial
    have hs := (h.setUser (.ok ((c.side .user).setfsId (privileged c) u))).2
    rw [← h.user] at hs
    refine ⟨?_, ?_⟩
    · rw [CredCall.run, credsSetfsuid, setfsId_eq, ← h.user]
      rfl
    · rw [CredCall.run, credsSetfsuid, setfsId_eq, ← h.user]
      exact hs
  | setfsgid u =>
    refine iff_of_true ?_ trivial
    have hs := (h.setGroup (.ok ((c.side .group).setfsId (privileged c) u))).2
    rw [← h.group] at hs
    refine ⟨?_, ?_⟩
    · rw [CredCall.run, credsSetfsgid, setfsId_eq, ← h.group]
      rfl
    · rw [CredCall.run, credsSetfsgid, setfsId_eq, ← h.group]
      exact hs
  | setgroups list n => exact setgroups_agrees_iff h hc

theorem setId_failed {v : Which} {u : UInt32} (h : (setId v c u).2 < 0) : (setId v c u).1 = c := by
  unfold setId at h ⊢
  by_cases hp : privileged c = true
  · rw [if_pos hp] at h
    exact absurd h (Int.lt_irrefl 0)
  rw [if_neg hp] at h ⊢
  split
  · rw [if_pos ‹_›] at h
    exact absurd h (Int.lt_irrefl 0)
  · rfl

theorem setreId_failed {v : Which} {r e : UInt32} (h : (setreId v c r e).2 < 0) :
    (setreId v c r e).1 = c := by
  unfold setreId at h ⊢
  split
  · rfl
  · rw [if_neg ‹_›] at h
    exact absurd h (Int.lt_irrefl 0)

theorem setresId_failed {v : Which} {r e s : UInt32} (h : (setresId v c r e s).2 < 0) :
    (setresId v c r e s).1 = c := by
  unfold setresId at h ⊢
  split
  · rfl
  · rw [if_neg ‹_›] at h
    exact absurd h (Int.lt_irrefl 0)

/-- A call that fails leaves the credentials alone. -/
theorem CredCall.run_failed {call : CredCall} (h : (call.run c).2 < 0) : (call.run c).1 = c := by
  cases call with
  | setuid | setgid => exact setId_failed h
  | setreuid | setregid => exact setreId_failed h
  | setresuid | setresgid => exact setresId_failed h
  | setfsuid | setfsgid => exact absurd h (Int.not_lt.2 (Int.natCast_nonneg _))
  | setgroups list n =>
    unfold CredCall.run credsSetgroups at h ⊢
    dsimp only at h ⊢
    split
    · rfl
    split
    · rfl
    · rw [if_neg ‹_›, dif_neg ‹_›] at h
      exact absurd h (Int.lt_irrefl 0)

/-! ## A whole system call -/

def CredCall.action : CredCall → Action
  | .setuid _ => .setuid
  | .setgid _ => .setgid
  | .setreuid .. => .setreuid
  | .setregid .. => .setregid
  | .setresuid .. => .setresuid
  | .setresgid .. => .setresgid
  | .setfsuid _ => .setfsuid
  | .setfsgid _ => .setfsgid
  | .setgroups .. => .setgroups

/-- The arguments `args`, with memory `mem`, are those of the call. -/
def CredCall.Given (P : Platform w σ) (args : Fin 6 → Word w) (mem : GuestMem w) : CredCall → Prop
  | .setuid u | .setgid u | .setfsuid u | .setfsgid u => id32 (args 0) = u
  | .setreuid r e | .setregid r e => id32 (args 0) = r ∧ id32 (args 1) = e
  | .setresuid r e s | .setresgid r e s =>
    id32 (args 0) = r ∧ id32 (args 1) = e ∧ id32 (args 2) = s
  | .setgroups list n => (args 0).toInt = n ∧ list.length = n.toNat ∧
      guestRead mem (args 1) (list.length * 4) = list.flatMap (bytesU32 P)

/-- The tracee in `s` makes the call; `kern` is what the kernel leaves. -/
structure Makes (P : Platform w σ) (call : CredCall) (s : St w σ) (kern : Kernel w σ) : Prop where
  fakeIds : s.ctx.hasFakeIds
  action : P.actionOf (s.sysno P) = some call.action
  given : call.Given P (fun i => s.arg P (i + 1)) kern.mem

variable {P : Platform w σ}

theorem CredCall.Given.counted {args : Fin 6 → Word w} {mem : GuestMem w} {call : CredCall}
    (h : call.Given P args mem) : call.Counted := by
  cases call with
  | setgroups list n => exact h.2.1
  | _ => trivial

theorem CredCall.action_mem (call : CredCall) : call.action ∈ [Action.setuid, .setgid, .setreuid,
    .setregid, .setresuid, .setresgid, .setfsuid, .setfsgid, .setgroups] := by
  cases call <;> simp [CredCall.action]

theorem CredCall.idAction (call : CredCall) : IdAction call.action :=
  (by decide : ∀ a ∈ [Action.setuid, .setgid, .setreuid, .setregid, .setresuid, .setresgid, .setfsuid,
    .setfsgid, .setgroups], IdAction a) _ call.action_mem

theorem numbersU32_flatMap (list : List UInt32) :
    numbersU32 P.arch.bigEndian list.length (list.flatMap (bytesU32 P)) = list := by
  refine List.ext_getElem (by simp [numbersU32]) fun i h1 h2 => ?_
  have hd : ∀ (l : List UInt32) (i : Nat) (hi : i < l.length),
      ((l.flatMap (bytesU32 P)).drop (4 * i)).take 4 = bytesU32 P l[i] := by
    intro l
    induction l with
    | nil => exact fun i hi => absurd hi (Nat.not_lt_zero _)
    | cons v l ih =>
      intro i hi
      have hv : (bytesU32 P v).length = 4 := length_bytesU32 v
      cases i with
      | zero =>
        rw [List.flatMap_cons, Nat.mul_zero, List.drop_zero, ← hv, List.take_left]
        rfl
      | succ i =>
        rw [List.flatMap_cons, show 4 * (i + 1) = (bytesU32 P v).length + 4 * i by omega,
          List.drop_length_add_append]
        exact ih i (Nat.lt_of_succ_lt_succ hi)
  simp only [numbersU32, List.getElem_map, List.getElem_range, hd list i h2, ofBytes_bytesU32]

/-- The list of a setgroups with no groups, or with too many, is not looked at. -/
theorem credsSetgroups_unread (c : Creds) (list : List UInt32) {n : Int}
    (hn : ¬(n > 0 ∧ n ≤ credsMaxGroups)) : credsSetgroups c [] n = credsSetgroups c list n := by
  unfold credsSetgroups
  split
  · rfl
  split
  · rfl
  · have h0 : n.toNat = 0 := by omega
    simp only [h0, List.take_zero]

/-- What the exit of the call does with the result. -/
theorem emulateResult_creds {s : St w σ} {call : CredCall} (h : call.Given P s.t.args s.mem)
    (ret : Int) :
    (emulateResult P s call.action ret).1.t.creds = (call.run s.t.creds).1 ∧
    (emulateResult P s call.action ret).1.regs = s.regs ∧
    (emulateResult P s call.action ret).2 = (call.run s.t.creds).2 := by
  cases call with
  | setuid | setgid | setfsuid | setfsgid =>
    obtain rfl := h
    exact ⟨rfl, rfl, rfl⟩
  | setreuid | setregid =>
    obtain ⟨rfl, rfl⟩ := h
    exact ⟨rfl, rfl, rfl⟩
  | setresuid | setresgid =>
    obtain ⟨rfl, rfl, rfl⟩ := h
    exact ⟨rfl, rfl, rfl⟩
  | setgroups list n =>
    obtain ⟨rfl, hlen, hread⟩ := h
    show (exitSetgroups P s).1.t.creds = _ ∧ (exitSetgroups P s).1.regs = _ ∧ (exitSetgroups P s).2 = _
    unfold exitSetgroups
    dsimp only
    split
    · have hgot : (s.guestRead (s.t.args 1) ((s.t.args 0).toInt.toNat * 4)).1 =
          list.flatMap (bytesU32 P) := by rw [← hlen]; exact hread
      have hl : (list.flatMap (bytesU32 P)).length = (s.t.args 0).toInt.toNat * 4 := by
        rw [← hlen, List.length_flatMap]
        simp [length_bytesU32]
      simp only [hgot, hl, ne_eq, not_true, if_false]
      rw [← hlen, numbersU32_flatMap]
      exact ⟨rfl, rfl, rfl⟩
    · rename_i hn
      rw [credsSetgroups_unread s.t.creds list hn]
      exact ⟨rfl, rfl, rfl⟩

theorem neutralizeIdChange_t (s : St w σ) (a : Option Action) : (neutralizeIdChange P s a).t = s.t := by
  unfold neutralizeIdChange
  split <;> rfl

theorem neutralizeIdChange_ctx (s : St w σ) (a : Option Action) :
    (neutralizeIdChange P s a).ctx = s.ctx := by
  unfold neutralizeIdChange
  split <;> rfl

theorem plainEntry_creds {s : St w σ} {kern : Kernel w σ} {call : CredCall} (h : Makes P call s kern) :
    plainEntry P s call.action = neutralizeIdChange P (resetCall P s) (some call.action) := by
  have hne : call.action ≠ .chown := fun he => absurd (he ▸ call.action_mem) (by decide)
  unfold plainEntry identityEntry
  rw [if_pos h.fakeIds, if_neg fun he => hne (Option.some.inj he)]

/-- **A credential call as a whole** changes the fake credentials, and returns, as
`CredCall.run`. -/
theorem afterCall_creds {s : St w σ} {kern : Kernel w σ} {call : CredCall} (h : Makes P call s kern) :
    (afterCall P s kern).t.creds = (call.run s.t.creds).1 ∧
    (afterCall P s kern).regs P.arch.ret = BitVec.ofInt w (call.run s.t.creds).2 := by
  have ha := call.idAction
  have hentry := plainEntry_creds h
  have hpe : (plainEntry P s call.action).t = (resetCall P s).t := by
    rw [hentry, neutralizeIdChange_t]
  obtain ⟨hctx, ht, -⟩ := ha.atExit kern h.action
  rw [hpe] at ht
  obtain ⟨buf, he⟩ := afterCall_id ha kern h.action (by rw [hpe]; rfl) (by rw [hpe]; rfl)
  have hargs : (atExit P s kern).t.args = fun i : Fin 6 => s.arg P (i + 1) :=
    congrArg (fun t : Tracee w => t.args) ht
  have hcreds : (atExit P s kern).t.creds = s.t.creds := by
    have hc := congrArg (fun t : Tracee w => t.creds) ht
    exact hc
  have hfake : (atExit P s kern).ctx.hasFakeIds := by
    rw [hctx, hentry, neutralizeIdChange_ctx]
    exact h.fakeIds
  have hgiven : call.Given P (atExit P s kern).t.args (atExit P s kern).mem := hargs ▸ h.given
  obtain ⟨h1, h2, h3⟩ := emulateResult_creds hgiven (kern.regs P.arch.ret).toInt
  rw [he, exitAction_id ha hfake, ← hcreds]
  split
  · refine ⟨h1, ?_⟩
    rw [← h3]
    exact Regs.put_self ..
  · rename_i hr
    refine ⟨h1, ?_⟩
    rw [h2, ← h3, not_not.1 hr]
    exact (BitVec.ofInt_toInt ..).symm

/-! ## Runs -/

/-- A process with credentials `c` makes a call that is taken as Linux takes it, and sees a
result. -/
def EmulatedStep (P : Platform w σ) (c : Creds) (a : CredCall × Word w) (c' : Creds) : Prop :=
  ∃ (s : St w σ) (kern : Kernel w σ), s.t.creds = c ∧ Makes P a.1 s kern ∧ AsLinux c a.1 ∧
    c' = (afterCall P s kern).t.creds ∧ a.2 = (afterCall P s kern).regs P.arch.ret

/-- The call and its result on Linux, for a process with capabilities while its effective uid is
0. -/
def LinuxStep (k : Linux.Cred) (a : CredCall × Word w) (k' : Linux.Cred) : Prop :=
  k' = (a.1.linux.run (rootCaps k) k).1 ∧ a.2 = BitVec.ofInt w (a.1.linux.run (rootCaps k) k).2

/-- The credentials of a process that starts with `uid` and `gid`. -/
def linuxInit (uid gid : UInt32) : Linux.Cred where
  user := ⟨uid, uid, uid, uid⟩
  group := ⟨gid, gid, gid, gid⟩
  groups := [gid]

theorem emulatedStep_linux {a : CredCall × Word w} (hc : SameCreds c k) (hv : k.Valid)
    (h : EmulatedStep P c a c') : ∃ k', LinuxStep k a k' ∧ SameCreds c' k' ∧ k'.Valid := by
  obtain ⟨s, kern, rfl, hm, ha, rfl, hr⟩ := h
  obtain ⟨h1, h2⟩ := afterCall_creds hm
  obtain ⟨hres, hsame⟩ := (step_agrees_iff hc hv hm.given.counted).2 ha
  rw [h1]
  refine ⟨_, ⟨rfl, ?_⟩, hsame, hv.run _ _⟩
  rw [hr, h2, hres]

/-- A call that fails leaves the credentials alone. -/
def FailsClean (c : Creds) (a : CredCall × Word w) (c' : Creds) : Prop :=
  (a.1.run c).2 < 0 → c' = c

theorem emulatedStep_failsClean {a : CredCall × Word w} (h : EmulatedStep P c a c') :
    FailsClean c a c' := by
  obtain ⟨s, kern, rfl, hm, -, rfl, -⟩ := h
  exact fun hf => (afterCall_creds hm).1.trans (CredCall.run_failed hf)

/-- **The fake credentials are those of Linux** in every run of calls, with every result: the real,
effective, saved and fs ids the same and the groups the same. -/
theorem creds_linux {uid gid : UInt32} (huid : uid ≠ noid) (hgid : gid ≠ noid)
    {calls : List (CredCall × Word w)} (h : Run (EmulatedStep P) (credsInit uid gid) calls c) :
    (∃ k, Run LinuxStep (linuxInit uid gid) calls k ∧ SameCreds c k) ∧
      Run FailsClean (credsInit uid gid) calls c := by
  have hstep : ∀ s a s' t, (SameCreds s t ∧ t.Valid) → EmulatedStep P s a s' →
      ∃ t', LinuxStep t a t' ∧ SameCreds s' t' ∧ t'.Valid :=
    fun s a s' t ht hs => emulatedStep_linux ht.1 ht.2 hs
  obtain ⟨k, hk, hsame, -⟩ := h.sim hstep (t := linuxInit uid gid) ⟨⟨rfl, rfl, .refl _⟩, huid, hgid⟩
  exact ⟨⟨k, hk, hsame⟩, h.mono fun _ _ _ => emulatedStep_failsClean⟩

/-- `setuid(id)`, as the fake root -/
def setuidCall (id : Word 64) : St 64 Unit := callState fakeRootCtx (callRegs 105 id 0 0)

def setuidDone (id : Word 64) : Kernel 64 Unit := ⟨callRegs 105 id 0 0, statMem, ()⟩

theorem makes_setuid (id : Word 64) :
    Makes linuxPlatform (.setuid (id32 id)) (setuidCall id) (setuidDone id) :=
  ⟨rfl, by rfl, rfl⟩

theorem creds_linux_setuid :
    ∃ k, Run LinuxStep (linuxInit 0 0) [(.setuid 1000, (0 : Word 64))] k ∧
      SameCreds (afterCall linuxPlatform (setuidCall 1000) (setuidDone 1000)).t.creds k := by
  have hne : AsLinux (credsInit 0 0) (.setuid 1000) := (by decide : (1000 : UInt32) ≠ noid)
  have hrun : Run (EmulatedStep linuxPlatform) (credsInit 0 0) [(.setuid 1000, 0)]
      (afterCall linuxPlatform (setuidCall 1000) (setuidDone 1000)).t.creds :=
    .cons ⟨_, _, rfl, makes_setuid 1000, hne, rfl, by decide +kernel⟩ (.nil _)
  exact (creds_linux (by decide) (by decide) hrun).1

/-- `setuid(-1)` succeeds; Linux answers `EINVAL`. -/
theorem setuid_accepts_noid :
    Makes linuxPlatform (.setuid noid) (setuidCall 0xffffffff) (setuidDone 0xffffffff) ∧
    (setuidCall 0xffffffff).t.creds = credsInit 0 0 ∧
    (afterCall linuxPlatform (setuidCall 0xffffffff) (setuidDone 0xffffffff)).regs
      linuxPlatform.arch.ret = 0 ∧
    ((CredCall.setuid noid).linux.run (rootCaps (linuxInit 0 0)) (linuxInit 0 0)).2 =
      -Linux.EINVAL :=
  ⟨makes_setuid 0xffffffff, rfl, by decide +kernel, by decide⟩

end Emuroot
