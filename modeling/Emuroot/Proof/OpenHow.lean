import Emuroot.Model.Linux
import Emuroot.Proof.AtCalls
import Emuroot.Proof.Recorded

/-!
# openat and openat2

`HowCall`: the same process calls openat with some flags, or openat2 with these flags in its
`open_how`. `openat2_like_openat_iff`: the entry treats the two alike exactly for the flags, and at
the places, where the three readers of the flags (`followLast`, `dacFor`, `createsFile`) agree.
-/

namespace Emuroot

variable {w : Nat} {σ : Type}

/-- `struct open_how` with `resolve` 0 -/
def openHow (big : Bool) (flags mode : Word w) : List Byte :=
  toBytes big 8 flags.toNat ++ toBytes big 8 mode.toNat ++ toBytes big 8 0

/-- What a call with its path in argument 2 leaves to the kernel and to the handler of its exit. -/
structure Handed (w : Nat) (σ : Type) where
  path : Word w
  mem : GuestMem w
  fs : σ
  created : CStr

section
variable (P : Platform w σ)

def St.handed (s : St w σ) : Handed w σ := ⟨s.arg P 2, s.mem, s.fs, s.t.created⟩

/-- A process is about to call openat in `s`, or openat2 in `s'`, with the same directory, path,
flags and mode. -/
structure HowCall (flags mode : Word w) (s s' : St w σ) : Prop where
  t : s'.t.sansCall = s.t.sansCall
  mem : s'.mem = s.mem
  ctx : s'.ctx = s.ctx
  fs : s'.fs = s.fs
  sp : s'.regs P.arch.sp = s.regs P.arch.sp
  call : P.nr.is .openat (s.sysno P)
  call' : P.nr.is .openat2 (s'.sysno P)
  dirfd : s'.arg P 1 = s.arg P 1
  path : s'.arg P 2 = s.arg P 2
  word : s.arg P 3 = flags
  how : s.mem.read (s'.arg P 3) 24 = openHow P.arch.bigEndian flags mode

/-- The guest path that `rewrite_path_arg` looks up for an openat, where it gets that far. -/
def lookedUp (s : St w σ) : Option CStr :=
  if unmapped s.ctx s.t.root then none
  else (givenPath P s 2).bind fun given => absoluteGuestPath P s 1 given (2 * pathLen)

/-- `ensure_dac` is asked for permissions, and can give some. -/
def Granting (s : St w σ) : Prop :=
  (lookedUp P s).isSome ∧ s.ctx.hasFakeIds = true ∧ s.t.creds.uid.effective = 0 ∧ P.geteuid ≠ 0

/-- The entry treats the two calls alike: what it decides about a last symlink, the permission that
it asks for, and what it leaves behind, are the same. -/
structure SameTreatment (s s' : St w σ) : Prop where
  follow : (lookedUp P s).isSome → ∀ d ∈ findPathSyscall P.nr (s.sysno P),
    ∀ d' ∈ findPathSyscall P.nr (s'.sysno P), followLast P s' d' = followLast P s d
  need : Granting P s → dacFor P s' (s'.sysno P) 0 = dacFor P s (s.sysno P) 0
  handed : (onEntry P s').handed P = (onEntry P s).handed P

/-- An openat with these flags makes a file whose owner is to be recorded. -/
def NoteDue (s : St w σ) (flags : Word w) : Prop :=
  s.ctx.hasFakeIds = true ∧
  ¬(s.t.creds.fsuid = s.ctx.fakeUid ∧ s.t.creds.fsgid = s.ctx.fakeGid) ∧
  flag flags O_CREAT = true ∧
  ∃ host ≠ [], hostPathArg P s (s.sysno P) 2 false = some host ∧ P.lstat s.fs host = none

/-- Where a path is looked up the flags do not ask for a new file that no link leads to, where a
permission is given they ask for reading, and no new file is to be recorded. -/
structure FlagsAgree (s : St w σ) (flags : Word w) : Prop where
  follow : (lookedUp P s).isSome →
    flags.toNat &&& (O_CREAT ||| O_EXCL) = O_CREAT ||| O_EXCL → flag flags P.oNofollow = true
  need : Granting P s →
    flag flags O_CREAT = false ∧ flags.toNat &&& O_ACCMODE = 0 ∧ flag flags O_TRUNC = false
  note : ¬NoteDue P s flags

end

variable {P : Platform w σ} {s s' : St w σ} {flags mode : Word w}

theorem openLike_eq_read_iff :
    openLike flags = .read ↔
      flag flags O_CREAT = false ∧ flags.toNat &&& O_ACCMODE = 0 ∧ flag flags O_TRUNC = false := by
  unfold openLike
  cases flag flags O_CREAT <;> cases flag flags O_TRUNC <;>
    by_cases h : flags.toNat &&& O_ACCMODE = 0 <;> simp [h]

/-! ## Rewriting what is looked up alike -/

theorem repoint_handed (ht : s'.t.sansCall = s.t.sansCall) (hm : s'.mem = s.mem)
    (hf : s'.fs = s.fs) (host : CStr) :
    (repoint P s' 2 host).handed P = (repoint P s 2 host).handed P := by
  have htop : s'.t.scratchTop = s.t.scratchTop := congrArg (·.scratchTop) ht
  have hcreated : s'.t.created = s.t.created := congrArg (·.created) ht
  have hset : ∀ (u u' : St w σ) (v : Word w), u'.mem = u.mem → u'.fs = u.fs →
      u'.t.created = u.t.created → (u'.setArg P 2 v).handed P = (u.setArg P 2 v).handed P := by
    intro u u' v h1 h2 h3
    simp only [St.handed, arg_setArg]
    simp only [St.setArg, h1, h2, h3]
  unfold repoint scratch failClosed
  rw [htop]
  dsimp only
  by_cases hroom : (s.t.scratchTop - BitVec.ofNat w (host.length + 1)) &&& ~~~15#w > s.t.scratchTop
  · rw [if_pos hroom, if_pos hroom]
    exact hset _ _ _ hm hf hcreated
  · rw [if_neg hroom, if_neg hroom]
    dsimp only
    rw [hm]
    split
    · exact hset _ _ _ rfl hf hcreated
    · split <;> exact hset _ _ _ rfl hf hcreated

theorem rewriteGuest_handed {x x' : Int} {follow follow' : Bool} {guest : CStr}
    (ht : s'.t.sansCall = s.t.sansCall) (hm : s'.mem = s.mem) (hc : s'.ctx = s.ctx)
    (hf : s'.fs = s.fs) (hp : s'.arg P 2 = s.arg P 2) (hl : isReadlink P.nr x = false)
    (hl' : isReadlink P.nr x' = false) (hfollow : follow' = follow)
    (hneed : s.ctx.hasFakeIds = true → s.t.creds.uid.effective = 0 → P.geteuid ≠ 0 →
      dacFor P s' x' 0 = dacFor P s x 0) :
    (rewriteGuest P s' x' 2 follow' 0 guest).handed P =
      (rewriteGuest P s x 2 follow 0 guest).handed P := by
  have hroot : s'.t.root = s.t.root := congrArg (·.root) ht
  have hcreds : s'.t.creds = s.t.creds := congrArg (·.creds) ht
  have hcreated : s'.t.created = s.t.created := congrArg (·.created) ht
  have henv : s'.walkEnv P follow' = s.walkEnv P follow := by
    simp only [St.walkEnv, hc, hf, hroot, hfollow]
  unfold rewriteGuest
  simp only [hl, hl', Bool.and_false, Bool.false_eq_true, if_false, henv, hc, hcreds]
  generalize translatePath (s.walkEnv P follow) guest pathLen = r
  -- the host once the permissions are given
  have hgrant : ∀ c : Prop, [Decidable c] →
      (c → s.ctx.hasFakeIds = true ∧ s.t.creds.uid.effective = 0) →
      ∀ g g' : St w σ, g = (if c then grantAccess P s x 0 r.out else s) →
        g' = (if c then grantAccess P s' x' 0 r.out else s') →
        g'.t = s'.t ∧ g.t = s.t ∧ g'.mem = g.mem ∧ g'.fs = g.fs ∧ g'.arg P 2 = g.arg P 2 := by
    intro c _ hi g g' hg hg'
    by_cases h : c
    · rw [if_pos h] at hg hg'
      subst hg hg'
      refine ⟨rfl, rfl, hm, ?_, hp⟩
      show ensureDac P s'.fs r.out (dacFor P s' x' 0) = ensureDac P s.fs r.out (dacFor P s x 0)
      rw [hf]
      by_cases he : P.geteuid = 0
      · simp [ensureDac, he]
      · rw [hneed (hi h).1 (hi h).2 he]
    · rw [if_neg h] at hg hg'
      subst hg hg'
      exact ⟨rfl, rfl, hm, hf, hp⟩
  rcases hgrant _ id _ _ rfl rfl with ⟨h1, h2, h3, h4, h5⟩
  split
  · apply repoint_handed _ h3 h4
    rw [h1, h2, ht]
  · simp only [St.handed, h3, h4, h5, h1, h2, hcreated]

/-! ## The two calls -/

namespace HowCall

/-- The flags as openat2 reads them. -/
theorem readNat_eq (h : HowCall P flags mode s s') :
    readNat P.arch.bigEndian s'.mem (s'.arg P 3) 8 = flags.toNat := by
  have hlt : flags.toNat < 256 ^ 8 := by
    refine Nat.lt_of_lt_of_le flags.isLt ?_
    have : (256 : Nat) ^ 8 = 2 ^ 64 := by decide
    rw [this]
    apply Nat.pow_le_pow_right (by decide)
    have := P.arch.bits
    omega
  have hread := Memory.read_take (m := s.mem.toMemory) (a := s'.arg P 3) (k := 8) (n := 24)
    (by decide)
  rw [h.how, openHow, List.append_assoc, List.take_left' (length_toBytes ..)] at hread
  unfold readNat guestRead
  rw [h.mem, ← hread]
  simp [ofBytes_toBytes _ hlt]

theorem strictOpenat2_eq (h : HowCall P flags mode s s') :
    strictOpenat2 P s' (s'.sysno P) 2 = false := by
  unfold strictOpenat2 guestRead
  rw [h.mem, h.how]
  have hlen : (openHow P.arch.bigEndian flags mode).length = 24 := by simp [openHow]
  have hresolve : (openHow P.arch.bigEndian flags mode).drop 16 = toBytes P.arch.bigEndian 8 0 :=
    List.drop_left' (by simp)
  simp only [hlen, Nat.sub_self, List.replicate_zero, List.append_nil, hresolve]
  rw [ofBytes_toBytes _ (by decide)]
  simp

theorem entry (h : HowCall P flags mode s s') :
    findPathSyscall P.nr (s.sysno P) = some ⟨.openat, 2, 0, .open, 3⟩ :=
  (findPathSyscall_of_is h.call).trans rfl

theorem entry' (h : HowCall P flags mode s s') :
    findPathSyscall P.nr (s'.sysno P) = some ⟨.openat2, 2, 0, .openat2, 3⟩ :=
  (findPathSyscall_of_is h.call').trans rfl

theorem dac (h : HowCall P flags mode s s') : dacFor P s (s.sysno P) 0 = openLike flags := by
  simp [dacFor, Numbers.is_eq h.call, h.word]

theorem dac' (h : HowCall P flags mode s s') : dacFor P s' (s'.sysno P) 0 = .read := by
  simp [dacFor, Numbers.is_eq h.call']

theorem lookedUp_eq (h : HowCall P flags mode s s') : lookedUp P s' = lookedUp P s := by
  have hroot : s'.t.root = s.t.root := congrArg (·.root) h.t
  have hpid : s'.t.pid = s.t.pid := congrArg (·.pid) h.t
  unfold lookedUp givenPath absoluteGuestPath
  simp only [h.ctx, hroot, hpid, h.path, h.mem, h.dirfd, h.fs]

/-- The two decisions about a last symlink. -/
theorem follow_iff (h : HowCall P flags mode s s') :
    followLast P s' ⟨.openat2, 2, 0, .openat2, 3⟩ = followLast P s ⟨.openat, 2, 0, .open, 3⟩ ↔
      (flags.toNat &&& (O_CREAT ||| O_EXCL) = O_CREAT ||| O_EXCL → flag flags P.oNofollow = true) := by
  have hread := h.readNat_eq
  simp only [followLast, ne_eq, OfNat.ofNat_ne_zero, not_false_eq_true, if_true, hread, h.word, flag]
  by_cases hnf : flags.toNat &&& P.oNofollow = 0
  · by_cases hce : flags.toNat &&& (O_CREAT ||| O_EXCL) = O_CREAT ||| O_EXCL <;> simp [hnf, hce]
  · have heq : (flags.toNat &&& P.oNofollow == 0) = false := by simpa using hnf
    simp only [bne, heq, Bool.not_false, Bool.not_true, Bool.false_and, implies_true]

/-- openat notes a new file. -/
theorem note (h : HowCall P flags mode s s') :
    ∃ created, noteCreation P (resetCall P s) (s.sysno P) ⟨.openat, 2, 0, .open, 3⟩ =
        withNotes P s none created ∧ (created = [] ↔ ¬NoteDue P s flags) := by
  have hcreates : createsFile P (resetCall P s) (s.sysno P) = flag flags O_CREAT := by
    have harg : (resetCall P s).arg P 3 = flags := h.word
    simp [createsFile, Numbers.is_eq h.call, harg]
  have hhost : hostPathArg P (resetCall P s) (s.sysno P) 2 false =
      hostPathArg P s (s.sysno P) 2 false := rfl
  have hctx : (resetCall P s).ctx = s.ctx := rfl
  have hcreds : (resetCall P s).t.creds = s.t.creds := rfl
  have hfs : (resetCall P s).fs = s.fs := rfl
  unfold noteCreation NoteDue
  rw [hcreates, hhost, hctx, hcreds, hfs]
  dsimp only
  split
  · rename_i hids
    refine ⟨[], rfl, ?_⟩
    simp only [true_iff]
    rintro ⟨hf, hne, -⟩
    simp [hf, hne] at hids
  split
  · rename_i hc
    refine ⟨[], rfl, ?_⟩
    simp only [true_iff]
    rintro ⟨-, -, hcr, -⟩
    simp [hcr] at hc
  rename_i hids hc
  simp only [Bool.or_eq_true, Bool.not_eq_true', Bool.and_eq_true, beq_iff_eq, not_or] at hids hc
  cases hh : hostPathArg P s (s.sysno P) 2 false with
  | none => exact ⟨[], rfl, by simp⟩
  | some host =>
    refine ⟨_, rfl, ?_⟩
    cases hst : P.lstat s.fs host with
    | none =>
      have hf := Bool.not_eq_false _ ▸ hids.1
      simp [hf, hids.2, hc, hst]
    | some st => simp [hst]

/-- openat2 notes none. -/
theorem note' (h : HowCall P flags mode s s') :
    noteCreation P (resetCall P s') (s'.sysno P) ⟨.openat2, 2, 0, .openat2, 3⟩ =
      withNotes P s' none [] := by
  have hcreates : createsFile P (resetCall P s') (s'.sysno P) = false := by
    simp [createsFile, Numbers.is_eq h.call']
  unfold noteCreation
  rw [hcreates]
  split <;> rfl

end HowCall

/-- `rewrite_path_arg` on the path of an openat, by what it looks up. -/
theorem rewritePathArg_lookedUp {u : St w σ} {x : Int} (hd : dirfdSlot P.nr x 2 = 1)
    (hs : strictOpenat2 P u x 2 = false) (follow : Bool) :
    rewritePathArg P u x 2 follow 0 =
      match lookedUp P u with
      | some guest => rewriteGuest P u x 2 follow 0 guest
      | none =>
        if ¬unmapped u.ctx u.t.root ∧ u.arg P 2 ≠ 0 ∧
            guestReadStr u.mem (u.arg P 2) pathLen = none ∧ u.mem.errno ≠ EFAULT then
          failClosed P u 2
        else u := by
  rw [rewritePathArg_eq, hd, hs]
  unfold lookedUp givenPath
  by_cases hun : unmapped u.ctx u.t.root = true
  · simp [hun]
  by_cases harg : u.arg P 2 = 0
  · simp [hun, harg]
  simp only [hun, harg, OfNat.ofNat_ne_zero, false_or, if_false, Bool.false_eq_true, and_false]
  cases hread : guestReadStr u.mem (u.arg P 2) pathLen with
  | none =>
    by_cases he : u.mem.errno = EFAULT
    · simp [he]
    · simp only [he, ne_eq, not_false_eq_true, if_true, and_self]
      exact (if_pos ⟨trivial, harg, trivial⟩).symm
  | some given =>
    by_cases hne : given = []
    · simp [hne, Option.filter]
    · simp only [hne, if_false, Option.filter_some, ne_eq, not_false_eq_true, decide_true, if_true,
        Option.bind_some, reduceCtorEq, false_and, and_false]
      cases absoluteGuestPath P u 1 given (2 * pathLen) <;> rfl

namespace HowCall

theorem onEntry_eq (h : HowCall P flags mode s s') :
    ∃ created, (created = [] ↔ ¬NoteDue P s flags) ∧
      onEntry P s = rewritePathArg P (withNotes P s none created) (s.sysno P) 2
        (followLast P s ⟨.openat, 2, 0, .open, 3⟩) 0 := by
  have hact : P.actionOf (s.sysno P) = none :=
    (actionOf_of_is h.call).trans (by cases lp64 w <;> rfl)
  rcases h.note with ⟨created, hnote, hc⟩
  refine ⟨created, hc, ?_⟩
  have htame := onEntry_tame h.call (by decide) h.entry (by rw [hact]; decide)
  rw [chownNoted, hact, if_neg (by simp)] at htame
  rw [htame, rewriteTable, hnote, rewritePathArg_eq _ _ _ 0, if_pos (.inl rfl)]
  rfl

theorem onEntry_eq' (h : HowCall P flags mode s s') :
    onEntry P s' = rewritePathArg P (withNotes P s' none []) (s'.sysno P) 2
      (followLast P s' ⟨.openat2, 2, 0, .openat2, 3⟩) 0 := by
  have hact : P.actionOf (s'.sysno P) = none :=
    (actionOf_of_is h.call').trans (by cases lp64 w <;> rfl)
  have hpaths : rewritePaths P (resetCall P s') (s'.sysno P) =
      rewriteTable P (resetCall P s') (s'.sysno P) ⟨.openat2, 2, 0, .openat2, 3⟩ := by
    unfold rewritePaths
    rw [h.entry']
    simp [Numbers.is_eq h.call']
  have hn : onEntry P s' = rewritePaths P (resetCall P s') (s'.sysno P) := onEntry_noAction hact
  rw [hn, hpaths, rewriteTable, h.note', rewritePathArg_eq _ _ _ 0, if_pos (.inl rfl)]
  rfl

/-- The note that the path's rewrite leaves. -/
theorem created_rewritePathArg (u : St w σ) (x : Int) (follow : Bool) :
    (rewritePathArg P u x 2 follow 0).t.created = u.t.created :=
  congrArg (·.created) (rewritePathArg_frame u x 2 follow 0).t

/-- Where nothing is noted and the decisions agree, the path is rewritten alike. -/
theorem handed (h : HowCall P flags mode s s')
    (hfollow : (lookedUp P s).isSome → followLast P s' ⟨.openat2, 2, 0, .openat2, 3⟩ =
      followLast P s ⟨.openat, 2, 0, .open, 3⟩)
    (hneed : Granting P s → openLike flags = .read) :
    (rewritePathArg P (withNotes P s' none []) (s'.sysno P) 2
        (followLast P s' ⟨.openat2, 2, 0, .openat2, 3⟩) 0).handed P =
      (rewritePathArg P (withNotes P s none []) (s.sysno P) 2
        (followLast P s ⟨.openat, 2, 0, .open, 3⟩) 0).handed P := by
  have hd : dirfdSlot P.nr (s.sysno P) 2 = 1 := by simp [dirfdSlot, Numbers.is_eq h.call]
  have hd' : dirfdSlot P.nr (s'.sysno P) 2 = 1 := by simp [dirfdSlot, Numbers.is_eq h.call']
  have hs : strictOpenat2 P (withNotes P s none []) (s.sysno P) 2 = false := by
    simp [strictOpenat2, Numbers.is_eq h.call]
  have hs' : strictOpenat2 P (withNotes P s' none []) (s'.sysno P) 2 = false := h.strictOpenat2_eq
  have hup : lookedUp P (withNotes P s none []) = lookedUp P s := rfl
  have hup' : lookedUp P (withNotes P s' none []) = lookedUp P s := h.lookedUp_eq
  have ht : (withNotes P s' none []).t.sansCall = (withNotes P s none []).t.sansCall := by
    have hscratch : s'.regs P.arch.sp = s.regs P.arch.sp := h.sp
    have ht := congrArg (fun t : Tracee w => { t with
      scratchTop := (s.regs P.arch.sp - BitVec.ofNat w scratchMargin) &&& ~~~(BitVec.ofNat w 0xF)
      procLink := false, procLinkExe := false, pendingExe := [], chown := none, created := [],
      pendingRoot := [], mountHandled := false }) h.t
    simp only [withNotes, resetCall, hscratch]
    exact ht
  rw [rewritePathArg_lookedUp hd' hs', rewritePathArg_lookedUp hd hs, hup, hup']
  cases hlook : lookedUp P s with
  | none =>
    have hroot : s'.t.root = s.t.root := congrArg (·.root) h.t
    have hdead : ∀ u : St w σ, (failClosed P u 2).handed P = ⟨0, u.mem, u.fs, u.t.created⟩ := by
      intro u
      simp only [failClosed, St.handed, arg_setArg]
      rfl
    have harg : (withNotes P s' none []).arg P 2 = (withNotes P s none []).arg P 2 := h.path
    have hmem : (withNotes P s' none []).mem = (withNotes P s none []).mem := h.mem
    have hfs : (withNotes P s' none []).fs = (withNotes P s none []).fs := h.fs
    have hctx : (withNotes P s' none []).ctx = (withNotes P s none []).ctx := h.ctx
    have hr : (withNotes P s' none []).t.root = (withNotes P s none []).t.root := hroot
    dsimp only
    rw [hctx, hr, harg, hmem]
    split
    · rw [hdead, hdead, hmem, hfs]
      rfl
    · simp only [St.handed, harg, hmem, hfs]
      rfl
  | some guest =>
    dsimp only
    apply rewriteGuest_handed ht h.mem h.ctx h.fs h.path
    · simp [isReadlink, Numbers.is_eq h.call]
    · simp [isReadlink, Numbers.is_eq h.call']
    · exact hfollow (by rw [hlook]; rfl)
    · intro hf he hu
      have hg : Granting P s := ⟨by rw [hlook]; rfl, hf, he, hu⟩
      exact h.dac'.trans ((hneed hg).symm.trans h.dac.symm)

end HowCall

/-- **openat2 is treated as openat** exactly where the readers of the flags agree. -/
theorem openat2_like_openat_iff (h : HowCall P flags mode s s') :
    SameTreatment P s s' ↔ FlagsAgree P s flags := by
  rcases h.onEntry_eq with ⟨created, hc, hon⟩
  have hcreated : (onEntry P s).t.created = created := by
    rw [hon, HowCall.created_rewritePathArg]
    rfl
  have hcreated' : (onEntry P s').t.created = [] := by
    rw [h.onEntry_eq', HowCall.created_rewritePathArg]
    rfl
  constructor
  · intro hsame
    refine ⟨fun hup => ?_, fun hg => ?_, ?_⟩
    · exact h.follow_iff.1 (hsame.follow hup _ h.entry _ h.entry')
    · have hneed := hsame.need hg
      rw [h.dac, h.dac'] at hneed
      exact openLike_eq_read_iff.1 hneed.symm
    · have heq : (onEntry P s').t.created = (onEntry P s).t.created :=
        congrArg Handed.created hsame.handed
      rw [hcreated, hcreated'] at heq
      exact hc.1 heq.symm
  · intro hag
    have hnil : created = [] := hc.2 hag.note
    subst hnil
    refine ⟨fun hup d hd d' hd' => ?_, fun hg => ?_, ?_⟩
    · cases h.entry.symm.trans hd
      cases h.entry'.symm.trans hd'
      exact h.follow_iff.2 (hag.follow hup)
    · rw [h.dac, h.dac']
      exact (openLike_eq_read_iff.2 (hag.need hg)).symm
    · rw [hon, h.onEntry_eq']
      exact h.handed (fun hup => h.follow_iff.2 (hag.follow hup))
        fun hg => openLike_eq_read_iff.2 (hag.need hg)

/-! ## A new file behind a link -/

/-- A host with a link `/l` to `/t` in the rootfs `/r`, a directory that is not writable; a change
of permission bits is kept. -/
def linkInRoot : Platform 64 (List (CStr × Nat)) :=
  { linuxPlatform with
    readlink := fun _ path => if path = cstr "/r/l" then some (cstr "/t") else none
    stat := fun _ path => if path = cstr "/r" then some ⟨1, 2, 1000, 1000, 0o40555⟩ else none
    lstat := fun _ path => if path = cstr "/r/l" then some ⟨1, 3, 1000, 1000, 0o120777⟩ else none
    realpath := fun _ _ => none
    content := fun _ _ => none
    chmod := fun fs path mode => (path, mode) :: fs
    calloc := fun _ _ => true }

/-- A process of the fake root at the entry of a call with `/l` and an `open_how` in memory. -/
def howState (flags nr : Nat) (args : List Nat) : St 64 (List (CStr × Nat)) :=
  { linuxCall { Ctx.create with hasFakeIds := true } (cstr "/r") nr args
      [(8192, cstr "/l"),
        (12288, openHow false (BitVec.ofNat 64 flags) (BitVec.ofNat 64 0o644))] with
    fs := [] }

def openatCall (flags : Nat) : St 64 (List (CStr × Nat)) :=
  howState flags 257 [0xffffff9c, 8192, flags, 0o644]

def openat2Call (flags : Nat) : St 64 (List (CStr × Nat)) :=
  howState flags 437 [0xffffff9c, 8192, 12288, 24]

theorem howCall (flags : Nat)
    (h : (openatCall flags).mem.read 12288 24 =
      openHow false (BitVec.ofNat 64 flags) (BitVec.ofNat 64 0o644)) :
    HowCall linkInRoot (BitVec.ofNat 64 flags) (BitVec.ofNat 64 0o644) (openatCall flags)
      (openat2Call flags) := by
  have hopenat : linuxNumbers.is .openat 257 := by decide +kernel
  have hopenat2 : linuxNumbers.is .openat2 437 := by decide +kernel
  exact ⟨rfl, rfl, rfl, rfl, rfl, hopenat, hopenat2, rfl, rfl, rfl, h⟩

/-- `O_CREAT | O_EXCL | O_WRONLY`: openat2 is handed the file that the link leads to, and the
directory stays unwritable. -/
theorem openat2_unlike_openat :
    HowCall linkInRoot (BitVec.ofNat 64 0o301) (BitVec.ofNat 64 0o644) (openatCall 0o301)
      (openat2Call 0o301) ∧
    givenPath linkInRoot (onEntry linkInRoot (openatCall 0o301)) 2 = some (cstr "/r/l") ∧
    givenPath linkInRoot (onEntry linkInRoot (openat2Call 0o301)) 2 = some (cstr "/r/t") ∧
    (onEntry linkInRoot (openatCall 0o301)).fs = [(cstr "/r", 0o40755)] ∧
    (onEntry linkInRoot (openat2Call 0o301)).fs = [] ∧
    ¬SameTreatment linkInRoot (openatCall 0o301) (openat2Call 0o301) := by
  refine ⟨howCall _ (by decide +kernel), by decide +kernel, by decide +kernel, by decide +kernel,
    by decide +kernel, fun h => ?_⟩
  exact absurd (congrArg Handed.fs h.handed) (by decide +kernel)

theorem openat2_like_openat_read :
    SameTreatment linkInRoot (openatCall 0) (openat2Call 0) := by
  apply (openat2_like_openat_iff (howCall 0 (by decide +kernel))).2
  refine ⟨fun _ => by decide, fun _ => by decide, ?_⟩
  rintro ⟨-, -, hcr, -⟩
  revert hcr
  decide

end Emuroot
