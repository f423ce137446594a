import Emuroot.Proof.LinuxIds

/-!
# The real credentials (`identity.c`)

`realStep_eq_iff`: what the kernel makes of a credential call as its entry leaves it.
`real_ids_kept`: the real credentials stay what they are through every run of such calls but for
`setgroups`, which is not neutralized (`setgroups_is_real`), and for a 16-bit call that cannot hold
the own id.
-/

namespace Emuroot

variable {w : Nat} {σ : Type}

/-- The credential-changing calls. -/
def credActions : List Action :=
  [.setuid, .setgid, .setreuid, .setregid, .setresuid, .setresgid, .setfsuid, .setfsgid, .setgroups]

/-! ## The kernel's side -/

section
variable (P : Platform w σ)

/-- The calls of the 32-bit ABIs that take 16-bit ids. -/
def isNarrow (sysno : Int) : Bool :=
  !lp64 w && [Sys.setuid, .setgid, .setreuid, .setregid, .setresuid, .setresgid, .setfsuid,
    .setfsgid, .setgroups].any (P.nr.is · sysno)

/-- The list of groups in the guest's memory; `none` if it cannot be read. -/
def kernelGroups (narrow : Bool) (mem : GuestMem w) (addr : Word w) (n : Nat) :
    Option (List Linux.Id) :=
  let size := if narrow then 2 else 4
  let got := guestRead mem addr (n * size)
  if got.length = n * size then
    some ((List.range n).map fun i =>
      highId narrow (ofBytes P.arch.bigEndian ((got.drop (size * i)).take size)))
  else none

/-- The call that the kernel finds in the registers; `none` if its arguments cannot be read. -/
def realCall (sysno : Int) (a : Action) (s : St w σ) : Option Linux.Call :=
  let narrow := isNarrow P sysno
  let id (n : Nat) : Linux.Id := highId narrow (s.arg P n).toNat
  match a with
  | .setuid => some (.setuid (id 1))
  | .setgid => some (.setgid (id 1))
  | .setreuid => some (.setreuid (id 1) (id 2))
  | .setregid => some (.setregid (id 1) (id 2))
  | .setresuid => some (.setresuid (id 1) (id 2) (id 3))
  | .setresgid => some (.setresgid (id 1) (id 2) (id 3))
  | .setfsuid => some (.setfsuid (id 1))
  | .setfsgid => some (.setfsgid (id 1))
  | .setgroups =>
    let n := ((s.arg P 1).setWidth 32).toInt
    (kernelGroups P narrow s.mem (s.arg P 2) n.toNat).map (.setgroups n)
  | _ => none

/-- The real credentials after the kernel has run the call it finds. -/
def kernelRun (caps : Linux.Caps) (k : Linux.Cred) : Option Linux.Call → Linux.Cred
  | some call => (call.run caps k).1
  | none => k

/-! ## Which calls are harmless -/

/-- The kernel refuses the list, or it is the list that the process has. -/
def KeepsGroups (caps : Linux.Caps) (k : Linux.Cred) : Option Linux.Call → Prop
  | some (.setgroups n list) =>
    caps.setgid = false ∨ n < 0 ∨ n > Linux.ngroupsMax ∨ Linux.noId ∈ list ∨
      list.mergeSort = k.groups
  | _ => True

/-- The process may not change the id, or the call can hold the own one (or takes it for -1). -/
def Holds (narrow cap : Bool) (own : UInt32) : Prop :=
  narrow = false ∨ cap = false ∨ own.toNat < 2 ^ 16 ∨ own.toNat % 2 ^ 16 = 0xffff

/-- The call of the guest in `s` does no harm. -/
def Harmless (a : Action) (caps : Linux.Caps) (k : Linux.Cred) (s : St w σ) : Prop :=
  match a with
  | .setuid => Holds (isNarrow P (s.sysno P)) caps.setuid P.geteuid
  | .setgid => Holds (isNarrow P (s.sysno P)) caps.setgid P.getegid
  | .setgroups => KeepsGroups caps k (realCall P (s.sysno P) .setgroups s)
  | _ => True

/-- The guest's real credentials are emuroot's own. -/
structure Own (k : Linux.Cred) : Prop where
  user : k.user = ⟨P.geteuid, P.geteuid, P.geteuid, P.geteuid⟩
  group : k.group = ⟨P.getegid, P.getegid, P.getegid, P.getegid⟩

end

variable {P : Platform w σ} {k k' : Linux.Cred} {caps : Linux.Caps} {s : St w σ} {a : Action}

/-! ## The entry -/

/-- A call that is not in the path tables is not rewritten. -/
theorem rewritePaths_of_cred {sysno : Int} (ha : a ∈ credActions) (h : P.actionOf sysno = some a)
    (s : St w σ) : rewritePaths P s sysno = s := by
  have hnot : ∀ x : Sys, (∀ d ∈ actionTable, d.action ∈ credActions → d.nr ≠ x) →
      P.nr.is x sysno = false := fun x hx => is_of_action h fun d hd hda => hx d hd (hda ▸ ha)
  have hfind : findPathSyscall P.nr sysno = none := by
    refine List.find?_eq_none.2 fun d hd => ?_
    have hd' : ∀ d ∈ pathTable, ∀ e ∈ actionTable, e.action ∈ credActions → e.nr ≠ d.nr := by
      decide
    simp [hnot d.nr (hd' d hd)]
  unfold rewritePaths
  rw [hnot .bind (by decide), hnot .connect (by decide), hnot .sendto (by decide), hfind,
    hnot .execve (by decide), hnot .execveat (by decide)]
  rfl

/-- The entry of a credential call neutralizes it and does nothing else. -/
theorem onEntry_cred (hf : s.ctx.hasFakeIds) (ha : a ∈ credActions)
    (h : P.actionOf (s.sysno P) = some a) :
    onEntry P s = neutralizeIdChange P (resetCall P s) (some a) := by
  have hid : IdAction a := (by decide : ∀ a ∈ credActions, IdAction a) a ha
  have hne : a ≠ .chown := (by decide : ∀ a ∈ credActions, a ≠ .chown) a ha
  have hp : plainEntry P s a = neutralizeIdChange P (resetCall P s) (some a) := by
    unfold plainEntry identityEntry
    rw [if_pos hf, if_neg fun he => hne (Option.some.inj he)]
  rw [(hid.plain h).onEntry_eq, hp]
  exact rewritePaths_of_cred ha h _

/-! ## What the kernel finds -/

theorem highId_none (narrow : Bool) : highId narrow 0xffffffff = Linux.noId := by
  cases narrow <;> rfl

/-- The own id, as the call holds it, is itself or -1. -/
theorem highId_own_iff {narrow cap : Bool} {own : UInt32} :
    (highId narrow own.toNat = Linux.noId ∨ cap = false ∨ highId narrow own.toNat = own) ↔
      Holds narrow cap own := by
  unfold Holds highId
  cases narrow with
  | false => simp
  | true =>
    have hmod : own.toNat % 2 ^ 16 < 2 ^ 32 := Nat.lt_trans (Nat.mod_lt _ (by decide)) (by decide)
    have hval : ∀ v : UInt32, UInt32.ofNat (own.toNat % 2 ^ 16) = v → own.toNat % 2 ^ 16 = v.toNat := by
      rintro v rfl
      rw [UInt32.toNat_ofNat_of_lt' hmod]
    by_cases hff : own.toNat % 2 ^ 16 = 0xffff
    · rw [if_pos rfl, if_pos hff]
      exact iff_of_true (.inl rfl) (.inr (.inr (.inr hff)))
    · simp only [if_true, hff, if_false, or_false, Bool.true_eq_false, false_or]
      constructor
      · rintro (h | h | h)
        · have hno : Linux.noId.toNat = 2 ^ 32 - 1 := rfl
          have := hval _ h
          omega
        · exact .inl h
        · have := hval _ h
          exact .inr (by omega)
      · rintro (h | h)
        · exact .inr (.inl h)
        · refine .inr (.inr ?_)
          rw [Nat.mod_eq_of_lt h]
          exact UInt32.ofNat_toNat

/-! ## What the kernel does -/

/-- A side all of whose ids are `u`. -/
def ownSide (u : Linux.Id) : Linux.Side := ⟨u, u, u, u⟩

/-- The call fails, or makes nothing of the side but itself. -/
def Leaves (s : Linux.Side) (r : Except Int Linux.Side) : Prop := ∀ s', r = .ok s' → s' = s

theorem setUser_eq_iff {r : Except Int Linux.Side} : (k.setUser r).1 = k ↔ Leaves k.user r := by
  cases r with
  | ok s =>
    constructor
    · rintro h _ ⟨⟩
      exact congrArg Linux.Cred.user h
    · intro h
      rw [h s rfl]
      rfl
  | error e => exact iff_of_true rfl (nomatch ·, ·)

theorem setGroup_eq_iff {r : Except Int Linux.Side} : (k.setGroup r).1 = k ↔ Leaves k.group r := by
  cases r with
  | ok s =>
    constructor
    · rintro h _ ⟨⟩
      exact congrArg Linux.Cred.group h
    · intro h
      rw [h s rfl]
      rfl
  | error e => exact iff_of_true rfl (nomatch ·, ·)

theorem leaves_setId_iff {cap : Bool} {u v : Linux.Id} :
    Leaves (ownSide u) ((ownSide u).setId cap v) ↔ v = Linux.noId ∨ cap = false ∨ v = u := by
  by_cases hv : v = Linux.noId
  · refine iff_of_true (fun s' h => ?_) (.inl hv)
    rw [Linux.Side.setId, if_pos hv] at h
    cases h
  cases hc : cap with
  | true =>
    rw [Linux.Side.setId_cap hv rfl]
    constructor
    · intro h
      exact .inr (.inr (congrArg Linux.Side.real (h _ rfl)))
    · rintro (h | h | rfl)
      · exact absurd h hv
      · cases h
      · rintro _ ⟨⟩
        rfl
  | false =>
    refine iff_of_true (fun s' h => ?_) (.inr (.inl rfl))
    by_cases hu : v = u
    · subst hu
      rw [Linux.Side.setId_held hv rfl (.inl rfl)] at h
      cases h
      rfl
    · rw [Linux.Side.setId_refused hv rfl (by simp [ownSide, hu])] at h
      cases h

theorem leaves_setreId (cap : Bool) (u : Linux.Id) :
    Leaves (ownSide u) ((ownSide u).setreId cap Linux.noId Linux.noId) := by
  rw [Linux.Side.setreId_ok (by simp) (by simp)]
  rintro _ ⟨⟩
  rfl

theorem leaves_setresId (cap : Bool) (u : Linux.Id) :
    Leaves (ownSide u) ((ownSide u).setresId cap Linux.noId Linux.noId Linux.noId) := by
  rw [Linux.Side.setresId_ok (by simp)]
  rintro _ ⟨⟩
  rfl

theorem setfsId_noId (cap : Bool) (s : Linux.Side) : s.setfsId cap Linux.noId = s :=
  if_neg fun h => h.1 rfl

theorem setgroups_eq_iff {n : Int} {list : List Linux.Id} :
    (k.setgroups caps.setgid n list).1 = k ↔ KeepsGroups caps k (some (.setgroups n list)) := by
  unfold Linux.Cred.setgroups KeepsGroups
  split
  · exact iff_of_true rfl (.inl ‹_›)
  split
  · rename_i h
    exact iff_of_true rfl (.inr (h.imp_right .inl))
  split
  · exact iff_of_true rfl (.inr (.inr (.inr (.inl ‹_›))))
  · rename_i h1 h2 h3
    constructor
    · exact fun h => .inr (.inr (.inr (.inr (congrArg Linux.Cred.groups h))))
    · rintro (h | h | h | h | h)
      · exact absurd h h1
      · exact absurd (.inl h) h2
      · exact absurd (.inr h) h2
      · exact absurd h h3
      · rw [h]

/-- The arguments of a neutralized call that are -1. -/
theorem arg_none (s : St w σ) (n : Nat) (narrow : Bool) :
    highId narrow ((s.setArg P n (BitVec.ofNat w 0xffffffff)).arg P n).toNat = Linux.noId := by
  rw [arg_setArg, P.arch.toNat_const (by decide), highId_none]

theorem arg_none_ne (s : St w σ) {m n : Nat} (v : Word w) (narrow : Bool) (hm : m ∈ argNumbers)
    (hn : n ∈ argNumbers) (h : m ≠ n) :
    highId narrow (((s.setArg P m (BitVec.ofNat w 0xffffffff)).setArg P n v).arg P m).toNat =
      Linux.noId := by
  rw [arg_setArg_ne _ _ hm hn h, arg_none]

theorem arg_own (s : St w σ) (n : Nat) (id : UInt32) :
    ((s.setArg P n (BitVec.ofNat w id.toNat)).arg P n).toNat = id.toNat := by
  rw [arg_setArg, P.arch.toNat_const id.toNat_lt]

/-- **What the kernel makes of a credential call** changes nothing exactly when the call is
harmless. -/
theorem realStep_eq_iff (hk : Own P k) (hf : s.ctx.hasFakeIds) (ha : a ∈ credActions)
    (h : P.actionOf (s.sysno P) = some a) :
    kernelRun caps k (realCall P (s.sysno P) a (onEntry P s)) = k ↔ Harmless P a caps k s := by
  have hu : k.user = ownSide P.geteuid := hk.user
  have hg : k.group = ownSide P.getegid := hk.group
  rw [onEntry_cred hf ha h]
  cases a with
  | setuid =>
    show (k.setUser (k.user.setId _ (highId _ (St.arg P (St.setArg ..) 1).toNat))).1 = k ↔ _
    rw [arg_own, setUser_eq_iff, hu]
    exact leaves_setId_iff.trans highId_own_iff
  | setgid =>
    show (k.setGroup (k.group.setId _ (highId _ (St.arg P (St.setArg ..) 1).toNat))).1 = k ↔ _
    rw [arg_own, setGroup_eq_iff, hg]
    exact leaves_setId_iff.trans highId_own_iff
  | setreuid =>
    refine iff_of_true ?_ trivial
    show (k.setUser (k.user.setreId _ (highId _ (St.arg P (St.setArg ..) 1).toNat)
      (highId _ (St.arg P (St.setArg P (St.setArg ..) ..) 2).toNat))).1 = k
    rw [arg_none, arg_none_ne _ _ _ (by decide) (by decide) (by decide), setUser_eq_iff, hu]
    exact leaves_setreId _ _
  | setregid =>
    refine iff_of_true ?_ trivial
    show (k.setGroup (k.group.setreId _ (highId _ (St.arg P (St.setArg ..) 1).toNat)
      (highId _ (St.arg P (St.setArg P (St.setArg ..) ..) 2).toNat))).1 = k
    rw [arg_none, arg_none_ne _ _ _ (by decide) (by decide) (by decide), setGroup_eq_iff, hg]
    exact leaves_setreId _ _
  | setresuid =>
    refine iff_of_true ?_ trivial
    show (k.setUser (k.user.setresId _ (highId _ (St.arg P (St.setArg ..) 1).toNat)
      (highId _ (St.arg P (St.setArg P (St.setArg ..) ..) 2).toNat)
      (highId _ (St.arg P (St.setArg P (St.setArg P (St.setArg ..) ..) ..) 3).toNat))).1 = k
    rw [arg_none, arg_none_ne _ _ _ (by decide) (by decide) (by decide),
      arg_setArg_ne _ _ (by decide) (by decide) (by decide),
      arg_none_ne _ _ _ (by decide) (by decide) (by decide), setUser_eq_iff, hu]
    exact leaves_setresId _ _
  | setresgid =>
    refine iff_of_true ?_ trivial
    show (k.setGroup (k.group.setresId _ (highId _ (St.arg P (St.setArg ..) 1).toNat)
      (highId _ (St.arg P (St.setArg P (St.setArg ..) ..) 2).toNat)
      (highId _ (St.arg P (St.setArg P (St.setArg P (St.setArg ..) ..) ..) 3).toNat))).1 = k
    rw [arg_none, arg_none_ne _ _ _ (by decide) (by decide) (by decide),
      arg_setArg_ne _ _ (by decide) (by decide) (by decide),
      arg_none_ne _ _ _ (by decide) (by decide) (by decide), setGroup_eq_iff, hg]
    exact leaves_setresId _ _
  | setfsuid =>
    refine iff_of_true ?_ trivial
    show { k with user := k.user.setfsId _ (highId _ (St.arg P (St.setArg ..) 1).toNat) } = k
    rw [arg_none, setfsId_noId]
  | setfsgid =>
    refine iff_of_true ?_ trivial
    show { k with group := k.group.setfsId _ (highId _ (St.arg P (St.setArg ..) 1).toNat) } = k
    rw [arg_none, setfsId_noId]
  | setgroups =>
    show kernelRun caps k (realCall P _ .setgroups s) = k ↔
      KeepsGroups caps k (realCall P _ .setgroups s)
    cases hc : realCall P (s.sysno P) .setgroups s with
    | none => exact iff_of_true rfl trivial
    | some call =>
      obtain ⟨list, -, rfl⟩ := Option.map_eq_some_iff.1 hc
      exact setgroups_eq_iff
  | _ => exact absurd ha (by decide)

/-! ## Runs -/

/-- A guest with fake ids, of which the real credentials are `k`, makes a credential call that does
no harm, with the capabilities that the process really has. -/
def RealStep (P : Platform w σ) (k : Linux.Cred) (ev : St w σ × Linux.Caps) (k' : Linux.Cred) : Prop :=
  ∃ a ∈ credActions, ev.1.ctx.hasFakeIds ∧ P.actionOf (ev.1.sysno P) = some a ∧
    Harmless P a ev.2 k ev.1 ∧
    k' = kernelRun ev.2 k (realCall P (ev.1.sysno P) a (onEntry P ev.1))

/-- **The real credentials never change**, whatever the guest asks for and whatever it may do. -/
theorem real_ids_kept (hk : Own P k) {evs : List (St w σ × Linux.Caps)}
    (h : Run (RealStep P) k evs k') : k' = k := by
  refine h.inv (I := (· = k)) ?_ rfl
  rintro _ ⟨s, caps⟩ _ rfl ⟨a, ha, hf, hact, hh, rfl⟩
  exact (realStep_eq_iff hk hf ha hact).2 hh

/-- emuroot run by the real root -/
def rootPlatform : Platform 64 Unit := { linuxPlatform with geteuid := 0, getegid := 0 }

def realRoot : Linux.Cred := linuxInit 0 0

theorem real_ids_kept_setuid :
    kernelRun ⟨true, true⟩ realRoot (realCall rootPlatform ((setuidCall 1000).sysno rootPlatform)
      .setuid (onEntry rootPlatform (setuidCall 1000))) = realRoot := by
  have hstep : RealStep rootPlatform realRoot (setuidCall 1000, ⟨true, true⟩) _ :=
    ⟨.setuid, by decide, rfl, by rfl, .inl rfl, rfl⟩
  exact real_ids_kept ⟨rfl, rfl⟩ (.cons hstep (.nil _))

/-- `setgroups(1, [1])`: the group is the first word of the stat buffer. -/
def setgroupsCall : St 64 Unit := callState fakeRootCtx (callRegs 116 1 4096 0)

/-- A real `setgroups` happens. -/
theorem setgroups_is_real :
    rootPlatform.actionOf (setgroupsCall.sysno rootPlatform) = some .setgroups ∧
    (kernelRun ⟨true, true⟩ realRoot (realCall rootPlatform (setgroupsCall.sysno rootPlatform)
      .setgroups (onEntry rootPlatform setgroupsCall))).groups = [1] ∧ realRoot.groups = [0] :=
  ⟨by rfl, by decide +kernel, rfl⟩

end Emuroot
