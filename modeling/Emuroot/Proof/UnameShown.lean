import Emuroot.Proof.ExitBuffers
import Emuroot.Proof.ExitWrites
import Emuroot.Proof.Options
import Emuroot.Proof.ReportedPaths

/-!
# What uname shows

`Ctx.settings` is what a session keeps of its context (`session_settings`). `uname_shown`: with `-n`,
a uname that succeeds in the session leaves the names of the command line in the guest's structure,
and the rest of it as the kernel filled it in.
-/

namespace Emuroot

variable {w : Nat} {σ : Type} {P : Platform w σ} {seccomp : Bool} {e : Engine w} {s : St w σ}
  {ctx : Ctx} {cfg : Config} {args cmd : List CStr}

/-! ## The settings -/

/-- The context without what a session changes of it. -/
def Ctx.settings (ctx : Ctx) : Ctx := { ctx.sansCache with owners := none }

/-- A field that is among the settings agrees when they do. -/
theorem settings_field {α : Type} {ctx' : Ctx} (f : Ctx → α) (hf : ∀ c : Ctx, f c.settings = f c)
    (h : ctx'.settings = ctx.settings) : f ctx' = f ctx :=
  (hf ctx').symm.trans ((congrArg f h).trans (hf ctx))

theorem onEntry_settings (s : St w σ) : (onEntry P s).ctx.settings = s.ctx.settings :=
  congrArg (fun ctx : Ctx => { ctx with owners := none }) (onEntry_sansCache s)

theorem onExit_settings (s : St w σ) : (onExit P s).ctx.settings = s.ctx.settings :=
  congrArg Ctx.sansCache (onExit_sansOwners s)

theorem settings_kept (P : Platform w σ) (settings : Ctx) :
    Kept P (fun _ => True) (fun ctx => ctx.settings = settings) fun _ => True where
  new _ _ _ := trivial
  inherit _ _ _ _ := trivial
  entry s _ h _ := ⟨(onEntry_settings s).trans h, trivial⟩
  exit s _ h _ := ⟨(onExit_settings s).trans h, trivial⟩

/-- **The settings of a session stay what they are.** -/
theorem session_settings {rootPid : Nat} {as : List (StopRound w σ)}
    (h : Run (LoopStep P seccomp fun _ => True) (engineStart ctx rootPid) as e) :
    e.ctx.settings = ctx.settings :=
  ((settings_kept P ctx.settings).run h ((settings_kept P ctx.settings).start rfl rootPid)).ctx

/-! ## The structure -/

/-- A byte of the structure after `snprintf` into one of its fields. -/
theorem putUtsField_get {u : List Byte} {i : Nat} (hu : u.length = sizeofUtsname) (hi : i < 6)
    {name : CStr} (hname : name.length < utsField) (k : Nat) :
    (putUtsField u i name)[k]? =
      if i * utsField ≤ k ∧ k ≤ i * utsField + name.length then (name ++ [0])[k - i * utsField]?
      else u[k]? := by
  have hsize : (i + 1) * utsField ≤ sizeofUtsname := Nat.mul_le_mul_right utsField hi
  rw [Nat.succ_mul] at hsize
  have htext : snprintf utsField name = name := List.take_of_length_le (by omega)
  have hfront : (u.take (i * utsField)).length = i * utsField := by
    rw [List.length_take, hu]
    omega
  have hlen : (name ++ [0]).length = name.length + 1 := List.length_append
  unfold putUtsField
  dsimp only
  rw [htext, hlen, List.append_assoc]
  by_cases hbefore : k < i * utsField
  · rw [List.getElem?_append_left (by rw [hfront]; exact hbefore), if_neg (by omega),
      List.getElem?_take_of_lt hbefore]
  rw [List.getElem?_append_right (by rw [hfront]; omega), hfront]
  by_cases hin : k ≤ i * utsField + name.length
  · rw [if_pos ⟨by omega, hin⟩, List.getElem?_append_left (by rw [hlen]; omega)]
  · rw [if_neg (by omega), List.getElem?_append_right (by rw [hlen]; omega), hlen,
      List.getElem?_drop]
    congr 1
    omega

/-- The names on a structure, as the exit of uname puts them there. -/
def Ctx.putUname (ctx : Ctx) (u : List Byte) : List Byte :=
  putUtsField (putUtsField (putUtsField u 0 ctx.unameSysname) 2 ctx.unameRelease) 4 ctx.unameMachine

theorem length_putUname {u : List Byte} (hu : u.length = sizeofUtsname) (ctx : Ctx) :
    (ctx.putUname u).length = sizeofUtsname :=
  length_putUtsField (length_putUtsField (length_putUtsField hu (by decide) _) (by decide) _)
    (by decide) _

/-- The fields that are set, with their names. -/
def Ctx.unameFields (ctx : Ctx) : List (Nat × CStr) :=
  [(0, ctx.unameSysname), (2, ctx.unameRelease), (4, ctx.unameMachine)]

/-- A byte of the text in a field, or of the NUL behind it. -/
def InField (x : Nat × CStr) (k : Nat) : Prop :=
  x.1 * utsField ≤ k ∧ k ≤ x.1 * utsField + x.2.length

/-- The fields hold their names, each with a NUL, and the rest is as it was. -/
structure Shows (fields : List (Nat × CStr)) (u u' : List Byte) : Prop where
  names : ∀ x ∈ fields, ∀ k, InField x k → u'[k]? = (x.2 ++ [0])[k - x.1 * utsField]?
  rest : ∀ k, (∀ x ∈ fields, ¬InField x k) → u'[k]? = u[k]?

theorem putUname_shows {u : List Byte} (hu : u.length = sizeofUtsname) (hc : ctx.Fits) :
    Shows ctx.unameFields u (ctx.putUname u) := by
  have hsysname := hc.sysname
  have hrelease := hc.release
  have hmachine := hc.machine
  have h0 := length_putUtsField hu (by decide : 0 < 6) ctx.unameSysname
  have h2 := length_putUtsField h0 (by decide : 2 < 6) ctx.unameRelease
  have hfield : utsField = 65 := rfl
  have hget := fun k => (putUtsField_get h2 (by decide : 4 < 6) hmachine k).trans
    (ite_congr rfl (fun _ => rfl) fun _ =>
      (putUtsField_get h0 (by decide : 2 < 6) hrelease k).trans
        (ite_congr rfl (fun _ => rfl) fun _ => putUtsField_get hu (by decide : 0 < 6) hsysname k))
  refine ⟨fun x hx k hk => ?_, fun k hk => ?_⟩
  · rw [Ctx.putUname, hget]
    simp only [Ctx.unameFields, List.mem_cons, List.not_mem_nil, or_false] at hx
    unfold InField at hk
    rcases hx with rfl | rfl | rfl
    all_goals dsimp only at hk
    · rw [if_neg (by omega), if_neg (by omega), if_pos hk]
    · rw [if_neg (by omega), if_pos hk]
    · rw [if_pos hk]
  · rw [Ctx.putUname, hget]
    have hno : ∀ x ∈ ctx.unameFields, ¬(x.1 * utsField ≤ k ∧ k ≤ x.1 * utsField + x.2.length) := hk
    simp only [Ctx.unameFields, List.forall_mem_cons] at hno
    rw [if_neg hno.2.2.1, if_neg hno.2.1, if_neg hno.1]

/-! ## The call -/

theorem exitUname_mem (hfake : s.ctx.hasFakeUname = true) {buf : Word w} {u : List Byte}
    (hu : s.mem.read buf sizeofUtsname = u) (hlen : u.length = sizeofUtsname) :
    (exitUname s buf 0).mem.toMemory = s.mem.toMemory.write buf (s.ctx.putUname u) := by
  subst hu
  unfold exitUname
  rw [if_neg (by simp [hfake])]
  dsimp only [St.guestRead, guestRead]
  rw [if_neg (not_not.2 hlen)]
  rfl

/-- A uname that succeeded, by the time its process goes on. -/
theorem afterCall_uname {kern : Kernel w σ} {u : List Byte}
    (ha : P.actionOf (s.sysno P) = some .uname) (hret : (kern.regs P.arch.ret).toInt = 0)
    (harg : kern.regs P.arch.arg1 = s.arg P 1) (hfake : s.ctx.hasFakeUname = true)
    (hu : kern.mem.read (s.arg P 1) sizeofUtsname = u) (hlen : u.length = sizeofUtsname) :
    (afterCall P s kern).mem.toMemory =
      kern.mem.toMemory.write (s.arg P 1) (s.ctx.putUname u) := by
  obtain ⟨owners, hc⟩ := commitCreated_eq (P := P) (atExit P s kern) (kern.regs P.arch.ret).toInt
  have hctx : (atExit P s kern).ctx = s.ctx := uname_ctx kern ha
  have hsysno : P.actionOf (atExit P s kern).t.sysno = some .uname :=
    (congrArg P.actionOf (atExit_sysno P s kern)).trans ha
  show (onExitAt P (atExit P s kern) (kern.regs P.arch.arg1)).mem.toMemory = _
  unfold onExitAt
  dsimp only
  rw [show (atExit P s kern).regs = kern.regs from rfl, hc, hret]
  dsimp only
  rw [hsysno, harg, hctx]
  exact exitUname_mem (s := { atExit P s kern with
    ctx := { s.ctx with owners := owners }
    t := { (atExit P s kern).t with created := [] } }) hfake hu hlen

/-! ## The session -/

theorem sessionCtx_uname (P : Platform w σ) (fs : σ) (calloc : Nat → Nat → Bool)
    (idsFile : Option CStr) (cfg : Config) :
    (sessionCtx P fs calloc idsFile cfg).hasFakeUname = cfg.ctx.hasFakeUname ∧
      (sessionCtx P fs calloc idsFile cfg).putUname = cfg.ctx.putUname := by
  unfold sessionCtx
  dsimp only
  split <;> exact ⟨rfl, rfl⟩

/-- **What the command line names is what uname shows**: a uname of the session that succeeds leaves
those names in the structure, and the rest of it as the kernel filled it in. -/
theorem uname_shown (hmain : emurootMain args = .runs cfg cmd)
    (hfake : cfg.ctx.hasFakeUname = true) (fs : σ) (calloc : Nat → Nat → Bool)
    (idsFile : Option CStr) (rootPid : Nat) {as : List (StopRound w σ)} {e : Engine w}
    (h : Run (LoopStep P seccomp fun _ => True)
      (engineStart (sessionCtx P fs calloc idsFile cfg) rootPid) as e)
    {s : St w σ} (hctx : s.ctx = e.ctx) (ha : P.actionOf (s.sysno P) = some .uname)
    {kern : Kernel w σ} (hret : (kern.regs P.arch.ret).toInt = 0)
    (harg : kern.regs P.arch.arg1 = s.arg P 1) (hw : sizeofUtsname ≤ 2 ^ w)
    (hread : (kern.mem.read (s.arg P 1) sizeofUtsname).length = sizeofUtsname)
    (hwrite : kern.mem.canWrite (s.arg P 1) sizeofUtsname) :
    Shows cfg.ctx.unameFields (kern.mem.read (s.arg P 1) sizeofUtsname)
      ((afterCall P s kern).mem.read (s.arg P 1) sizeofUtsname) := by
  obtain ⟨hfake0, hput0⟩ := sessionCtx_uname P fs calloc idsFile cfg
  have hset := session_settings h
  rw [← hctx] at hset
  have hfake1 : s.ctx.hasFakeUname = true :=
    (settings_field Ctx.hasFakeUname (fun _ => rfl) hset).trans (hfake0.trans hfake)
  have hput : s.ctx.putUname = cfg.ctx.putUname :=
    (settings_field Ctx.putUname (fun _ => rfl) hset).trans hput0
  have hlen := length_putUname hread cfg.ctx
  have hself := Memory.read_write_self (m := kern.mem.toMemory) (a := s.arg P 1)
    (by rw [hlen]; exact hwrite) (by rw [hlen]; exact hw)
  rw [hlen] at hself
  rw [afterCall_uname ha hret harg hfake1 rfl hread, hput, hself]
  exact putUname_shows hread (emurootMain_fits hmain).ctx

/-- `emuroot -n Plan9:4:pdp make` -/
def unameConfig : Config :=
  { Config.create with ctx := setFakeUname Ctx.create (cstr "Plan9") (cstr "4") (cstr "pdp") }

def unameCtx : Ctx := sessionCtx linuxPlatform () (fun _ _ => true) none unameConfig

/-- The fork event of a child that has been seen before. -/
def lateFork : StopRound 64 Unit :=
  { earlyRound with
    pid := 7
    st := .stopped ⟨SIGTRAP, PTRACE_EVENT_FORK, earlyRound.pid⟩ }

/-- The session with the child in it, before that event and behind it. -/
def unameEarly : Engine 64 :=
  (waitStep linuxPlatform true (engineStart unameCtx 7) earlyRound.W earlyRound.pid earlyRound.st).1

def unameForked : Engine 64 :=
  (waitStep linuxPlatform true unameEarly lateFork.W lateFork.pid lateFork.st).1

/-- The child's uname. -/
def unameCall : St 64 Unit := linuxCall unameForked.ctx [] 63 [4096] []

def unameDone : Kernel 64 Unit := ⟨linuxRegs 63 [4096], linuxMem [(4096, cstr "Linux")], ()⟩

theorem uname_shown_plan9 :
    (unameForked.tab.map (·.pid) = [7, 8]) ∧
    Shows unameConfig.ctx.unameFields (unameDone.mem.read 4096 sizeofUtsname)
      ((afterCall linuxPlatform unameCall unameDone).mem.read 4096 sizeofUtsname) := by
  have hmain : emurootMain [cstr "-n", cstr "Plan9:4:pdp", cstr "make"] =
      .runs unameConfig [cstr "make"] := rfl
  have hearly : LoopStep linuxPlatform true (fun _ => True) (engineStart unameCtx 7) earlyRound
      unameEarly := ⟨trivial, rfl⟩
  have hfork : LoopStep linuxPlatform true (fun _ => True) unameEarly lateFork unameForked :=
    ⟨trivial, rfl⟩
  have hrun : Run (LoopStep linuxPlatform true fun _ => True) (engineStart unameCtx 7)
      [earlyRound, lateFork] unameForked := .cons hearly (.cons hfork (.nil _))
  have hact : linuxPlatform.actionOf (unameCall.sysno linuxPlatform) = some .uname := rfl
  have hret : (unameDone.regs linuxPlatform.arch.ret).toInt = 0 := by decide +kernel
  have harg : unameDone.regs linuxPlatform.arch.arg1 = unameCall.arg linuxPlatform 1 := rfl
  have hread : (unameDone.mem.read 4096 sizeofUtsname).length = sizeofUtsname := by decide +kernel
  have hwrite : unameDone.mem.canWrite 4096 sizeofUtsname := by decide +kernel
  exact ⟨by decide +kernel, uname_shown hmain rfl () (fun _ _ => true) none 7 hrun rfl hact hret harg
    (by decide) hread hwrite⟩

end Emuroot
