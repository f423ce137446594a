import Emuroot.Proof.ProgramRecords

/-!
# Whose program is shown

`exe_links_true`: a readlink of `/proc/P/exe` reports the program of `P`, and no other link is
answered with a program, in the runs whose steps all meet `Minded`. A caller that runs through a
loader is shown its own program for that of another process: `other_program_shown`.
-/

namespace Emuroot

variable {w : Nat} {σ : Type} {P : Platform w σ} {seccomp : Bool} {e : Engine w} {W : World w σ}
  {pid : Nat} {t : Tracee w}

/-! ## The answers -/

/-- What the exit of a readlink finds: the record that its entry has made, and the caller's
program in it. -/
theorem answered {s : Programs w σ} (h : ProgramsInv P seccomp s) {found : FoundLink}
    (ho : ProgramOffered P s ⟨.leaves pid, .reads found⟩) :
    ∃ t, traceeIn s.e.tab pid = some t ∧ t.exe = (s.program pid).exe ∧
      t.procLink = s.spelledProc P pid ∧ t.procLinkExe = s.spelledExe P pid ∧
      (taskStep P seccomp s.toTasks (.leaves pid)).W = (withRegs (onExit P) s.e s.W t).2.2 := by
  obtain ⟨-, -, ⟨c, regs, hc, hr, hread⟩, -⟩ := ho
  obtain ⟨hk, hcall⟩ := (h.noted pid).inside c hc
  obtain ⟨t, ht, hexe⟩ := (h.noted pid).known hk
  have hseen : c.seen = true := by
    rw [hcall.listed regs hr, Bool.or_eq_true]
    refine .inr (by_contra fun hn => ?_)
    rw [(unseen_call (Bool.eq_false_iff.2 hn)).2] at hread
    cases hread
  obtain ⟨v, hv, rfl, hrec⟩ := hcall.seen regs hr hseen
  obtain ⟨hl, he⟩ := entry_marks (s := v) hread
  obtain rfl : t = (onEntry P v).t := Option.some.inj (ht.symm.trans hrec)
  refine ⟨_, ht, hexe, ?_, ?_, leaves_world h.tasks ht hc hseen⟩
  · rw [hl, Programs.spelledProc, hv]
    rfl
  · rw [he, Programs.spelledExe, hv]
    rfl

/-- The answer of that exit. -/
theorem due_reported {s : Programs w σ} {found : FoundLink} {m : Memory w} {v : St w σ}
    (hv : s.handed pid = some v) (hran : ReadlinkRan P m v found.text) (hask : AsksRight P s pid found)
    (hexe : v.t.exe = (s.program pid).exe) (hnamed : (s.program pid).name ≠ some [])
    (hl : v.t.procLink = s.spelledProc P pid) (he : v.t.procLinkExe = s.spelledExe P pid) :
    LinkReported P m v (onExit P v) (s.due P pid v found) := by
  have hfits := hask.fits v m hv hran
  cases hproc : s.spelledProc P pid with
  | true =>
    rw [hproc, if_pos rfl] at hfits
    have hdone : ReadlinkDone P m v found.text := ⟨hran, hl.trans hproc⟩
    have hright : ReadlinkRight P m v (onExit P v) found.text := (readlink_iff hdone).2 hfits
    have hdue : linkAnswer v found.text = s.due P pid v found := by
      unfold linkAnswer Programs.due
      rw [he, hexe]
      dsimp only
      cases ho : found.owner with
      | some q =>
        have hsame := (hask.owned q ho).2
        dsimp only
        cases hspelled : s.spelledExe P pid with
        | true =>
          rw [hspelled, if_pos rfl] at hsame
          rw [Program.exe, ← hsame]
          cases hn : (s.program pid).name with
          | none => simp
          | some name =>
            have hne : name ≠ [] := fun h0 => hnamed (hn.trans (congrArg some h0))
            simp [hne]
        | false =>
          rw [hspelled, if_neg (by simp)] at hsame
          rw [hsame]
          exact if_neg (by simp)
      | none =>
        dsimp only
        rw [if_pos hproc]
        apply if_neg
        rintro ⟨hspelled, hne⟩
        rw [Program.exe, hask.other ho hspelled] at hne
        exact hne rfl
    rw [← hdue]
    exact hright
  | false =>
    rw [hproc, if_neg (by simp)] at hfits
    have hdue : s.due P pid v found = found.text := by
      unfold Programs.due
      cases ho : found.owner with
      | some q => exact absurd (hask.owned q ho).1 (by simp [hproc])
      | none => exact if_neg (by simp [hproc])
    have hshort := hran.short
    rw [hdue]
    exact (hran.unmarked_iff (hl.trans hproc) (by omega)).2 hfits

theorem withRegs_world {f : St w σ → St w σ} {regs : Regs w} (h : W.regs t.pid = some regs) :
    (withRegs f e W t).2.2.regs t.pid = some (f (stopState e W t regs)).regs ∧
      (withRegs f e W t).2.2.mem (W.space t.pid) = (f (stopState e W t regs)).mem := by
  rw [withRegs, h]
  exact ⟨Function.update_self .., Function.update_self ..⟩

/-- **The links to programs show the programs.** In the runs that meet the conditions, a readlink of
a program's link has the program of the task that it belongs to, and another link is answered by its
text. -/
theorem exe_links_true {ctx : Ctx} {rootPid : Nat} {W : World w σ} {image : CStr}
    {xs : List (ProgramEvent w σ)} {s s' : Programs w σ} {x : ProgramEvent w σ}
    (h : Run (MindedStep P seccomp) (.start seccomp ctx rootPid W image) xs s)
    (hn : MindedStep P seccomp s x s') : Truthful P s x s' := by
  have hinv : ProgramsInv P seccomp s :=
    h.inv (fun _ _ _ hi hs => hi.step hs) (.start ctx rootPid W image)
  obtain ⟨ho, hm, rfl⟩ := hn
  unfold Truthful
  split
  · rename_i pid found hev hout
    obtain ⟨ev, out⟩ := x
    cases hev
    cases hout
    intro v m hv hran
    obtain ⟨t, ht, hexe, hl, he, hW⟩ := answered hinv ho
    have hhanded := hv
    rw [handed_eq ht] at hhanded
    obtain ⟨regs, hregs, rfl⟩ := Option.map_eq_some_iff.1 hhanded
    have hpid := traceeIn_pid ht
    obtain ⟨hwregs, hwmem⟩ := withRegs_world (f := onExit P) (e := s.e) (by rw [hpid, hregs])
    rw [hpid, ← hW] at hwregs hwmem
    exact ⟨_, hwregs, hwmem, due_reported hv hran hm.2 hexe (hinv.named pid) hl he⟩
  · trivial

/-! ## A shell that runs through a loader -/

/-- In the root `/r`, `/bin/tool` is for the loader `/l`, and `/bin/sh` is static. -/
def shellHost : Platform 64 Unit :=
  filesAt [(cstr "/r/bin/tool", elfFile (cstr "/l")),
    (cstr "/r/bin/sh", [0x7f, 0x45, 0x4c, 0x46, 2, 1] ++ List.replicate 58 0)]

/-- A world where every task has these registers and this memory. -/
def everyTask (regs : Regs 64) (mem : GuestMem 64) : World 64 Unit where
  regs := fun _ => some regs
  space := fun pid => pid
  mem := fun _ => mem
  fs := ()

/-- `execve(p, {"t"}, ...)` -/
def execRegs : Regs 64 := (linuxRegs 59 [4096, 8192]).put 19 0x7fff0000

def execMem (p : CStr) : GuestMem 64 :=
  linuxMem [(4096, p), (8192, toBytes false 8 12288), (12288, cstr "t")]

/-- `readlink(p, 4096, 64)` -/
def readRegs : Regs 64 := linuxRegs 89 [8192, 4096, 64]

def readMem (p : CStr) : GuestMem 64 := linuxMem [(8192, p)]

/-- The kernel has found `text`. -/
def foundWorld (p text : CStr) : World 64 Unit :=
  everyTask (readRegs.put x86_64.ret (BitVec.ofNat 64 text.length))
    { readMem p with toMemory := (readMem p).write 4096 text }

def shellStart : Programs 64 Unit :=
  .start false { Ctx.create with root := cstr "/r" } 7
    (everyTask execRegs (execMem (cstr "/bin/tool"))) (cstr "/emuroot")

/-- Process 7 executes the tool, and forks 8, which executes the shell. -/
def shellRuns : List (ProgramEvent 64 Unit) :=
  [⟨.enters 7 true, .other⟩,
    ⟨.runs fun _ => everyTask (execRegs.put x86_64.ret 0) (execMem (cstr "/bin/tool")), .other⟩,
    ⟨.leaves 7, .execs ⟨some (cstr "/bin/tool"), cstr "/r/l"⟩⟩,
    ⟨.clones 7 8 false, .other⟩,
    ⟨.reports 7 ⟨SIGTRAP, PTRACE_EVENT_FORK, 8⟩, .other⟩,
    ⟨.reports 8 initialStop, .other⟩,
    ⟨.runs fun _ => everyTask execRegs (execMem (cstr "/bin/sh")), .other⟩,
    ⟨.enters 8 true, .other⟩,
    ⟨.runs fun _ => everyTask (execRegs.put x86_64.ret 0) (execMem (cstr "/bin/sh")), .other⟩,
    ⟨.leaves 8, .execs ⟨none, cstr "/r/bin/sh"⟩⟩]

def shellAt (n : Nat) : Programs 64 Unit :=
  (shellRuns.take n).foldl (programStep shellHost false) shellStart

/-- Process 7 is at a readlink. -/
def atRead (p : CStr) : Programs 64 Unit :=
  programStep shellHost false (shellAt 10) ⟨.runs fun _ => everyTask readRegs (readMem p), .other⟩

/-- It reads the link. -/
def readRuns (p text : CStr) : List (ProgramEvent 64 Unit) :=
  [⟨.runs fun _ => everyTask readRegs (readMem p), .other⟩, ⟨.enters 7 true, .other⟩,
    ⟨.runs fun _ => foundWorld p text, .other⟩]

def readAt (p text : CStr) : Programs 64 Unit :=
  [⟨.enters 7 true, .other⟩, ⟨.runs fun _ => foundWorld p text, .other⟩].foldl
    (programStep shellHost false) (atRead p)

/-- What it reads is the link of `q`. -/
def readOf (q : Nat) (text : CStr) : ProgramEvent 64 Unit := ⟨.leaves 7, .reads ⟨some q, text⟩⟩

/-- What the handler of the task's stop is given. -/
def handedIn (s : Programs 64 Unit) (pid : Nat) (regs : Regs 64) : St 64 Unit :=
  stopState (findOrAdd s.e pid).1 s.W (s.record pid).toTracee regs

theorem tool_started : ByLoader shellHost (handedIn shellStart 7 execRegs) (cstr "/bin/tool") := by
  generalize hv : handedIn shellStart 7 execRegs = v
  obtain ⟨hcall, hargv, hpath, hread, hend, hl⟩ :
      shellHost.nr.is .execve (v.sysno shellHost) = true ∧
      (v.arg shellHost 2 ≠ 0 ∧ readArgv v.mem false (v.arg shellHost 2) maxExecArgs ≠ []) ∧
      v.arg shellHost 1 ≠ 0 ∧
      guestReadStr v.mem (v.arg shellHost 1) pathLen = some (cstr "/bin/tool") ∧
      scriptAt (shellHost.content v.fs) (hostPathOf shellHost v (cstr "/bin/tool") pathLen) = none ∧
      (usesLoader shellHost v (cstr "/bin/tool")).isSome = true := by
    rw [← hv]
    decide +kernel
  exact ⟨hcall, rfl, hargv, hpath, ⟨_, [], hread, .here _, by decide⟩, hend, hl⟩

theorem shell_direct (q : CStr) : ¬ByLoader shellHost (handedIn (shellAt 7) 8 execRegs) q := by
  generalize hv : handedIn (shellAt 7) 8 execRegs = v
  obtain ⟨hread, hend, hl⟩ :
      guestReadStr v.mem (v.arg shellHost 1) pathLen = some (cstr "/bin/sh") ∧
      scriptAt (shellHost.content v.fs) (hostPathOf shellHost v (cstr "/bin/sh") pathLen) = none ∧
      (usesLoader shellHost v (cstr "/bin/sh")).isSome = false := by
    rw [← hv]
    decide +kernel
  intro h
  obtain ⟨p, ls, hp, hls, -⟩ := h.chain
  obtain rfl := Option.some.inj (hread.symm.trans hp)
  obtain ⟨-, rfl⟩ := hls.unique (.here _) h.ends hend
  exact Bool.false_ne_true (hl.symm.trans h.loader)

/-! ### Its steps -/

section
variable {s : Programs 64 Unit}

/-- What the engine is told of the two calls. -/
theorem execRegs_told : seccompTraces shellHost execRegs = true ∧
    shellHost.nr.is .execve (execRegs shellHost.arch.sysno).toInt = true ∧
    ¬shellHost.nr.is .execveat (execRegs shellHost.arch.sysno).toInt = true ∧
    seccompTraces shellHost readRegs = true ∧
    isReadlink shellHost.nr (readRegs shellHost.arch.sysno).toInt = true := by
  decide +kernel

theorem shell_enters {regs : Regs 64} (hp : s.place pid = .user) (hr : s.W.regs pid = some regs)
    (ht : seccompTraces shellHost regs = true) (hk : s.phase pid = .known)
    (hw : ∀ c, s.phase c ≠ .awaits pid) : MindedStep shellHost false s ⟨.enters pid true, .other⟩
      (programStep shellHost false s ⟨.enters pid true, .other⟩) := by
  refine ⟨⟨⟨hp, fun regs' hr' => ?_⟩, hw⟩, ⟨trivial, hk⟩, rfl⟩
  rw [hr] at hr'
  cases hr'
  exact ht.symm

theorem shell_execs {p : Program} (hp : s.place pid = .inside ⟨true, some execRegs⟩)
    (hr : s.W.regs pid = some (execRegs.put x86_64.ret 0)) (hs : StartedAs shellHost (s.entered pid) p)
    (hw : ∀ c, s.phase c ≠ .awaits pid)
    (hl : ∀ q, q ≠ pid → s.leader q = s.leader pid → s.place q = .absent) :
    MindedStep shellHost false s ⟨.leaves pid, .execs p⟩
      (programStep shellHost false s ⟨.leaves pid, .execs p⟩) := by
  have hregs : ∀ regs, s.W.regs pid = some regs → regs x86_64.ret = 0 := by
    intro regs h
    rw [hr] at h
    cases h
    exact Regs.put_self _ _ _
  refine ⟨⟨⟨_, hp⟩, hw, ⟨_, _, hp, rfl, .inl execRegs_told.2.1⟩, hregs, hs, hl⟩,
    ⟨fun c hc _ => ?_, by rw [hr]; rfl, fun c regs hc hcr hat => ?_⟩, rfl⟩
  · rw [hp] at hc
    cases hc
    rfl
  · rw [hp] at hc
    cases hc
    cases hcr
    exact absurd hat execRegs_told.2.2.1

theorem shell_runs (f : World 64 Unit → World 64 Unit) :
    MindedStep shellHost false s ⟨.runs f, .other⟩ (programStep shellHost false s ⟨.runs f, .other⟩) :=
  ⟨⟨trivial, trivial⟩, ⟨trivial, trivial⟩, rfl⟩

end

theorem shellStart_phase (c p : Nat) : shellStart.phase c ≠ .awaits p := by
  show (if c = 7 then Phase.known else .gone) ≠ _
  split <;> nofun

/-- Once the fork is reported. -/
theorem shellAt_phase (c p : Nat) : (shellAt 5).phase c ≠ .awaits p := by
  show Function.update (Function.update shellStart.phase 8 (.awaits 7)) 8 .known c ≠ _
  rw [Function.update_apply]
  split
  · nofun
  · rw [Function.update_of_ne ‹_›]
    exact shellStart_phase c p

theorem tool_execs : MindedStep shellHost false (shellAt 2)
    ⟨.leaves 7, .execs ⟨some (cstr "/bin/tool"), cstr "/r/l"⟩⟩ (shellAt 3) := by
  have hp : (shellAt 2).place 7 = .inside ⟨true, some execRegs⟩ := by
    simp [shellAt, shellRuns, programStep_place]
    rfl
  have hu : (shellAt 2).entered 7 = some (handedIn shellStart 7 execRegs) := rfl
  have hname : guestAbsolute shellHost (handedIn shellStart 7 execRegs) (cstr "/bin/tool") pathLen =
      cstr "/bin/tool" := by decide +kernel
  refine shell_execs hp rfl (fun name => ?_) (fun c => shellStart_phase c 7) fun q hq _ => ?_
  · rw [hu]
    constructor
    · rintro ⟨⟩
      exact ⟨_, _, rfl, tool_started, givenAs_iff.2 hname⟩
    · rintro ⟨v, q, hv, hq, hg⟩
      rw [← Option.some.inj hv] at hq hg
      obtain rfl := hq.unique tool_started
      rw [← givenAs_iff.1 hg, hname]
  · simp [shellAt, shellRuns, programStep_place, shellStart, Programs.start, Tasks.start, hq]

theorem shell_execs_direct : MindedStep shellHost false (shellAt 9)
    ⟨.leaves 8, .execs ⟨none, cstr "/r/bin/sh"⟩⟩ (shellAt 10) := by
  have hp : (shellAt 9).place 8 = .inside ⟨true, some execRegs⟩ := by
    simp [shellAt, shellRuns, programStep_place]
    rfl
  have hu : (shellAt 9).entered 8 = some (handedIn (shellAt 7) 8 execRegs) := rfl
  refine shell_execs hp rfl (fun name => ?_) (fun c => shellAt_phase c 8) fun q hq hl => ?_
  · rw [hu]
    constructor
    · nofun
    · rintro ⟨v, q, hv, hq, -⟩
      rw [← Option.some.inj hv] at hq
      exact (shell_direct q hq).elim
  · have hleader : (shellAt 9).leader = Function.update (fun pid => pid) 8 8 := by
      simp [shellAt, shellRuns, programStep_leader, shellStart, Programs.start, Tasks.start]
    rw [hleader, Function.update_self, Function.update_of_ne hq] at hl
    exact (hq hl).elim

theorem shell_run : Run (MindedStep shellHost false) shellStart shellRuns (shellAt 10) := by
  have h0 : MindedStep shellHost false shellStart ⟨.enters 7 true, .other⟩ (shellAt 1) :=
    shell_enters rfl rfl execRegs_told.1 rfl fun c => shellStart_phase c 7
  have h3 : MindedStep shellHost false (shellAt 3) ⟨.clones 7 8 false, .other⟩ (shellAt 4) := by
    have hp : (shellAt 3).place 7 = .user := by simp [shellAt, shellRuns, programStep_place]
    have hp8 : (shellAt 3).place 8 = .absent := by
      simp [shellAt, shellRuns, programStep_place, shellStart, Programs.start, Tasks.start]
    exact ⟨⟨⟨by simp [hp], hp8⟩, fun c => shellStart_phase c 7⟩, ⟨trivial, trivial⟩, rfl⟩
  have h4 : MindedStep shellHost false (shellAt 4)
      ⟨.reports 7 ⟨SIGTRAP, PTRACE_EVENT_FORK, 8⟩, .other⟩ (shellAt 5) := by
    have hp : (shellAt 4).place 7 = .user := by simp [shellAt, shellRuns, programStep_place]
    exact ⟨⟨⟨by simp [hp], by decide⟩, rfl⟩, ⟨trivial, fun _ => rfl⟩, rfl⟩
  have h5 : MindedStep shellHost false (shellAt 5) ⟨.reports 8 initialStop, .other⟩ (shellAt 6) := by
    have hp : (shellAt 5).place 8 = .new := by simp [shellAt, shellRuns, programStep_place]
    exact ⟨⟨⟨by simp [hp], by decide⟩, fun c => shellAt_phase c 8⟩, ⟨trivial, fun _ => rfl⟩, rfl⟩
  have h7 : MindedStep shellHost false (shellAt 7) ⟨.enters 8 true, .other⟩ (shellAt 8) := by
    have hp : (shellAt 7).place 8 = .user := by
      simp [shellAt, shellRuns, programStep_place, Place.awake]
    exact shell_enters hp rfl execRegs_told.1 rfl fun c => shellAt_phase c 8
  exact .cons h0 (.cons (shell_runs _) (.cons tool_execs (.cons h3 (.cons h4 (.cons h5
    (.cons (shell_runs _) (.cons h7 (.cons (shell_runs _) (.cons shell_execs_direct (.nil _))))))))))

theorem read_run (p text : CStr) :
    Run (MindedStep shellHost false) shellStart (shellRuns ++ readRuns p text) (readAt p text) := by
  have hplace : (atRead p).place 7 = .user := by
    simp [atRead, shellAt, shellRuns, programStep_place, Place.awake]
  have hregs : (atRead p).W.regs 7 = some readRegs := rfl
  have henters := shell_enters hplace hregs execRegs_told.2.2.2.1 rfl fun c => shellAt_phase c 7
  exact shell_run.append (.cons (shell_runs _) (.cons henters (.cons (shell_runs _) (.nil _))))

/-- The call that is left then. -/
theorem readAt_inside (p text : CStr) : (readAt p text).place 7 = .inside ⟨true, some readRegs⟩ := by
  simp [readAt, atRead, programStep_place]
  rfl

/-- What the exit of the call is handed. -/
def leftRead (p text : CStr) : St 64 Unit :=
  handedIn (readAt p text) 7 (readRegs.put x86_64.ret (BitVec.ofNat 64 text.length))

theorem leftRead_ran {p text : CStr} (htext : text ≠ [] ∧ 0 ∉ text ∧ text.length ≤ 64)
    (h : (leftRead p text).ctx.bindings = [] ∧
      shellHost.actionOf (leftRead p text).t.sysno = some .readlink ∧
      (leftRead p text).t.exe.length < pathLen ∧
      linkSize shellHost (leftRead p text) = 64 ∧ linkBuf shellHost (leftRead p text) = 4096) :
    ReadlinkRan shellHost (readMem p).toMemory (leftRead p text) text := by
  obtain ⟨hne, h0, hlen⟩ := htext
  obtain ⟨hb, ha, hexe, hsize, hbuf⟩ := h
  have htaken : linkTaken shellHost (leftRead p text) = 64 := by simp [linkTaken, hsize]
  have htake : text.take 64 = text := List.take_of_length_le hlen
  refine ⟨⟨⟨hne, h0⟩, by simp only [pathLen]; omega, by simp [hb]⟩, ha, hexe,
    by rw [htaken]; decide, ?_, ?_, ?_⟩
  · rw [htaken, htake, hbuf]
    exact Memory.canWrite_iff.2 fun _ _ => rfl
  · rw [htaken, htake, hbuf]
    rfl
  · rw [htaken, htake, BitVec.ofInt_natCast]
    exact Regs.put_self readRegs x86_64.ret _

theorem read_offered {p text : CStr} {q : Nat}
    (hran : ReadlinkRan shellHost (readMem p).toMemory (leftRead p text) text)
    (hq : (readAt p text).place q ≠ .absent) (htext : text = ((readAt p text).program q).image) :
    ProgramOffered shellHost (readAt p text) (readOf q text) := by
  have hp := readAt_inside p text
  refine ⟨⟨_, hp⟩, fun c => shellAt_phase c 7, ⟨_, _, hp, rfl, execRegs_told.2.2.2.2⟩,
    ⟨_, _, rfl, hran⟩, ?_⟩
  rintro q' ⟨⟩
  exact ⟨hq, htext⟩

/-- The tool's own link shows the tool. -/
theorem own_program_shown :
    Truthful shellHost (readAt (cstr "/proc/7/exe") (cstr "/r/l"))
      (readOf 7 (cstr "/r/l"))
      (programStep shellHost false (readAt (cstr "/proc/7/exe") (cstr "/r/l"))
        (readOf 7 (cstr "/r/l"))) := by
  have hran : ReadlinkRan shellHost (readMem (cstr "/proc/7/exe")).toMemory
      (leftRead (cstr "/proc/7/exe") (cstr "/r/l")) (cstr "/r/l") :=
    leftRead_ran (by decide) (by decide +kernel)
  have hp := readAt_inside (cstr "/proc/7/exe") (cstr "/r/l")
  have hoffered := read_offered hran (by rw [hp]; nofun) rfl
  obtain ⟨hproc, hspelled, hexe⟩ :
      (readAt (cstr "/proc/7/exe") (cstr "/r/l")).spelledProc shellHost 7 = true ∧
      (readAt (cstr "/proc/7/exe") (cstr "/r/l")).spelledExe shellHost 7 = true ∧
      (leftRead (cstr "/proc/7/exe") (cstr "/r/l")).t.procLinkExe = true ∧
      (leftRead (cstr "/proc/7/exe") (cstr "/r/l")).t.exe ≠ [] := by decide +kernel
  refine exe_links_true (read_run _ _) ⟨hoffered, ⟨fun c hc _ => ?_, ?_⟩, rfl⟩
  · rw [hp] at hc
    cases hc
    rfl
  · refine ⟨fun q hq => ?_, nofun, fun v m hv hran => ?_⟩
    · cases hq
      rw [if_pos hspelled]
      exact ⟨hproc, rfl⟩
    · rw [if_pos hproc]
      obtain rfl : leftRead (cstr "/proc/7/exe") (cstr "/r/l") = v := Option.some.inj hv
      unfold ReadlinkFits
      dsimp only
      rw [if_pos hexe, ← Memory.write_canWrite m, ← hran.mem]
      exact Memory.canWrite_iff.2 fun _ _ => rfl

/-- **The caller's program is shown for another's.** -/
theorem other_program_shown :
    Run (MindedStep shellHost false) shellStart
        (shellRuns ++ readRuns (cstr "/proc/8/exe") (cstr "/r/bin/sh"))
        (readAt (cstr "/proc/8/exe") (cstr "/r/bin/sh")) ∧
      ProgramOffered shellHost (readAt (cstr "/proc/8/exe") (cstr "/r/bin/sh"))
        (readOf 8 (cstr "/r/bin/sh")) ∧
      ¬Truthful shellHost (readAt (cstr "/proc/8/exe") (cstr "/r/bin/sh"))
        (readOf 8 (cstr "/r/bin/sh"))
        (programStep shellHost false (readAt (cstr "/proc/8/exe") (cstr "/r/bin/sh"))
          (readOf 8 (cstr "/r/bin/sh"))) := by
  have hran : ReadlinkRan shellHost (readMem (cstr "/proc/8/exe")).toMemory
      (leftRead (cstr "/proc/8/exe") (cstr "/r/bin/sh")) (cstr "/r/bin/sh") :=
    leftRead_ran (by decide) (by decide +kernel)
  have hp : (readAt (cstr "/proc/8/exe") (cstr "/r/bin/sh")).place 8 = .user := by
    simp [readAt, atRead, shellAt, shellRuns, programStep_place]
  refine ⟨read_run _ _, read_offered hran (by rw [hp]; nofun) rfl, fun h => ?_⟩
  obtain ⟨u, hu, -, hret, -⟩ := h (leftRead (cstr "/proc/8/exe") (cstr "/r/bin/sh")) _ rfl hran
  -- nine bytes are reported, for the seven of the shell
  have hnine : ((programStep shellHost false (readAt (cstr "/proc/8/exe") (cstr "/r/bin/sh"))
        (readOf 8 (cstr "/r/bin/sh"))).W.regs 7).map (· x86_64.ret) = some 9 ∧
      ((readAt (cstr "/proc/8/exe") (cstr "/r/bin/sh")).due shellHost 7
        (leftRead (cstr "/proc/8/exe") (cstr "/r/bin/sh")) ⟨some 8, cstr "/r/bin/sh"⟩).length = 7 ∧
      linkSize shellHost (leftRead (cstr "/proc/8/exe") (cstr "/r/bin/sh")) = 64 := by
    decide +kernel
  obtain ⟨hnine, hseven, hsize⟩ := hnine
  rw [hu] at hnine
  have hnine : u.regs shellHost.arch.ret = 9 := Option.some.inj hnine
  rw [hret, hseven, hsize] at hnine
  revert hnine
  decide

end Emuroot
