import Emuroot.Model.RegsAccess

/-!
# Registers by either interface

`regs_transparent`: over a whole session, on a kernel with or without register sets, what the
handlers put into their copy of the registers is what changes in the tasks, and nothing else does.
-/

namespace Emuroot

variable {w size : Nat} {K : RegsKernel w} {forced : Bool} {junk r : Regs w}
  {regs : RegsPrefix w size} {mode : RegsMode}

/-- What a handler does with the registers: from its copy, what it puts into it before each
`regs_set`. -/
abbrev Edits (w size : Nat) := RegsPrefix w size → List (List (Fin size × Word w))

def putAll (regs : RegsPrefix w size) (es : List (Fin size × Word w)) : RegsPrefix w size :=
  es.foldl (fun regs e => Function.update regs e.1 e.2) regs

section
variable (K : RegsKernel w) (forced : Bool) (junk : Regs w)

/-- The edits of a handler, each batch with its `regs_set`. -/
def editRegs : RegsMode → Option (Regs w) → RegsPrefix w size → List (List (Fin size × Word w)) →
    RegsMode × Option (Regs w)
  | mode, task, _, [] => (mode, task)
  | mode, task, regs, es :: rest =>
    let regs := putAll regs es
    let (mode, task, _) := regsSet K forced junk mode task regs
    editRegs mode task regs rest

/-- A stop of a task: `regs_get`, and the handler if that succeeds. -/
def regsStop (mode : RegsMode) (s : Option (Regs w) × Edits w size) : RegsMode × Option (Regs w) :=
  match regsGet K forced junk mode s.1 with
  | (mode, none) => (mode, s.1)
  | (mode, some regs) => editRegs K forced junk mode s.1 regs (s.2 regs)

/-- A session of stops, with the registers that each leaves. -/
def regsSession : RegsMode → List (Option (Regs w) × Edits w size) → List (Option (Regs w))
  | _, [] => []
  | mode, s :: ss =>
    let (mode, task) := regsStop K forced junk mode s
    task :: regsSession mode ss

/-- The kernel has the interface that is asked for, and says so when it has no register sets. -/
structure RegsKernel.Serves : Prop where
  has : K.noRegset = none ∧ forced = false ∨ K.hasGetregs = true
  errno : ∀ e, K.noRegset = some e → e = EIO ∨ e = EINVAL ∨ e = ENOSYS

/-- What the kernel does not have is not in use. -/
def RegsMode.Possible (mode : RegsMode) : Prop := mode = .getregs → K.hasGetregs = true

/-- The interface that `regs_get` has got registers by. -/
def RegsMode.Works (mode : RegsMode) : Prop :=
  mode = .regset ∧ K.noRegset = none ∨ mode = .getregs ∧ K.hasGetregs = true

end

/-- The stop as the registers of a live task see it. -/
def plainStop (s : Option (Regs w) × Edits w size) : Option (Regs w) :=
  s.1.map fun r => (s.2 (prefixOf r)).flatten.foldl (fun r e => r.put e.1 e.2) r

/-! ## The prefix and the rest -/

@[simp] theorem overlay_prefixOf (r : Regs w) : overlay r (prefixOf r : RegsPrefix w size) = r := by
  funext i
  simp [prefixOf, overlay]

@[simp] theorem overlay_overlay (r : Regs w) (old regs : RegsPrefix w size) :
    overlay (overlay r old) regs = overlay r regs := by
  funext i
  unfold overlay
  split <;> rfl

theorem overlay_update (r : Regs w) (regs : RegsPrefix w size) (i : Fin size) (v : Word w) :
    overlay r (Function.update regs i v) = (overlay r regs).put i v := by
  funext j
  by_cases hj : j = i
  · subst hj
    simp [overlay]
  · rw [Regs.put_of_ne _ _ hj]
    unfold overlay
    split
    · rw [Function.update_of_ne fun h => hj (congrArg Fin.val h)]
    · rfl

/-- What is put into the copy is put into the registers. -/
theorem overlay_putAll (r : Regs w) (regs : RegsPrefix w size) (es : List (Fin size × Word w)) :
    overlay r (putAll regs es) = es.foldl (fun r e => r.put e.1 e.2) (overlay r regs) := by
  induction es generalizing regs with
  | nil => rfl
  | cons e es ih =>
    rw [List.foldl_cons, ← overlay_update]
    exact ih (Function.update regs e.1 e.2)

/-! ## `regs_get` and `regs_set` -/

theorem getregs_prefix (hsize : size ≤ K.words) (hK : K.hasGetregs = true) :
    (K.getregs junk (some r)).map prefixOf = some (prefixOf r : RegsPrefix w size) := by
  rw [RegsKernel.getregs, if_pos hK]
  simp only [Option.map_some, Option.some.injEq]
  funext i
  simp [prefixOf, Nat.lt_of_lt_of_le i.isLt hsize]

theorem modeNow_possible (hK : K.Serves forced) (hm : mode.Possible K) :
    modeNow forced mode = .regset ∨ modeNow forced mode = .getregs ∧ K.hasGetregs = true := by
  unfold modeNow
  cases mode with
  | undecided =>
    rw [if_pos rfl]
    cases forced with
    | true =>
      rcases hK.has with ⟨-, h⟩ | h
      · cases h
      · exact .inr ⟨rfl, h⟩
    | false => exact .inl rfl
  | regset => exact .inl rfl
  | getregs => exact .inr ⟨rfl, hm rfl⟩

/-- The registers of a live task are got, by an interface that works. -/
theorem regsGet_live (hK : K.Serves forced) (hsize : size ≤ K.words) (hm : mode.Possible K) :
    ∃ mode' : RegsMode, mode'.Works K ∧
      regsGet K forced junk mode (some r) = (mode', some (prefixOf r : RegsPrefix w size)) := by
  unfold regsGet
  dsimp only
  rcases modeNow_possible hK hm with h | ⟨h, hget⟩
  · rw [if_pos h]
    unfold RegsKernel.getregset
    cases hno : K.noRegset with
    | none => exact ⟨.regset, .inl ⟨rfl, hno⟩, rfl⟩
    | some e =>
      have hget : K.hasGetregs = true := hK.has.resolve_left fun h => by simp [hno] at h
      have he : ¬(e ≠ EIO ∧ e ≠ EINVAL ∧ e ≠ ENOSYS) := by
        rcases hK.errno e hno with rfl | rfl | rfl <;> simp
      dsimp only
      rw [if_neg he, getregs_prefix hsize hget]
      exact ⟨.getregs, .inr ⟨rfl, hget⟩, rfl⟩
  · rw [if_neg (by rw [h]; decide), h, getregs_prefix hsize hget]
    exact ⟨.getregs, .inr ⟨rfl, hget⟩, rfl⟩

/-- Those of a task that is gone are not. -/
theorem regsGet_gone (hK : K.Serves forced) (hm : mode.Possible K) :
    ∃ mode' : RegsMode, mode'.Possible K ∧
      regsGet K forced junk mode none = (mode', (none : Option (RegsPrefix w size))) := by
  unfold regsGet
  dsimp only
  rcases modeNow_possible hK hm with h | ⟨h, hget⟩
  · rw [if_pos h]
    exact ⟨.regset, nofun, rfl⟩
  · rw [if_neg (by rw [h]; decide), h]
    refine ⟨.getregs, fun _ => hget, ?_⟩
    simp [RegsKernel.getregs]

/-- By an interface that works, `regs_set` changes the prefix and leaves the rest. -/
theorem regsSet_live (hsize : size ≤ K.words) (hm : mode.Works K) :
    regsSet K forced junk mode (some r) regs = (mode, some (overlay r regs), true) := by
  unfold regsSet
  rcases hm with ⟨rfl, hno⟩ | ⟨rfl, hget⟩
  · have hmode : modeNow forced .regset = .regset := rfl
    rw [if_pos hmode]
    simp [RegsKernel.setregset, hno]
  · have hmode : modeNow forced .getregs = .getregs := rfl
    rw [if_neg (by rw [hmode]; decide), hmode]
    simp only [RegsKernel.getregs, if_pos hget, Option.map_some, RegsKernel.setregs]
    congr 3
    funext i
    by_cases hi : i < K.words
    · rw [if_pos hi]
      unfold overlay
      split
      · rfl
      · exact if_pos hi
    · rw [if_neg hi, overlay, dif_neg (by omega)]

/-- A handler's edits are edits of the task. -/
theorem editRegs_live (hsize : size ≤ K.words) (hm : mode.Works K)
    (ess : List (List (Fin size × Word w))) :
    editRegs K forced junk mode (some (overlay r regs)) regs ess =
      (mode, some (ess.flatten.foldl (fun r e => r.put e.1 e.2) (overlay r regs))) := by
  induction ess generalizing regs with
  | nil => rfl
  | cons es ess ih =>
    have hset : regsSet K forced junk mode (some (overlay r regs)) (putAll regs es) =
        (mode, some (overlay r (putAll regs es)), true) := by
      rw [regsSet_live hsize hm, overlay_overlay]
    rw [editRegs, hset, List.flatten_cons, List.foldl_append, ← overlay_putAll]
    exact ih

/-- A stop leaves the task with the edits of the handler. -/
theorem regsStop_plain (hK : K.Serves forced) (hsize : size ≤ K.words) (hm : mode.Possible K)
    (s : Option (Regs w) × Edits w size) :
    ∃ mode' : RegsMode, mode'.Possible K ∧ regsStop K forced junk mode s = (mode', plainStop s) := by
  obtain ⟨task, edits⟩ := s
  unfold regsStop plainStop
  cases task with
  | none =>
    obtain ⟨mode', hm', hget⟩ : ∃ mode' : RegsMode, mode'.Possible K ∧
        regsGet K forced junk mode none = (mode', (none : Option (RegsPrefix w size))) :=
      regsGet_gone hK hm
    exact ⟨mode', hm', by rw [hget]; rfl⟩
  | some r =>
    obtain ⟨mode', hm', hget⟩ : ∃ mode' : RegsMode, mode'.Works K ∧
        regsGet K forced junk mode (some r) = (mode', some (prefixOf r : RegsPrefix w size)) :=
      regsGet_live hK hsize hm
    refine ⟨mode', ?_, ?_⟩
    · rintro rfl
      rcases hm' with ⟨h, -⟩ | ⟨-, h⟩
      · cases h
      · exact h
    · have hedit : editRegs K forced junk mode' (some (overlay r (prefixOf r))) (prefixOf r)
          (edits (prefixOf r)) = _ := editRegs_live hsize hm' _
      rw [overlay_prefixOf] at hedit
      dsimp only
      rw [hget]
      exact hedit

/-- **The registers are the same by either interface.** For every session of stops, of live tasks and
of such as are gone, with a handler that may do as it likes with its copy of the registers: each
stop leaves the task with what the handler put into its copy, in order, and every other register of
the kernel's struct, also beyond `emuroot_regs_t`, as it was; from the first stop on, whether or not
the kernel has register sets. -/
theorem regs_transparent (K : RegsKernel w) (forced : Bool) (junk : Regs w) (hK : K.Serves forced)
    (hsize : size ≤ K.words) (ss : List (Option (Regs w) × Edits w size)) :
    regsSession K forced junk .undecided ss = ss.map plainStop := by
  have h : ∀ mode : RegsMode, mode.Possible K →
      regsSession K forced junk mode ss = ss.map plainStop := by
    induction ss with
    | nil => exact fun _ _ => rfl
    | cons s ss ih =>
      intro mode hm
      obtain ⟨mode', hm', hs⟩ : ∃ mode' : RegsMode, mode'.Possible K ∧
          regsStop K forced junk mode s = (mode', plainStop s) := regsStop_plain hK hsize hm s
      rw [regsSession, hs, List.map_cons]
      exact congrArg _ (ih mode' hm')
  exact h .undecided nofun

/-- A kernel before 2.6.34 on x86. -/
def kernel2632 : RegsKernel 32 := ⟨some EIO, true, 17, by decide⟩

/-- A task with a number of its own in each register. -/
def numberedRegs : Regs 32 := BitVec.ofNat 32

/-- There a call's number is replaced in a task, another task is gone, and the first is stopped
again. -/
theorem regs_transparent_2632 :
    regsSession kernel2632 false (fun _ => 0) .undecided
        [(some numberedRegs, fun _ => [[((11 : Fin 17), -1)]]), (none, fun _ => []),
          (some (numberedRegs.put 11 (-1)), fun _ => [[(6, 5)], [(6, 7), (11, 2)]])] =
      [some (numberedRegs.put 11 (-1)), none,
        some ((((numberedRegs.put 11 (-1)).put 6 5).put 6 7).put 11 2)] :=
  regs_transparent kernel2632 false (fun _ => 0)
    ⟨.inr rfl, fun e he => .inl (Option.some.inj he).symm⟩ (by decide) _

end Emuroot
