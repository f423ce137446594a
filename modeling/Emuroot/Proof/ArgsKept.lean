import Emuroot.Proof.ExecArgs
import Mathlib.Data.List.GetD

/-!
# The arguments of a rewritten execve

`args_kept_iff`: the arguments arrive complete exactly when there are no more than the engine's
table holds and an `argv[0]` that is passed on fits a path buffer.
-/

namespace Emuroot

variable {w : Nat} {σ : Type} {P : Platform w σ} {s : St w σ} {ps : List (Word w)} {p0 a0 : CStr}

/-- What comes before `argv[1..]`, the loader's and the scripts' strings, with the whole `argv[0]`
where it is passed on. -/
def Front (P : Platform w σ) (s : St w σ) (p0 a0 : CStr) (strs : List CStr) : Prop :=
  ∃ ls q, Scripts P s (P.content s.fs) p0 ls q ∧
    (ls.length < maxShebangDepth ∧ scriptAt (P.content s.fs) (hostPathOf P s q pathLen) = none ∧
        strs = execFront P s p0 a0 ls q ∨
      ls.length = maxShebangDepth ∧ strs = scriptArgs [p0] ls)

/-- No argument is lost: behind the front come all of `argv[1..]`, and nothing else. -/
def ArgsKept (P : Platform w σ) (s u : St w σ) (p0 : CStr) (ps : List (Word w)) (a0 : CStr) : Prop :=
  ∃ strs, Front P s p0 a0 strs ∧ HasArgs P u strs (ps.drop 1)

theorem drop_take_eq_iff (hps : ps ≠ []) :
    (ps.take maxExecArgs).drop 1 = ps.drop 1 ↔ ps.length ≤ maxExecArgs := by
  constructor
  · intro h
    have hlen := congrArg List.length h
    have hpos := List.length_pos_iff.2 hps
    simp only [List.length_drop, List.length_take, maxExecArgs] at hlen ⊢
    omega
  · intro h
    rw [List.take_of_length_le h]

/-- The arguments that a rewritten call is left with. -/
theorem argsKept_iff (hc : ExecCall P s p0 ps a0) (hE : ProperNames (s.walkEnv P true))
    (h : (rewriteExec P s 1 2).2 = 1) :
    ArgsKept P s (rewriteExec P s 1 2).1 p0 ps a0 ↔
      ps.length ≤ maxExecArgs ∧ (PassesArgv0 P s p0 → a0.length < pathLen) := by
  obtain ⟨ls, q, p, host, strs, hls, hp, -, hargs, -, hout⟩ := rewriteExec_outcome hc hE h
  have hps : ps ≠ [] := by
    rintro rfl
    cases hp
  have ha0 : s.mem.HoldsString p a0 := by
    obtain ⟨p', hp', ha⟩ := hc.first
    rw [hp] at hp'
    exact Option.some.inj hp' ▸ ha
  rw [← drop_take_eq_iff hps, ← execFront_copy_iff hls ha0]
  -- the strings of the front are known, but for `argv[0]`
  rcases hout with ⟨hlt, hend, -, rfl⟩ | ⟨hlen, -, rfl, -⟩
  · constructor
    · rintro ⟨strs', ⟨ls', q', hls', hf⟩, hargs'⟩
      rcases hf with ⟨-, hend', rfl⟩ | ⟨hlen', -⟩
      · obtain ⟨rfl, rfl⟩ := hls.unique hls' hend hend'
        obtain ⟨hstrs, hrest⟩ := hargs.unique hargs' (length_execFront ..)
        exact ⟨hrest, hstrs⟩
      · have hle := hls'.length_le hls hend
        omega
    · rintro ⟨hrest, hstrs⟩
      exact ⟨_, ⟨ls, q, hls, .inl ⟨hlt, hend, rfl⟩⟩, hrest ▸ hstrs ▸ hargs⟩
  · have hpass : ¬PassesArgv0 P s p0 := by
      rintro ⟨loader, hl, -⟩
      obtain ⟨f, hf, hparse⟩ := scriptAt_of_usesLoader hl
      cases hls with
      | here => exact absurd hlen (by decide)
      | next hs _ =>
        rw [scriptAt, hf] at hs
        rw [show parseShebang (f.take 256) = _ from hs] at hparse
        cases hparse
    have hcopy := (execFront_copy_iff hls ha0).2 fun h => (hpass h).elim
    constructor
    · rintro ⟨strs', ⟨ls', q', hls', hf⟩, hargs'⟩
      rcases hf with ⟨hlt, hend', -⟩ | ⟨hlen', rfl⟩
      · have hle := hls.length_le hls' hend'
        omega
      · obtain ⟨rfl, -⟩ := hls.unique_length hls' (hlen.trans hlen'.symm)
        exact ⟨(hargs.unique hargs' rfl).2, hcopy⟩
    · rintro ⟨hrest, -⟩
      exact ⟨_, ⟨ls, q, hls, .inr ⟨hlen, rfl⟩⟩, hrest ▸ hargs⟩

/-- **The arguments arrive complete** exactly when the engine's table holds them and an `argv[0]`
that is passed on fits its buffer. Memory off the block, which lies below the guest's stack, is as it
was, and with it the strings that the guest's pointers lead to. A call that is not rewritten fails or
is left as it is. -/
theorem args_kept_iff (hc : ExecCall P s p0 ps a0) (hE : ProperNames (s.walkEnv P true)) :
    let r := rewriteExec P s 1 2
    (r.2 = 1 →
      (ArgsKept P s r.1 p0 ps a0 ↔
        ps.length ≤ maxExecArgs ∧ (PassesArgv0 P s p0 → a0.length < pathLen)) ∧
      ∀ a, a < r.1.t.scratchTop ∨ s.t.scratchTop ≤ a → r.1.mem.byte a = s.mem.byte a) ∧
    (r.2 ≠ 1 → r.2 = -1 ∧ r.1.arg P 1 = 0 ∨ r.2 = 0 ∧ r.1.regs = s.regs ∧ r.1.mem = s.mem) := by
  refine ⟨fun h => ⟨argsKept_iff hc hE h, ?_⟩, (rewriteExec_else hc).resolve_left⟩
  obtain ⟨_, _, _, _, _, -, -, -, -, hbytes, -⟩ := rewriteExec_outcome hc hE h
  exact hbytes

/-! ## A long list of names -/

/-- A script and its interpreter in the rootfs. -/
def oneScript : Platform 64 Unit :=
  filesAt [(cstr "/r/s", cstr "#!/i\n"), (cstr "/r/i", [])]

/-- At 4096 the path `/s`, at 8192 so many pointers to it. -/
def manyNames (n : Nat) : GuestMem 64 where
  byte := fun a => some <|
    if 8192 ≤ a.toNat ∧ a.toNat < 8192 + 8 * n then (toBytes false 8 4096).getD (a.toNat % 8) 0
    else (cstr "/s").getD (a.toNat - 4096) 0
  writable := fun _ => true
  errno := 0

theorem manyNames_vector {n : Nat} (hn : n ≤ 2 ^ 20) :
    (manyNames n).HoldsVector false 8 8192 (List.replicate n 4096) := by
  have hadd : ∀ j i, j ≤ n → i < 8 →
      (BitVec.ofNat 64 (8192 + 8 * j) + BitVec.ofNat 64 i).toNat = 8192 + 8 * j + i := by
    intro j i hj hi
    rw [← BitVec.ofNat_add, BitVec.toNat_ofNat, Nat.mod_eq_of_lt (by omega)]
  have hword : ∀ j, j < n →
      (manyNames n).read (BitVec.ofNat 64 (8192 + 8 * j)) (toBytes false 8 4096).length =
        toBytes false 8 4096 := by
    intro j hj
    apply Memory.read_eq
    intro i hi
    rw [length_toBytes] at hi
    rw [manyNames]
    dsimp only
    rw [hadd j i (by omega) hi, if_pos (by omega), show (8192 + 8 * j + i) % 8 = i by omega,
      List.getD_eq_getElem]
  have hnull : (manyNames n).read (BitVec.ofNat 64 (8192 + 8 * n)) (toBytes false 8 0).length =
      toBytes false 8 0 := by
    apply Memory.read_eq
    intro i hi
    have hz : (toBytes false 8 0)[i] = 0 := by
      simp only [show toBytes false 8 0 = List.replicate 8 0 by decide, List.getElem_replicate]
    have hnone : (cstr "/s").length ≤ 8192 + 8 * n + i - 4096 := by
      show 2 ≤ _
      omega
    rw [length_toBytes] at hi
    rw [hz, manyNames]
    dsimp only
    rw [hadd n i (by omega) hi, if_neg (by omega), List.getD_eq_default _ _ hnone]
  -- by induction on how many pointers are left
  have hrest : ∀ k j, j + k = n →
      (manyNames n).HoldsVector false 8 (BitVec.ofNat 64 (8192 + 8 * j)) (List.replicate k 4096) := by
    intro k
    induction k with
    | zero =>
      intro j hj
      have hj : j = n := hj
      exact hj ▸ hnull
    | succ k ih =>
      intro j hj
      refine ⟨by decide, hword j (by omega), ?_⟩
      rw [← BitVec.ofNat_add]
      exact ih (j + 1) (by omega)
  exact hrest n 0 (Nat.zero_add n)

/-- `execve("/s", {"/s", ...}, ...)` with so many arguments. -/
theorem manyNames_call {n : Nat} (hn : n ≤ 2 ^ 20) (hpos : 0 < n) :
    ExecCall oneScript (execveIn (manyNames n)) (cstr "/s") (List.replicate n 4096) (cstr "/s") := by
  have hname : (manyNames n).HoldsString 4096 (cstr "/s") := ⟨by decide, by rfl⟩
  have harg1 : (execveIn (manyNames n)).arg oneScript 1 = 4096 := by rfl
  have harg2 : (execveIn (manyNames n)).arg oneScript 2 = 8192 := by rfl
  refine ⟨⟨harg1 ▸ by decide, harg1 ▸ hname⟩, by decide, harg2 ▸ by decide,
    harg2 ▸ manyNames_vector hn, ⟨4096, ?_, hname⟩⟩
  rw [List.head?_replicate, if_neg (by omega)]
  rfl

theorem manyNames_rewritten {n : Nat} (hn : n ≤ 2 ^ 20) (hpos : 0 < n)
    (hrew : (expandExec oneScript (execveIn (manyNames n)) maxShebangDepth
      (execStart (execveIn (manyNames n)) (cstr "/s") (List.replicate n 4096))).rewritten = true) :
    (rewriteExec oneScript (execveIn (manyNames n)) 1 2).2 = 1 := by
  apply rewriteExec_succeeds (manyNames_call hn hpos) (execveIn_proper _ _)
  · exact fun _ => rfl
  · exact canWrite_all fun _ => rfl
  · have htop : (execveIn (manyNames n)).t.scratchTop =
        (0x7fff0000#64 - 512#64) &&& ~~~15#64 := by rfl
    rw [htop]
    decide
  · exact hrew

/-- Of 8193 arguments the script is run with one less. -/
theorem many_args_cut :
    ExecCall oneScript (execveIn (manyNames 8193)) (cstr "/s") (List.replicate 8193 4096)
      (cstr "/s") ∧
    (rewriteExec oneScript (execveIn (manyNames 8193)) 1 2).2 = 1 ∧
    ¬ArgsKept oneScript (execveIn (manyNames 8193))
      (rewriteExec oneScript (execveIn (manyNames 8193)) 1 2).1 (cstr "/s")
      (List.replicate 8193 4096) (cstr "/s") := by
  have hc := manyNames_call (n := 8193) (by decide) (by decide)
  have hr := manyNames_rewritten (n := 8193) (by decide) (by decide) (by decide +kernel)
  refine ⟨hc, hr, fun h => ?_⟩
  have hlen := ((argsKept_iff hc (execveIn_proper _ _) hr).1 h).1
  rw [List.length_replicate] at hlen
  exact absurd hlen (by decide)

/-- `execve("/s", {"s", "-n", "x y"}, ...)`, with the strings on the stack. -/
def threeArgs : GuestMem 64 :=
  linuxMem
    [(4096, cstr "/s"),
      (8192, ([0x7fff1000, 0x7fff1010, 0x7fff1020] : List (Word 64)).flatMap fun p =>
        toBytes false 8 p.toNat),
      (0x7fff1000, cstr "s"), (0x7fff1010, cstr "-n"), (0x7fff1020, cstr "x y")]

/-- The script gets the three of them, and the strings are where they were. -/
theorem three_args_kept :
    let s := execveIn threeArgs
    let r := rewriteExec oneScript s 1 2
    r.2 = 1 ∧
      ArgsKept oneScript s r.1 (cstr "/s") [0x7fff1000, 0x7fff1010, 0x7fff1020] (cstr "s") ∧
      r.1.mem.HoldsString 0x7fff1010 (cstr "-n") ∧ r.1.mem.HoldsString 0x7fff1020 (cstr "x y") := by
  intro s r
  have hname : threeArgs.HoldsString 4096 (cstr "/s") := ⟨by decide, by decide +kernel⟩
  have hc : ExecCall oneScript s (cstr "/s") [0x7fff1000, 0x7fff1010, 0x7fff1020] (cstr "s") := by
    apply execveIn_args rfl hname
    · decide
    · simp
    · decide +kernel
    · exact ⟨by decide, by decide +kernel⟩
  have htop : s.t.scratchTop = (0x7fff0000#64 - 512#64) &&& ~~~15#64 := by rfl
  have hr : r.2 = 1 := by
    apply rewriteExec_succeeds hc (execveIn_proper _ _)
    · exact fun _ => rfl
    · exact canWrite_all fun _ => rfl
    · rw [htop]
      decide
    · decide +kernel
  obtain ⟨hkept, hbytes⟩ := (args_kept_iff hc (execveIn_proper _ _)).1 hr
  refine ⟨hr, hkept.2 ⟨by decide, fun _ => by decide⟩, ⟨by decide, ?_⟩, by decide, ?_⟩
  -- the stack lies above the block
  · rw [Memory.read_congr fun i hi => hbytes _ (.inr (htop ▸ by revert i; decide))]
    decide +kernel
  · rw [Memory.read_congr fun i hi => hbytes _ (.inr (htop ▸ by revert i; decide))]
    decide +kernel

end Emuroot
