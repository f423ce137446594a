import Emuroot.Model.Seccomp
import Emuroot.Proof.FastPath

/-!
# The seccomp program

`seccompTrace_exact`: the program stops exactly the listed numbers of the native ABI.
`seccompTraces_iff`: on the engine's own list it is the filter of the event loop.
-/

namespace Emuroot

open Bpf

section
variable (auditArch : BitVec 32) (nrs : List Int)

theorem length_filterArray : (filterArray auditArch nrs).length = nrs.length + 6 := by
  simp [filterArray]

/-- The length fits the kernel's 16 bits. -/
theorem seccompTrace_eq (h1 : 1 ≤ nrs.length) (h2 : nrs.length ≤ maxFiltered) :
    seccompTrace auditArch nrs = some (filterArray auditArch nrs) := by
  have hn : ¬(nrs.length = 0 ∨ nrs.length > maxFiltered) := by omega
  unfold maxFiltered at h2
  simp only [seccompTrace, if_neg hn, Option.some.injEq]
  apply List.take_of_length_le
  rw [length_filterArray]
  omega

theorem filterArray_test (i : Nat) (hi : i < (nrs.map (BitVec.ofInt 32)).length) :
    (filterArray auditArch nrs)[4 + i]? =
      some (jump jmpJeqK (nrs.map (BitVec.ofInt 32))[i]
        (BitVec.ofNat 8 ((nrs.map (BitVec.ofInt 32)).length - i)) 0) := by
  rw [List.length_map] at hi
  unfold filterArray
  rw [List.append_assoc, List.getElem?_append_right (by simp)]
  rw [List.getElem?_append_left (by simpa using hi)]
  simp [hi]

/-- The two returns after the tests. -/
theorem filterArray_ret (i : Nat) :
    (filterArray auditArch nrs)[4 + nrs.length + i]? =
      [stmt retK SECCOMP_RET_ALLOW, stmt retK SECCOMP_RET_TRACE][i]? := by
  unfold filterArray
  rw [List.getElem?_append_right (by simp; omega)]
  congr 1
  simp
  omega

/-- The program after its look at the architecture. -/
theorem run_filterArray (d : SeccompData) :
    run (filterArray auditArch nrs) d.word =
      (machine (filterArray auditArch nrs) d.word).run
        ⟨if d.arch = auditArch then 3 else 2, d.arch⟩ := by
  have hload : (filterArray auditArch nrs)[0]? = some (stmt ldWAbs 4) := rfl
  have htest : (filterArray auditArch nrs)[1]? = some (jump jmpJeqK auditArch 1 0) := rfl
  have harch : d.word (4 : BitVec 32).toNat = some d.arch := rfl
  unfold run
  rw [run_load hload harch, run_jeq htest]
  split <;> rfl

/-- A call of another ABI is let through at once. -/
theorem run_filterArray_foreign (d : SeccompData) (h : d.arch ≠ auditArch) :
    run (filterArray auditArch nrs) d.word = some SECCOMP_RET_ALLOW := by
  rw [run_filterArray, if_neg h]
  exact run_ret rfl

/-- A call of the native ABI is looked up in the list. -/
theorem run_filterArray_native (d : SeccompData) (h : d.arch = auditArch)
    (hl : nrs.length < 2 ^ 8) :
    run (filterArray auditArch nrs) d.word =
      some (if d.nr ∈ nrs.map (BitVec.ofInt 32) then SECCOMP_RET_TRACE
        else SECCOMP_RET_ALLOW) := by
  have hload : (filterArray auditArch nrs)[3]? = some (stmt ldWAbs 0) := rfl
  have hnr : d.word (0 : BitVec 32).toNat = some d.nr := rfl
  rw [run_filterArray, if_pos h, run_load hload hnr]
  rw [run_tests (by simpa using hl) (filterArray_test auditArch nrs), List.length_map]
  apply run_ret
  rw [filterArray_ret]
  split <;> rfl

end

/-- The program built for up to `MAX_FILTERED` numbers ends with TRACE for a listed number of the
native ABI and with ALLOW for every other call. -/
theorem seccompTrace_exact (auditArch : BitVec 32) (nrs : List Int) (h1 : 1 ≤ nrs.length)
    (h2 : nrs.length ≤ maxFiltered) :
    ∃ prog, seccompTrace auditArch nrs = some prog ∧
      ∀ d : SeccompData, run prog d.word =
        some (if d.arch = auditArch ∧ d.nr ∈ nrs.map (BitVec.ofInt 32) then SECCOMP_RET_TRACE
          else SECCOMP_RET_ALLOW) := by
  refine ⟨_, seccompTrace_eq auditArch nrs h1 h2, fun d => ?_⟩
  by_cases ha : d.arch = auditArch
  · rw [run_filterArray_native auditArch nrs d ha (Nat.lt_of_le_of_lt h2 (by decide))]
    simp only [ha, true_and]
  · rw [run_filterArray_foreign auditArch nrs d ha, if_neg fun h => ha h.1]

/-- x86-64, three numbers. -/
theorem seccompTrace_exact_three :
    ∃ prog, seccompTrace 0xC000003E [2, 257, 59] = some prog ∧
      ∀ d : SeccompData, run prog d.word =
        some (if d.arch = 0xC000003E ∧ d.nr ∈ [2, 257, 59].map (BitVec.ofInt 32) then
          SECCOMP_RET_TRACE else SECCOMP_RET_ALLOW) :=
  seccompTrace_exact _ _ (by decide) (by decide)

/-! ## The engine's list -/

variable {w : Nat} {σ : Type} (P : Platform w σ)

/-- The list fits the filter. -/
theorem length_tracedSyscalls (N : Numbers) (lp64 : Bool) :
    (tracedSyscalls N lp64).length ≤ maxFiltered := by
  have h1 := List.length_filterMap_le (fun d : PathSyscall => N.nr d.nr) pathTable
  have h2 := List.length_filterMap_le (fun d => N.nr d.nr)
    (actionTable.filter fun d => !d.lp64Only || lp64)
  have h3 := List.length_filterMap_le N.nr [.execve, .bind, .connect, .sendto]
  have h4 := List.length_filter_le (fun d => !d.lp64Only || lp64) actionTable
  have hp : pathTable.length ≤ 150 := by decide
  have ha : actionTable.length ≤ 90 := by decide
  simp only [tracedSyscalls, List.length_append]
  simp only [List.length_cons, List.length_nil] at h3
  unfold maxFiltered
  omega

/-- At a call of the native ABI the installed program and the event loop's `seccompTraces` agree. -/
theorem seccompTraces_iff (auditArch : BitVec 32) (regs : Regs w)
    (h : tracedSyscalls P.nr (lp64 w) ≠ []) :
    ∃ prog, seccompTrace auditArch (tracedSyscalls P.nr (lp64 w)) = some prog ∧
      (run prog (SeccompData.word ⟨(regs P.arch.sysno).setWidth 32, auditArch⟩) =
        some SECCOMP_RET_TRACE ↔ seccompTraces P regs = true) := by
  rcases seccompTrace_exact auditArch (tracedSyscalls P.nr (lp64 w))
    (List.length_pos_of_ne_nil h) (length_tracedSyscalls P.nr _) with ⟨prog, hprog, hrun⟩
  refine ⟨prog, hprog, ?_⟩
  have hne : SECCOMP_RET_ALLOW ≠ SECCOMP_RET_TRACE := by decide
  rw [hrun]
  simp [seccompTraces, hne]

end Emuroot
