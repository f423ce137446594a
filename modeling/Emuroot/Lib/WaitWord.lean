import Mathlib.Data.Nat.Bitwise

/-!
# Status words of `waitpid`

A `Change` of a child is reported as a word, and the macros of `<sys/wait.h>` take the word apart.
`decode_word`: they say what has happened.
-/

namespace WaitWord

/-- `WTERMSIG` -/
def termsig (s : Nat) : Nat := s &&& 0x7f

/-- `WEXITSTATUS`, which is `WSTOPSIG` too. -/
def exitstatus (s : Nat) : Nat := (s &&& 0xff00) >>> 8

/-- What a word stands for. -/
inductive Meaning
  | exited (code : Nat)
  | signaled (sig : Nat)
  | stopped (sig event : Nat)
  | continued
  deriving DecidableEq, Repr

/-- `WIFEXITED`, `WIFSIGNALED` and `WIFSTOPPED` one after another, with what they allow to read. A
word that is none of them is that of a child that goes on. -/
def decode (s : Nat) : Meaning :=
  if termsig s = 0 then .exited (exitstatus s)
  else if termsig s ≠ 0x7f then .signaled (termsig s)
  else if s &&& 0xff = 0x7f then .stopped (exitstatus s) (s >>> 16)
  else .continued

/-- The number of a signal. -/
structure Signal where
  num : Nat
  pos : 0 < num
  lt : num < 0x7f

/-- What becomes of a child: it calls `_exit`, dies of a signal, stops (with the number of a ptrace
event) or goes on. -/
inductive Change
  | exits (status : Nat)
  | dies (sig : Signal) (core : Bool)
  | stops (sig : Fin 256) (event : Nat)
  | goesOn

/-- The word that the kernel reports. -/
def Change.word : Change → Nat
  | exits status => (status &&& 0xff) <<< 8
  | dies sig core => sig.num + if core then 0x80 else 0
  | stops sig event => event <<< 16 + sig.val <<< 8 + 0x7f
  | goesOn => 0xffff

/-- What the word says of it. -/
def Change.meaning : Change → Meaning
  | exits status => .exited (status % 256)
  | dies sig _ => .signaled sig.num
  | stops sig event => .stopped sig.val event
  | goesOn => .continued

theorem and_ff (n : Nat) : n &&& 0xff = n % 256 := Nat.and_two_pow_sub_one_eq_mod n 8

theorem termsig_eq (s : Nat) : termsig s = s % 128 := Nat.and_two_pow_sub_one_eq_mod s 7

theorem exitstatus_eq (s : Nat) : exitstatus s = s / 256 % 256 := by
  have h : (s &&& 0xff00) >>> 8 = (s >>> 8) &&& 0xff := Nat.shiftRight_and_distrib
  rw [exitstatus, h, Nat.shiftRight_eq_div_pow, and_ff]

theorem decode_exits (status : Nat) :
    decode (Change.exits status).word = .exited (status % 256) := by
  have hs : (Change.exits status).word = status % 256 * 256 := by
    rw [Change.word, and_ff, Nat.shiftLeft_eq]
  have hterm : termsig (Change.exits status).word = 0 := by
    rw [termsig_eq, hs]
    omega
  have hcode : exitstatus (Change.exits status).word = status % 256 := by
    rw [exitstatus_eq, hs]
    omega
  rw [decode, if_pos hterm, hcode]

theorem decode_dies (sig : Signal) (core : Bool) :
    decode (Change.dies sig core).word = .signaled sig.num := by
  have hpos := sig.pos
  have hlt := sig.lt
  have hterm : termsig (Change.dies sig core).word = sig.num := by
    rw [termsig_eq, Change.word]
    split <;> omega
  rw [decode, hterm, if_neg (by omega), if_pos (by omega)]

theorem decode_stops (sig : Fin 256) (event : Nat) :
    decode (Change.stops sig event).word = .stopped sig.val event := by
  have hlt := sig.isLt
  have hs : (Change.stops sig event).word = event * 65536 + sig.val * 256 + 127 := by
    rw [Change.word, Nat.shiftLeft_eq, Nat.shiftLeft_eq]
  have hterm : termsig (Change.stops sig event).word = 0x7f := by
    rw [termsig_eq, hs]
    omega
  have hlow : (Change.stops sig event).word &&& 0xff = 0x7f := by
    rw [and_ff, hs]
    omega
  have hsig : exitstatus (Change.stops sig event).word = sig.val := by
    rw [exitstatus_eq, hs]
    omega
  have hevent : (Change.stops sig event).word >>> 16 = event := by
    rw [Nat.shiftRight_eq_div_pow, hs]
    omega
  rw [decode, hterm, if_neg (by decide), if_neg (by decide), if_pos hlow, hsig, hevent]

/-- **A word says what has happened.** -/
theorem decode_word (ch : Change) : decode ch.word = ch.meaning := by
  cases ch with
  | exits status => exact decode_exits status
  | dies sig core => exact decode_dies sig core
  | stops sig event => exact decode_stops sig event
  | goesOn => rfl

end WaitWord
