import Emuroot.Lib.Words
import Mathlib.Algebra.Group.Nat.Defs

/-!
# C strings

A C string is its bytes, without the terminating NUL. `snprintf size s` is what a buffer of
`size` bytes holds after `snprintf(buf, size, ...)` has formatted the text `s` into it.
-/

namespace Emuroot

abbrev Byte := UInt8

/-- The bytes of a C string, without the NUL. -/
abbrev CStr := List Byte

/-- A string literal. -/
def cstr (s : String) : CStr := s.toUTF8.data.toList

def slash : Byte := 47

def dot : CStr := [46]
def dotdot : CStr := [46, 46]

/-- `PATH_LEN` -/
def pathLen : Nat := 4096

/-- The text `s` cut to a buffer of `size` bytes. -/
def snprintf (size : Nat) (s : CStr) : CStr := s.take (size - 1)

/-- `(off_t)v`, of so many bits, as a place to read at; `pread` refuses a negative one. -/
def offT (offBits v : Nat) : Option Nat :=
  let off := v % 2 ^ offBits
  if off < 2 ^ (offBits - 1) then some off else none

/-- The position of the last `c`. -/
def strrchr (s : CStr) (c : Byte) : Option Nat :=
  (s.reverse.findIdx? (· == c)).map fun i => s.length - 1 - i

/-- `"%d"` -/
def decimal (n : Int) : CStr := cstr (toString n)

theorem length_snprintf_le (size : Nat) (s : CStr) : (snprintf size s).length ≤ size - 1 :=
  List.length_take_le _ _

theorem snprintf_of_lt {size : Nat} {s : CStr} (h : s.length < size) : snprintf size s = s :=
  List.take_of_length_le (by omega)

theorem strrchr_append {s t : CStr} {c : Byte} (h : c ∉ t) :
    strrchr (s ++ c :: t) c = some s.length := by
  have h1 : t.reverse.findIdx? (· == c) = none :=
    List.findIdx?_eq_none_iff.2 fun x hx =>
      beq_eq_false_iff_ne.2 fun he => h (he ▸ List.mem_reverse.1 hx)
  simp [strrchr, List.findIdx?_append, List.findIdx?_cons, h1]

end Emuroot
