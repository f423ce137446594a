import Emuroot.Lib.MemoryParts
import Emuroot.Model.Transfer

/-!
# The traced process's memory word by word (`peek_poke` of `guest.c`)
-/

namespace Emuroot

variable {w : Nat}

/-- The word of an address. -/
def wordAt (x : Word w) : Word w := x &&& ~~~wordMask w

section
variable (a : Arch w)

/-- The union `cell`: the bytes of its word, and the word of its bytes. -/
def cellBytes (word : Word w) : List Byte := toBytes a.bigEndian (w / 8) word.toNat

def cellWord (bytes : List Byte) : Word w := BitVec.ofNat w (ofBytes a.bigEndian bytes)

/-- `PTRACE_PEEKDATA`; `none` is an error. -/
def peekData (m : Memory w) (addr : Word w) : Option (Word w) :=
  let bytes := m.read addr (w / 8)
  if bytes.length = w / 8 then some (cellWord a bytes) else none

/-- `PTRACE_POKEDATA`; `none` is an error. -/
def pokeData (m : Memory w) (addr word : Word w) : Option (Memory w) :=
  if m.canWrite addr (w / 8) then some (m.write addr (cellBytes a word)) else none

/-- What `peek_poke` changes: the guest's memory, its buffer and how much is done. -/
structure PeekPoke (w : Nat) where
  mem : Memory w
  buf : List Byte
  done : Nat

/-- A round of `peek_poke`. -/
def peekPokeStep (addr : Word w) (len : Nat) (writeIt : Bool) (s : PeekPoke w) :
    PeekPoke w ⊕ PeekPoke w :=
  if s.done < len then
    let word := wordAt (addr + BitVec.ofNat w s.done)
    let off := (addr + BitVec.ofNat w s.done - word).toNat
    let chunk := min (w / 8 - off) (len - s.done)
    match peekData a s.mem word with
    | none => .inr s
    | some cell =>
      if writeIt then
        let bytes := (cellBytes a cell).splice off ((s.buf.drop s.done).take chunk)
        match pokeData a s.mem word (cellWord a bytes) with
        | none => .inr s
        | some mem => .inl { s with mem := mem, done := s.done + chunk }
      else
        let got := ((cellBytes a cell).drop off).take chunk
        .inl { s with buf := s.buf.splice s.done got, done := s.done + chunk }
  else .inr s

theorem peekPokeStep_decreases {addr : Word w} {len : Nat} {writeIt : Bool} {s s' : PeekPoke w}
    (h : peekPokeStep a addr len writeIt s = .inl s') : len - s'.done < len - s.done := by
  unfold peekPokeStep at h
  split at h
  · rename_i hlt
    extract_lets word off chunk at h
    have hoff : off < w / 8 := word_off_lt a _
    have hchunk : len - (s.done + chunk) < len - s.done := by omega
    split at h
    · cases h
    · split at h
      · extract_lets bytes at h
        split at h
        · cases h
        · cases h
          exact hchunk
      · cases h
        exact hchunk
  · cases h

def peekPokeLoop (addr : Word w) (len : Nat) (writeIt : Bool) : Loop (PeekPoke w) (PeekPoke w) where
  step := peekPokeStep a addr len writeIt
  measure := fun s => len - s.done
  decreases := peekPokeStep_decreases a

/-- `peek_poke` for a buffer, with the `ssize_t` that it returns. -/
def peekPoke (m : Memory w) (addr : Word w) (buf : List Byte) (writeIt : Bool) :
    PeekPoke w × Word w :=
  let s := (peekPokeLoop a addr buf.length writeIt).run ⟨m, buf, 0⟩
  (s, if s.done = 0 ∧ buf.length > 0 then -1 else BitVec.ofNat w s.done)

end

end Emuroot
