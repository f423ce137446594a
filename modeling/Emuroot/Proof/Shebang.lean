import Emuroot.Model.Exec
import Mathlib.Data.List.DropRight

/-!
# `#!` lines

`Shebang.line` writes an interpreter and its argument as the first line of a script, with any
blanks around the words. `shebang_round_trip`: `parse_shebang` reads both back from any file that
begins so, and nothing from a file without such a line.
-/

namespace Emuroot

/-- `'\n'` -/
def newline : Byte := 10

/-- What `parse_shebang` takes off the end of an argument. -/
def isTrimmed (c : Byte) : Bool := isBlank c || c == 13

/-- A run of spaces and tabs. -/
def Blanks (s : CStr) : Prop := ∀ c ∈ s, isBlank c = true

/-- What follows a line: the end of the file, or a newline and anything. -/
inductive LineEnd : List Byte → Prop
  | eof : LineEnd []
  | more (rest : List Byte) : LineEnd (newline :: rest)

/-- An interpreter and an argument that a `#!` line can name. -/
structure Shebang where
  interp : CStr
  arg : Option CStr
  interp_ne : interp ≠ []
  interp_text : ∀ c ∈ interp, isBlank c = false ∧ c ≠ 0 ∧ c ≠ newline
  arg_ne : ∀ a ∈ arg, a ≠ []
  arg_text : ∀ a ∈ arg, ∀ c ∈ a, c ≠ 0 ∧ c ≠ newline
  arg_head : ∀ a ∈ arg, ∀ c ∈ a.head?, isTrimmed c = false
  arg_last : ∀ a ∈ arg, ∀ c ∈ a.getLast?, isTrimmed c = false

/-- The blanks of a line: before the interpreter, between it and the argument, after the last. -/
structure Spacing (sb : Shebang) where
  before : CStr
  between : CStr
  after : CStr
  blanks : Blanks before ∧ Blanks between ∧ Blanks after
  apart : sb.arg ≠ none → between ≠ []

/-- What follows the interpreter on the line. -/
def Shebang.tail (sb : Shebang) (sp : Spacing sb) : CStr :=
  match sb.arg with
  | none => sp.after
  | some a => sp.between ++ (a ++ sp.after)

/-- The line without its newline. -/
def Shebang.line (sb : Shebang) (sp : Spacing sb) : CStr :=
  cstr "#!" ++ (sp.before ++ (sb.interp ++ sb.tail sp))

/-! ## Blanks -/

theorem Blanks.ne {s : CStr} (h : Blanks s) : ∀ c ∈ s, c ≠ 0 ∧ c ≠ newline := by
  intro c hc
  have := h c hc
  constructor
  · rintro rfl
    cases this
  · rintro rfl
    cases this

theorem Blanks.dropWhile_append {s t : CStr} (h : Blanks s) :
    (s ++ t).dropWhile isBlank = t.dropWhile isBlank :=
  List.dropWhile_append_of_pos h

theorem dropWhile_eq_self {p : Byte → Bool} {s : CStr} (h : ∀ c ∈ s.head?, p c = false) :
    s.dropWhile p = s := by
  cases s with
  | nil => rfl
  | cons c s => exact List.dropWhile_cons_of_neg (by simp [h c rfl])

theorem rdropWhile_append_of_pos {p : Byte → Bool} {s t : CStr} (h : ∀ c ∈ t, p c = true) :
    (s ++ t).rdropWhile p = s.rdropWhile p := by
  rw [List.rdropWhile, List.reverse_append,
    List.dropWhile_append_of_pos fun c hc => h c (List.mem_reverse.1 hc)]
  rfl

/-! ## The line -/

variable {sb : Shebang}

theorem Shebang.tail_text (sp : Spacing sb) : ∀ c ∈ sb.tail sp, c ≠ 0 ∧ c ≠ newline := by
  intro c hc
  unfold tail at hc
  split at hc
  · exact sp.blanks.2.2.ne c hc
  · rename_i a ha
    rcases List.mem_append.1 hc with hc | hc
    · exact sp.blanks.2.1.ne c hc
    · rcases List.mem_append.1 hc with hc | hc
      · exact sb.arg_text a ha c hc
      · exact sp.blanks.2.2.ne c hc

theorem Shebang.body_text (sp : Spacing sb) :
    ∀ c ∈ sp.before ++ (sb.interp ++ sb.tail sp), c ≠ 0 ∧ c ≠ newline := by
  intro c hc
  rcases List.mem_append.1 hc with hc | hc
  · exact sp.blanks.1.ne c hc
  · rcases List.mem_append.1 hc with hc | hc
    · exact (sb.interp_text c hc).2
    · exact sb.tail_text sp c hc

/-- The interpreter ends where the line does, or at a blank. -/
theorem Shebang.tail_head (sp : Spacing sb) : ∀ c ∈ (sb.tail sp).head?, isBlank c = true := by
  intro c hc
  unfold tail at hc
  split at hc
  · exact sp.blanks.2.2 c (List.mem_of_mem_head? hc)
  · rename_i a ha
    have hne : sp.between ≠ [] := sp.apart (by simp [ha])
    rw [List.head?_append_of_ne_nil _ hne] at hc
    exact sp.blanks.2.1 c (List.mem_of_mem_head? hc)

/-- Behind the interpreter there is the argument, trimmed at both ends. -/
theorem Shebang.tail_arg (sp : Spacing sb) :
    (((sb.tail sp).dropWhile isBlank).reverse.dropWhile isTrimmed).reverse = sb.arg.getD [] := by
  have hafter : ∀ c ∈ sp.after, isTrimmed c = true := fun c hc => by
    rw [isTrimmed, sp.blanks.2.2 c hc, Bool.true_or]
  show ((sb.tail sp).dropWhile isBlank).rdropWhile isTrimmed = _
  unfold tail
  split
  · rename_i ha
    have hnil : sp.after.dropWhile isBlank = [] := List.dropWhile_eq_nil_iff.2 sp.blanks.2.2
    rw [ha, hnil]
    rfl
  · rename_i a ha
    have hhead : ∀ c ∈ (a ++ sp.after).head?, isBlank c = false := by
      intro c hc
      rw [List.head?_append_of_ne_nil _ (sb.arg_ne a ha)] at hc
      have := sb.arg_head a ha c hc
      rw [isTrimmed, Bool.or_eq_false_iff] at this
      exact this.1
    rw [ha, sp.blanks.2.1.dropWhile_append, dropWhile_eq_self hhead,
      rdropWhile_append_of_pos hafter, Option.getD_some, List.rdropWhile_eq_self_iff]
    intro hne
    have := sb.arg_last a ha (a.getLast hne) (List.getLast?_eq_getLast_of_ne_nil hne)
    simp [this]

/-- The line behind `#!`. -/
theorem takeWhile_line {body rest : CStr} (htext : ∀ c ∈ body, c ≠ 0 ∧ c ≠ newline)
    (hend : LineEnd rest) :
    ((cstr "#!" ++ (body ++ rest)).drop 2).takeWhile (· != 10) = body := by
  have hdrop : (cstr "#!" ++ (body ++ rest)).drop 2 = body ++ rest := List.drop_left' rfl
  have hnl : ∀ c ∈ body, (c != 10) = true := fun c hc => by
    simpa [newline] using (htext c hc).2
  rw [hdrop, List.takeWhile_append_of_pos hnl]
  cases hend with
  | eof => simp
  | more rest => simp [newline]

/-- A head that begins with a short line. -/
theorem parseShebang_head {body rest : CStr} (htext : ∀ c ∈ body, c ≠ 0 ∧ c ≠ newline)
    (hend : LineEnd rest) (hlen : body.length ≤ 255) (hne : body ≠ []) :
    parseShebang (cstr "#!" ++ (body ++ rest)) =
      let p := body.dropWhile isBlank
      if p = [] then none
      else
        let arg := (((p.dropWhile (!isBlank ·)).dropWhile isBlank).reverse.dropWhile isTrimmed).reverse
        some (p.takeWhile (!isBlank ·), if arg = [] then none else some arg) := by
  have hshort : ¬((cstr "#!" ++ (body ++ rest)).length < 3 ∨
      (cstr "#!" ++ (body ++ rest)).take 2 ≠ cstr "#!") := by
    have hpos := List.length_pos_iff.2 hne
    rw [not_or]
    refine ⟨?_, not_not.2 (List.take_left' rfl)⟩
    simp only [List.length_append, show (cstr "#!").length = 2 from rfl]
    omega
  have hcstr : cStrOf body = body := by
    rw [cStrOf, List.takeWhile_eq_self_iff]
    intro c hc
    simpa using (htext c hc).1
  unfold parseShebang
  rw [if_neg hshort, takeWhile_line htext hend, List.take_of_length_le hlen, hcstr]
  rfl

theorem parseShebang_line (sp : Spacing sb) {rest : List Byte} (hend : LineEnd rest)
    (hlen : (sb.line sp).length ≤ 256) :
    parseShebang (sb.line sp ++ rest) = some (sb.interp, sb.arg) := by
  have hbody : (sp.before ++ (sb.interp ++ sb.tail sp)).length ≤ 254 := by
    rw [Shebang.line, List.length_append] at hlen
    have : (cstr "#!").length = 2 := rfl
    omega
  have hne : sp.before ++ (sb.interp ++ sb.tail sp) ≠ [] := by simp [sb.interp_ne]
  have hinterp : ∀ c ∈ sb.interp, (!isBlank c) = true := fun c hc => by
    rw [(sb.interp_text c hc).1, Bool.not_false]
  have hp : (sp.before ++ (sb.interp ++ sb.tail sp)).dropWhile isBlank = sb.interp ++ sb.tail sp := by
    rw [sp.blanks.1.dropWhile_append]
    apply dropWhile_eq_self
    intro c hc
    rw [List.head?_append_of_ne_nil _ sb.interp_ne] at hc
    exact (sb.interp_text c (List.mem_of_mem_head? hc)).1
  have htail : (sb.tail sp).dropWhile (!isBlank ·) = sb.tail sp :=
    dropWhile_eq_self fun c hc => by rw [sb.tail_head sp c hc, Bool.not_true]
  have hword : (sb.tail sp).takeWhile (!isBlank ·) = [] := by
    rw [List.takeWhile_eq_nil_iff]
    intro hpos
    have := sb.tail_head sp _ (List.head?_eq_getElem? ▸ List.getElem?_eq_getElem hpos)
    simp [this]
  rw [Shebang.line, List.append_assoc, parseShebang_head (sb.body_text sp) hend (by omega) hne]
  dsimp only
  rw [hp, if_neg (by simp [sb.interp_ne]), List.dropWhile_append_of_pos hinterp, htail, sb.tail_arg,
    List.takeWhile_append_of_pos hinterp, hword, List.append_nil]
  cases ha : sb.arg with
  | none => rfl
  | some a => rw [Option.getD_some, if_neg (sb.arg_ne a ha)]

/-- What is read of a file whose first line lies within it. -/
theorem take_line {line rest : List Byte} (hend : LineEnd rest) {n : Nat}
    (hlen : line.length + (if rest = [] then 0 else 1) ≤ n) :
    ∃ rest', LineEnd rest' ∧ (line ++ rest).take n = line ++ rest' := by
  cases hend with
  | eof =>
    rw [if_pos rfl] at hlen
    exact ⟨[], .eof, by rw [List.append_nil, List.take_of_length_le hlen]⟩
  | more rest =>
    rw [if_neg (by simp)] at hlen
    obtain ⟨k, hk⟩ : ∃ k, n - line.length = k + 1 := ⟨n - line.length - 1, by omega⟩
    refine ⟨newline :: rest.take k, .more _, ?_⟩
    rw [List.take_append, List.take_of_length_le (by omega), hk, List.take_succ_cons]

/-- A line of blanks, however much of it is read. -/
theorem parseShebang_blank {blanks rest : CStr} (hb : Blanks blanks) (hend : LineEnd rest) :
    parseShebang (cstr "#!" ++ (blanks ++ rest)) = none := by
  have hp : (cStrOf (blanks.take 255)).dropWhile isBlank = [] := by
    rw [List.dropWhile_eq_nil_iff]
    intro c hc
    exact hb c (List.mem_of_mem_take ((List.takeWhile_sublist _).subset hc))
  unfold parseShebang
  split
  · rfl
  · rw [takeWhile_line hb.ne hend]
    exact if_pos hp

/-- **`#!` lines parse back**: the interpreter and the argument of a line that lies in the first 256
bytes with its end; nothing is read from a head without `#!`, or with blanks only on the line. -/
theorem shebang_round_trip :
    (∀ (sb : Shebang) (sp : Spacing sb) (rest : List Byte), LineEnd rest →
      (sb.line sp).length + (if rest = [] then 0 else 1) ≤ 256 →
      parseShebang ((sb.line sp ++ rest).take 256) = some (sb.interp, sb.arg)) ∧
    (∀ head : List Byte, ¬cstr "#!" <+: head → parseShebang head = none) ∧
    ∀ blanks rest : CStr, Blanks blanks → LineEnd rest →
      parseShebang (cstr "#!" ++ (blanks ++ rest)) = none := by
  refine ⟨?_, ?_, fun blanks rest hb hend => parseShebang_blank hb hend⟩
  · intro sb sp rest hend hlen
    obtain ⟨rest', hend', htake⟩ := take_line hend hlen
    rw [htake]
    exact parseShebang_line sp hend' (by omega)
  · intro head hhead
    unfold parseShebang
    apply if_pos
    right
    intro htake
    exact hhead (htake ▸ List.take_prefix 2 head)

/-- An argument of two words is one argument. -/
def envShebang : Shebang where
  interp := cstr "/usr/bin/env"
  arg := some (cstr "-S python3")
  interp_ne := by decide +kernel
  interp_text := by decide +kernel
  arg_ne := by decide +kernel
  arg_text := by decide +kernel
  arg_head := by decide +kernel
  arg_last := by decide +kernel

def envSpacing : Spacing envShebang where
  before := cstr " "
  between := cstr "\t "
  after := cstr "  \t"
  blanks := by
    unfold Blanks
    decide +kernel
  apart := by decide +kernel

theorem shebang_round_trip_env :
    parseShebang ((cstr "#! /usr/bin/env\t -S python3  \t\nimport os\n").take 256) =
        some (cstr "/usr/bin/env", some (cstr "-S python3")) ∧
      parseShebang (cstr "\x7fELF") = none ∧ parseShebang (cstr "#! \t\n/bin/sh") = none := by
  obtain ⟨hline, hother, hblank⟩ := shebang_round_trip
  refine ⟨hline envShebang envSpacing (newline :: cstr "import os\n") (.more _) (by decide +kernel),
    hother _ (by decide +kernel), hblank (cstr " \t") (newline :: cstr "/bin/sh") ?_ (.more _)⟩
  unfold Blanks
  decide +kernel

end Emuroot
