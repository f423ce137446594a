import Emuroot.Lib.Runs

/-!
# Options of a command line

`getopt` reads one option after another from the elements of a command line, up to the first that is
none: options without an argument may share an element, an argument stands behind its option or is
the next element. `Spelled` says which elements spell a list of options, and `spelled_iff` that
these are the ones it is read from.
-/

namespace Getopt

variable {α : Type*}

/-- What is left of the element that is being read, and the elements behind it. -/
structure State (α : Type*) where
  left : List α
  args : List (List α)

/-- An option, with its argument if it takes one. -/
abbrev Opt (α : Type*) := α × Option (List α)

/-- What a string of options, in which a colon follows those with an argument, says of a
character. -/
def optstring [DecidableEq α] (colon : α) : List α → α → Option Bool
  | [], _ => none
  | o :: os, c =>
    if c = o ∧ c ≠ colon then some (os.head? = some colon) else optstring colon os c

section
variable (takes : α → Option Bool)

/-- The characters of an element behind its dash, and the elements behind it that it uses up. -/
inductive Bundle : List (Opt α) → List α → List (List α) → Prop
  | last {c : α} : takes c = some false → Bundle [(c, none)] [c] []
  | more {c : α} {os : List (Opt α)} {cs : List α} {used : List (List α)} :
      takes c = some false → Bundle os cs used → Bundle ((c, none) :: os) (c :: cs) used
  | attached {c : α} {arg : List α} : takes c = some true → arg ≠ [] →
      Bundle [(c, some arg)] (c :: arg) []
  | detached {c : α} {arg : List α} : takes c = some true → Bundle [(c, some arg)] [c] [arg]

/-- The next option of an element, `none` if it is not known or lacks its argument; `takes` says of a
character whether it is an option and takes an argument. -/
def option (c : α) (left : List α) (args : List (List α)) : Option (Opt α) × State α :=
  match takes c with
  | none => (none, ⟨left, args⟩)
  | some false => (some (c, none), ⟨left, args⟩)
  | some true =>
    if left ≠ [] then (some (c, some left), ⟨[], args⟩)
    else
      match args with
      | [] => (none, ⟨[], []⟩)
      | arg :: args => (some (c, some arg), ⟨[], args⟩)

end

section
variable [DecidableEq α] (dash : α) (takes : α → Option Bool)

/-- The next option, in the state after it; `none` where the options end, and an option that is
`none` for one that is not known or lacks its argument. -/
def getopt (s : State α) : Option (Option (Opt α) × State α) :=
  match s.left with
  | c :: left => some (option takes c left s.args)
  | [] =>
    match s.args with
    | (d :: c :: left) :: args =>
      if d ≠ dash ∨ (c = dash ∧ left = []) then none else some (option takes c left args)
    | _ => none

/-- The operands: what is left where the options end, without `--`. -/
def operands : List (List α) → List (List α)
  | [] => []
  | a :: args => if a = [dash, dash] then args else a :: args

/-- Operands as they stand on a command line. -/
inductive Operands : List (List α) → List (List α) → Prop
  | marked (cmd : List (List α)) : Operands ([dash, dash] :: cmd) cmd
  | plain {a : List α} (cmd : List (List α)) : a.head? ≠ some dash ∨ a = [dash] →
      Operands (a :: cmd) (a :: cmd)

/-- The elements spell the options. -/
inductive Spelled : List (Opt α) → List (List α) → Prop
  | nil : Spelled [] []
  | cons {os os' : List (Opt α)} {cs : List α} {used args : List (List α)} :
      Bundle takes os cs used → Spelled os' args →
        Spelled (os ++ os') ((dash :: cs) :: (used ++ args))

/-- One option is read. -/
def Reads (s : State α) (o : Opt α) (s' : State α) : Prop :=
  getopt dash takes s = some (some o, s')

end

variable {dash : α} {takes : α → Option Bool} {os : List (Opt α)} {c : α} {cs left : List α}
  {used args rest : List (List α)}

/-- It starts with an option. -/
theorem Bundle.head (h : Bundle takes os cs used) :
    ∃ c left, cs = c :: left ∧ takes c ≠ none := by
  cases h with
  | last hc => exact ⟨_, _, rfl, by simp [hc]⟩
  | more hc _ => exact ⟨_, _, rfl, by simp [hc]⟩
  | attached hc _ => exact ⟨_, _, rfl, by simp [hc]⟩
  | detached hc => exact ⟨_, _, rfl, by simp [hc]⟩

theorem Bundle.ne_nil (h : Bundle takes os cs used) : os ≠ [] := by
  cases h <;> exact List.cons_ne_nil _ _

/-- What an element's rest and the elements behind it spell. -/
def SpelledFrom (dash : α) (takes : α → Option Bool) (os : List (Opt α)) (s : State α)
    (rest : List (List α)) : Prop :=
  if s.left = [] then ∃ used, s.args = used ++ rest ∧ Spelled dash takes os used
  else ∃ os1 os2 used1 used2, os = os1 ++ os2 ∧ Bundle takes os1 s.left used1 ∧
    Spelled dash takes os2 used2 ∧ s.args = used1 ++ (used2 ++ rest)

theorem SpelledFrom.option {o : Opt α} {s : State α} (ho : option takes c left args = (some o, s))
    (h : SpelledFrom dash takes os s rest) :
    SpelledFrom dash takes (o :: os) ⟨c :: left, args⟩ rest := by
  unfold Getopt.option at ho
  unfold SpelledFrom at h ⊢
  rw [if_neg (List.cons_ne_nil c left)]
  cases hc : takes c with
  | none =>
    rw [hc] at ho
    cases ho
  | some b =>
    rw [hc] at ho
    cases b with
    | false =>
      cases ho
      by_cases hleft : left = []
      · rw [if_pos hleft] at h
        obtain ⟨used, hargs, hs⟩ := h
        subst hleft
        exact ⟨[(c, none)], os, [], used, rfl, .last hc, hs, hargs⟩
      · rw [if_neg hleft] at h
        obtain ⟨os1, os2, used1, used2, rfl, hb, hs, hargs⟩ := h
        exact ⟨(c, none) :: os1, os2, used1, used2, rfl, .more hc hb, hs, hargs⟩
    | true =>
      dsimp only at ho
      by_cases hleft : left = []
      · rw [if_neg fun h => h hleft] at ho
        subst hleft
        cases args with
        | nil => cases ho
        | cons arg args =>
          cases ho
          obtain ⟨used, hargs, hs⟩ := h
          exact ⟨[(c, some arg)], os, [arg], used, rfl, .detached hc, hs, by rw [← hargs]; rfl⟩
      · rw [if_pos hleft] at ho
        cases ho
        obtain ⟨used, hargs, hs⟩ := h
        exact ⟨[(c, some left)], os, [], used, rfl, .attached hc hleft, hs, hargs⟩

/-- How much there is to read. -/
def State.size (s : State α) : Nat := s.left.length + s.args.flatten.length + s.args.length

theorem size_option {o : Option (Opt α)} {s : State α} (h : option takes c left args = (o, s)) :
    s.size < left.length + 1 + args.flatten.length + args.length := by
  unfold option at h
  split at h
  · cases h
    simp only [State.size]
    omega
  · cases h
    simp only [State.size]
    omega
  · split at h
    · cases h
      simp only [State.size, List.length_nil]
      omega
    · split at h
      · cases h
        simp [State.size]
      · cases h
        simp only [State.size, List.flatten_cons, List.length_append, List.length_cons, List.length_nil]
        omega

section
variable [DecidableEq α]

theorem getopt_left : getopt dash takes ⟨c :: left, args⟩ = some (option takes c left args) := rfl

theorem getopt_element (h : ¬(c = dash ∧ left = [])) :
    getopt dash takes ⟨[], (dash :: c :: left) :: args⟩ = some (option takes c left args) :=
  if_neg fun hc => hc.elim (fun hd => hd rfl) h

/-- Every option is some of it. -/
theorem size_getopt {o : Option (Opt α)} {s s' : State α} (h : getopt dash takes s = some (o, s')) :
    s'.size < s.size := by
  obtain ⟨left, args⟩ := s
  unfold getopt at h
  split at h
  · rename_i c left hleft
    obtain rfl : _ = c :: left := hleft
    exact size_option (Option.some.inj h)
  · rename_i hleft
    obtain rfl : left = [] := hleft
    split at h
    · rename_i d c left args' hargs
      obtain rfl : args = (d :: c :: left) :: args' := hargs
      split at h
      · cases h
      · have hlt := size_option (Option.some.inj h)
        simp only [State.size, List.flatten_cons, List.length_append, List.length_cons, List.length_nil]
        simp only [State.size] at hlt
        omega
    · cases h

theorem Operands.ends {cmd : List (List α)} (h : Operands dash rest cmd) (takes : α → Option Bool) :
    getopt dash takes ⟨[], rest⟩ = none ∧ operands dash rest = cmd := by
  cases h with
  | marked => exact ⟨if_pos (.inr ⟨rfl, rfl⟩), if_pos rfl⟩
  | @plain a cmd ha =>
    refine ⟨?_, if_neg ?_⟩
    · unfold getopt
      dsimp only
      split
      · rename_i d c left args' hargs
        cases hargs
        refine if_pos (.inl fun hd => ?_)
        subst hd
        rcases ha with ha | ha
        · exact ha rfl
        · cases ha
      · rfl
    · rintro rfl
      rcases ha with ha | ha
      · exact ha rfl
      · cases ha

/-- The operands where no option is left. -/
theorem operands_of_ends {cmd : List (List α)} (hend : getopt dash takes ⟨[], rest⟩ = none)
    (hcmd : operands dash rest = cmd) (hne : cmd ≠ []) : Operands dash rest cmd := by
  subst hcmd
  cases rest with
  | nil => exact absurd rfl hne
  | cons a args =>
    by_cases ha : a = [dash, dash]
    · subst ha
      rw [operands, if_pos rfl]
      exact .marked args
    · rw [operands, if_neg ha]
      refine .plain args ?_
      cases a with
      | nil => exact .inl nofun
      | cons d cs =>
        by_cases hd : d = dash
        · subst hd
          cases cs with
          | nil => exact .inr rfl
          | cons c left =>
            unfold getopt at hend
            dsimp only at hend
            split at hend
            · rename_i h
              rcases h with h | ⟨rfl, rfl⟩
              · exact absurd rfl h
              · exact absurd rfl ha
            · cases hend
        · exact .inl fun h => hd (Option.some.inj h)

/-- An element is read whole. -/
theorem Bundle.run (h : Bundle takes os cs used) (rest : List (List α)) :
    Run (Reads dash takes) ⟨cs, used ++ rest⟩ os ⟨[], rest⟩ := by
  induction h with
  | last hc => exact .cons (by simp [Reads, getopt, option, hc]) (.nil _)
  | more hc _ ih => exact .cons (by simp [Reads, getopt, option, hc]) ih
  | attached hc hne => exact .cons (by simp [Reads, getopt, option, hc, hne]) (.nil _)
  | detached hc => exact .cons (by simp [Reads, getopt, option, hc]) (.nil _)

/-- An element's first option is read as the rest of one. -/
theorem run_element (hdash : takes dash = none) (hc : takes c ≠ none) (hne : os ≠ []) {s : State α} :
    Run (Reads dash takes) ⟨[], (dash :: c :: left) :: args⟩ os s ↔
      Run (Reads dash takes) ⟨c :: left, args⟩ os s := by
  have hstart : getopt dash takes ⟨[], (dash :: c :: left) :: args⟩ =
      getopt dash takes ⟨c :: left, args⟩ := by
    rw [getopt_left]
    refine getopt_element fun h => hc ?_
    rw [h.1, hdash]
  cases os with
  | nil => exact absurd rfl hne
  | cons o os =>
    constructor
    · intro h
      cases h with
      | cons ho hrun =>
        unfold Reads at ho
        rw [hstart] at ho
        exact .cons ho hrun
    · intro h
      cases h with
      | cons ho hrun =>
        unfold Reads at ho
        rw [← hstart] at ho
        exact .cons ho hrun

/-- **What spells options is read as them.** -/
theorem Spelled.run (hdash : takes dash = none) (h : Spelled dash takes os used)
    (rest : List (List α)) : Run (Reads dash takes) ⟨[], used ++ rest⟩ os ⟨[], rest⟩ := by
  induction h with
  | nil => exact .nil _
  | cons hb _ ih =>
    rename_i os' args _
    obtain ⟨c, left, rfl, hc⟩ := hb.head
    rw [List.cons_append, List.append_assoc]
    exact ((run_element hdash hc hb.ne_nil).2 (hb.run _)).append ih

/-- What is read at the start of an element. -/
theorem getopt_eq_some {o : Opt α} {args : List (List α)} {s : State α}
    (h : getopt dash takes ⟨[], args⟩ = some (some o, s)) :
    ∃ c left args', args = (dash :: c :: left) :: args' ∧
      Getopt.option takes c left args' = (some o, s) := by
  unfold getopt at h
  dsimp only at h
  split at h
  · rename_i d c left args'
    split at h
    · cases h
    · rename_i hd
      obtain rfl : d = dash := Decidable.byContradiction fun hne => hd (.inl hne)
      exact ⟨c, left, args', rfl, Option.some.inj h⟩
  · cases h

theorem spelledFrom_of_run {s s' : State α} (h : Run (Reads dash takes) s os s')
    (hend : s' = ⟨[], rest⟩) : SpelledFrom dash takes os s rest := by
  induction h with
  | nil =>
    subst hend
    exact ⟨[], rfl, .nil⟩
  | @cons s s1 _ o os ho _ ih =>
    have h1 := ih hend
    obtain ⟨left, args⟩ := s
    cases left with
    | cons c left => exact h1.option (Option.some.inj ho)
    | nil =>
      obtain ⟨c, left, args', rfl, hopt⟩ := getopt_eq_some ho
      obtain ⟨os1, os2, used1, used2, hos, hb, hs, rfl⟩ := h1.option hopt
      refine ⟨(dash :: c :: left) :: (used1 ++ used2), ?_, ?_⟩
      · simp
      · rw [hos]
        exact .cons hb hs

/-- **The options that are read are the ones that the elements spell.** -/
theorem spelled_iff (hdash : takes dash = none) :
    Run (Reads dash takes) ⟨[], args⟩ os ⟨[], rest⟩ ↔
      ∃ used, args = used ++ rest ∧ Spelled dash takes os used := by
  constructor
  · exact fun h => spelledFrom_of_run h rfl
  · rintro ⟨used, rfl, h⟩
    exact h.run hdash rest

end

end Getopt
