import Mathlib.Data.Finset.Card
import Mathlib.Data.Finset.Range

/-!
# Open addressing

Keys and values in numbered slots: a key is sought from its home slot on, going `next`, until its
own slot or an unused one comes up. `Placed`: seeking from its home finds every entry. The table
is then a finite map: `lookup_set` for one assignment, `lookup_refill` for moving all entries to
another table. `find_isSome` is where an unused slot is needed.
-/

namespace Probe

variable {K V : Type*} [DecidableEq K]

abbrev Slots (K V : Type*) := Nat → Option (K × V)

/-- The first slot that hits, in at most `n` slots from `i` on. -/
def probe (hit : Nat → Bool) (next : Nat → Nat) : Nat → Nat → Option Nat
  | 0, _ => none
  | n + 1, i => if hit i then some i else probe hit next n (next i)

/-- The slot is unused, or holds the key. -/
def hit (s : Slots K V) (k : K) (i : Nat) : Bool :=
  match s i with
  | none => true
  | some e => e.1 = k

/-! ## The walk -/

section
variable {f g : Nat → Bool} {next : Nat → Nat} {n i j : Nat}

theorem probe_hit (h : probe f next n i = some j) : f j = true := by
  induction n generalizing i with
  | zero => cases h
  | succ n ih =>
    simp only [probe] at h
    split at h
    · rename_i hi
      cases h
      exact hi
    · exact ih h

/-- With fewer hits the walk still ends at a slot that hits. -/
theorem probe_some_mono (h : probe f next n i = some j) (hg : ∀ p, g p → f p) (hj : g j = true) :
    probe g next n i = some j := by
  induction n generalizing i with
  | zero => cases h
  | succ n ih =>
    simp only [probe] at h ⊢
    split at h
    · cases h
      rw [if_pos hj]
    · rename_i hi
      rw [if_neg fun h' => hi (hg _ h'), ih h]

theorem probe_isSome {d : Nat} (hd : d < n) (h : f (next^[d] i) = true) :
    (probe f next n i).isSome := by
  induction n generalizing i d with
  | zero => omega
  | succ n ih =>
    simp only [probe]
    split
    · rfl
    · rename_i hi
      cases d with
      | zero => exact absurd h hi
      | succ d => exact ih (by omega) h

end

/-! ## The table -/

section
variable (next : Nat → Nat) (start : K → Nat) (cap : Nat)

/-- The slot for a key. -/
def find (s : Slots K V) (k : K) : Option Nat := probe (hit s k) next cap (start k)

def lookup (s : Slots K V) (k : K) : Option V :=
  (find next start cap s k).bind fun i => (s i).map Prod.snd

/-- Store an entry in the slot for its key. -/
def set (s : Slots K V) (e : K × V) : Slots K V :=
  match find next start cap s e.1 with
  | some j => Function.update s j (some e)
  | none => s

/-- Store the entries that the slots `is` of `old` hold. -/
def refill (old : Slots K V) (is : List Nat) (s : Slots K V) : Slots K V :=
  is.foldl (fun s i => match old i with
    | some e => set next start cap s e
    | none => s) s

/-- Seeking from its home finds every entry. -/
def Placed (s : Slots K V) : Prop := ∀ i e, s i = some e → find next start cap s e.1 = some i

/-- No entry beyond the last slot. -/
def Within (s : Slots K V) : Prop := ∀ i, cap ≤ i → s i = none

/-- Going on from the home of any key passes every slot. -/
def Covers : Prop := ∀ (k : K) (j : Nat), j < cap → ∃ d < cap, next^[d] (start k) = j

/-- The number of slots in use. -/
def used (s : Slots K V) : Nat := ((Finset.range cap).filter fun i => (s i).isSome).card

end

variable {next : Nat → Nat} {start : K → Nat} {cap : Nat} {s old : Slots K V} {k : K} {e : K × V}
  {i j : Nat}

theorem find_hit (h : find next start cap s k = some j) : hit s k j = true := probe_hit h

theorem fst_of_hit (h : hit s k i = true) (hi : s i = some e) : e.1 = k := by
  simpa [hit, hi] using h

theorem find_isSome (hc : Covers next start cap) (hu : used cap s < cap) (k : K) :
    (find next start cap s k).isSome := by
  obtain ⟨j, hj, hn⟩ : ∃ j < cap, s j = none := by
    by_contra h
    have hall : ((Finset.range cap).filter fun i => (s i).isSome) = Finset.range cap :=
      Finset.filter_true_of_mem fun i hi =>
        Option.isSome_iff_ne_none.2 fun hn => h ⟨i, Finset.mem_range.1 hi, hn⟩
    rw [used, hall, Finset.card_range] at hu
    exact Nat.lt_irrefl _ hu
  obtain ⟨d, hd, rfl⟩ := hc k j hj
  exact probe_isSome hd (by simp [hit, hn])

theorem find_lt (hc : ∀ k, start k < cap) (hn : ∀ i < cap, next i < cap)
    (h : find next start cap s k = some j) : j < cap := by
  suffices ∀ n i, i < cap → probe (hit s k) next n i = some j → j < cap from this _ _ (hc k) h
  intro n
  induction n with
  | zero => intro i _ h; cases h
  | succ n ih =>
    intro i hi h
    simp only [probe] at h
    split at h
    · cases h
      exact hi
    · exact ih _ (hn i hi) h

theorem lookup_eq_some (hp : Placed next start cap s) {v : V} :
    lookup next start cap s k = some v ↔ ∃ i, s i = some (k, v) := by
  constructor
  · intro h
    obtain ⟨i, hi, hv⟩ := Option.bind_eq_some_iff.1 h
    obtain ⟨e, he, rfl⟩ := Option.map_eq_some_iff.1 hv
    exact ⟨i, by rw [he, ← fst_of_hit (find_hit hi) he]⟩
  · rintro ⟨i, hi⟩
    simp [lookup, hp i _ hi, hi]

/-! ## One assignment -/

section
variable (hf : find next start cap s e.1 = some j)
include hf

theorem set_eq : set next start cap s e = Function.update s j (some e) := by rw [set, hf]

theorem hit_of_hit_set {p : Nat} (h : hit (Function.update s j (some e)) k p = true) :
    hit s k p = true := by
  by_cases hp : p = j
  · subst hp
    have hk : e.1 = k := fst_of_hit h (Function.update_self ..)
    exact hk ▸ find_hit hf
  · rwa [hit, Function.update_of_ne hp] at h

theorem placed_set (hp : Placed next start cap s) : Placed next start cap (set next start cap s e) := by
  rw [set_eq hf]
  intro i e' he'
  by_cases hi : i = j
  · subst hi
    rw [Function.update_self] at he'
    cases he'
    exact probe_some_mono hf (fun p => hit_of_hit_set hf) (by simp [hit])
  · rw [Function.update_of_ne hi] at he'
    exact probe_some_mono (hp i e' he') (fun p => hit_of_hit_set hf)
      (by simp [hit, Function.update_of_ne hi, he'])

/-- After storing `e` its key has its value, and every other key what it had. -/
theorem lookup_set (hp : Placed next start cap s) (k : K) :
    lookup next start cap (set next start cap s e) k =
      if k = e.1 then some e.2 else lookup next start cap s k := by
  have hp' := placed_set hf hp
  refine Option.ext fun v => ?_
  rw [lookup_eq_some hp']
  simp only [set_eq hf] at hp' ⊢
  constructor
  · rintro ⟨i, hi⟩
    by_cases hij : i = j
    · subst hij
      rw [Function.update_self] at hi
      cases hi
      simp
    · rw [Function.update_of_ne hij] at hi
      have hk : k ≠ e.1 := by
        rintro rfl
        exact hij (Option.some.inj ((hp i _ hi).symm.trans hf))
      rw [if_neg hk]
      exact (lookup_eq_some hp).2 ⟨i, hi⟩
  · intro h
    split at h
    · rename_i hk
      cases h
      exact ⟨j, by rw [Function.update_self, hk]⟩
    · rename_i hk
      obtain ⟨i, hi⟩ := (lookup_eq_some hp).1 h
      refine ⟨i, ?_⟩
      rw [Function.update_of_ne, hi]
      rintro rfl
      exact hk (fst_of_hit (find_hit hf) hi)

theorem within_set (hw : Within cap s) (hj : j < cap) :
    Within cap (set next start cap s e) := by
  rw [set_eq hf]
  intro i hi
  rw [Function.update_of_ne (by omega), hw i hi]

/-- The slots in use grow by one if the key's slot was unused. -/
theorem used_set (hj : j < cap) :
    used cap (set next start cap s e) = if (s j).isSome then used cap s else used cap s + 1 := by
  rw [set_eq hf, used]
  have hfi : ((Finset.range cap).filter fun i => (Function.update s j (some e) i).isSome) =
      insert j ((Finset.range cap).filter fun i => (s i).isSome) := by
    ext i
    by_cases hi : i = j
    · simp [hi, hj]
    · simp [hi]
  rw [hfi]
  split
  · rename_i h
    rw [Finset.insert_eq_of_mem (by simp [hj, h]), used]
  · rename_i h
    rw [Finset.card_insert_of_notMem (by simp [h]), used]

end

/-! ## Moving all entries -/

@[simp] theorem placed_none : Placed next start cap (fun _ => none : Slots K V) :=
  fun _ _ h => nomatch h

omit [DecidableEq K] in
theorem within_none : Within cap (fun _ => none : Slots K V) := fun _ _ => rfl

omit [DecidableEq K] in
@[simp] theorem used_none : used cap (fun _ => none : Slots K V) = 0 := by simp [used]

@[simp] theorem lookup_none (k : K) : lookup next start cap (fun _ => none : Slots K V) k = none := by
  refine Option.ext fun v => ?_
  rw [lookup_eq_some placed_none]
  simp

omit [DecidableEq K] in
theorem used_succ (s : Slots K V) (n : Nat) :
    used (n + 1) s = if (s n).isSome then used n s + 1 else used n s := by
  rw [used, Finset.range_add_one, Finset.filter_insert]
  split
  · rw [Finset.card_insert_of_notMem (by simp), used]
  · rfl

omit [DecidableEq K] in
theorem used_mono {m n : Nat} (h : m ≤ n) (s : Slots K V) : used m s ≤ used n s :=
  Finset.card_le_card (Finset.filter_subset_filter _ (Finset.range_subset_range.2 h))

section
variable (hc : Covers next start cap) (hs : ∀ k, start k < cap) (hn : ∀ i < cap, next i < cap)
  {next' : Nat → Nat} {start' : K → Nat} {cap' : Nat} (hold : Placed next' start' cap' old)
include hc hs hn hold

/-- Moving the first `n` slots of a placed table to an empty one with room for them. -/
theorem refill_range {n : Nat} (hu : used n old < cap) :
    let s := refill next start cap old (List.range n) fun _ => none
    Placed next start cap s ∧ Within cap s ∧ used cap s = used n old ∧
      ∀ k v, lookup next start cap s k = some v ↔ ∃ i < n, old i = some (k, v) := by
  induction n with
  | zero => simp [refill, within_none, used]
  | succ n ih =>
    have hle : used n old ≤ used (n + 1) old := used_mono (Nat.le_succ n) old
    obtain ⟨hp, hw, hus, hl⟩ := ih (by omega)
    intro s'
    have hs' : s' = match old n with
        | some e => set next start cap (refill next start cap old (List.range n) fun _ => none) e
        | none => refill next start cap old (List.range n) fun _ => none := by
      show refill next start cap old (List.range (n + 1)) _ = _
      rw [List.range_succ, refill, List.foldl_concat]
      rfl
    generalize refill next start cap old (List.range n) (fun _ => none) = s at hp hw hus hl hs'
    rw [used_succ] at hu ⊢
    cases ho : old n with
    | none =>
      rw [ho] at hs'
      refine hs' ▸ ⟨hp, hw, by simpa using hus, fun k v => (hl k v).trans ?_⟩
      constructor
      · rintro ⟨i, hi, h⟩
        exact ⟨i, by omega, h⟩
      · rintro ⟨i, hi, h⟩
        have : i ≠ n := by rintro rfl; rw [ho] at h; cases h
        exact ⟨i, by omega, h⟩
    | some e =>
      rw [ho] at hs' hu
      simp only [Option.isSome_some, if_true] at hu ⊢
      obtain ⟨j, hf⟩ := Option.isSome_iff_exists.1 (find_isSome hc (s := s) (by omega) e.1)
      have hj := find_lt hs hn hf
      -- no earlier slot of the old table holds the same key
      have hfree : s j = none := by
        by_contra h
        obtain ⟨e', he'⟩ := Option.ne_none_iff_exists'.1 h
        have hk := fst_of_hit (find_hit hf) he'
        obtain ⟨i, hi, hoi⟩ := (hl e.1 e'.2).1 ((lookup_eq_some hp).2 ⟨j, by rw [he', ← hk]⟩)
        have hin : some i = some n := (hold i _ hoi).symm.trans (hold n e ho)
        cases hin
        omega
      simp only at hs'
      rw [hs']
      refine ⟨placed_set hf hp, within_set hf hw hj, ?_, fun k v => ?_⟩
      · rw [used_set hf hj, hfree, hus]
        rfl
      · rw [lookup_set hf hp]
        constructor
        · intro h
          split at h
          · rename_i hk
            cases h
            exact ⟨n, Nat.lt_succ_self n, by rw [ho, hk]⟩
          · obtain ⟨i, hi, h⟩ := (hl k v).1 h
            exact ⟨i, by omega, h⟩
        · rintro ⟨i, hi, h⟩
          by_cases hin : i = n
          · subst hin
            rw [ho] at h
            cases h
            simp
          · have hk : k ≠ e.1 := by
              rintro rfl
              exact hin (Option.some.inj ((hold i _ h).symm.trans (hold n e ho)))
            rw [if_neg hk]
            exact (hl k v).2 ⟨i, by omega, h⟩

/-- Moving all entries to an empty table with room for them keeps the map. -/
theorem lookup_refill (hw' : Within cap' old) (hu : used cap' old < cap) (k : K) :
    lookup next start cap (refill next start cap old (List.range cap') fun _ => none) k =
      lookup next' start' cap' old k := by
  obtain ⟨-, -, -, hl⟩ := refill_range hc hs hn hold hu
  refine Option.ext fun v => ?_
  rw [hl, lookup_eq_some hold]
  constructor
  · rintro ⟨i, _, h⟩
    exact ⟨i, h⟩
  · rintro ⟨i, h⟩
    refine ⟨i, Nat.lt_of_not_le fun hi => ?_, h⟩
    rw [hw' i hi] at h
    cases h

end

end Probe
