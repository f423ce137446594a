import Emuroot.Model.OwnersFile
import Emuroot.Proof.OwnerMap

/-!
# Saving and loading the ownership table

A number written in decimal is read back (`scanUnsigned_text`), so a line is (`scanOwner_line`), and
the loop of `emuroot_owners_load` assigns the entries of a saved file one after another
(`Keeps.loadLoop`). The slots hold one entry for each key, so the order of the assignments does not
matter: **`owners_round_trip`**.
-/

namespace Emuroot

open Probe

/-! ## One line -/

theorem not_isSpace_of_isDigit {c : Byte} (h : Decimal.isDigit c) : isSpace c = false := by
  simp only [Decimal.isDigit, isSpace, Bool.and_eq_true, decide_eq_true_eq,
    UInt8.le_iff_toNat_le] at h ⊢
  have h48 : (48 : UInt8).toNat = 48 := rfl
  have h13 : (13 : UInt8).toNat = 13 := rfl
  have hne : c ≠ 32 := by
    rintro rfl
    exact absurd h.1 (by decide)
  simp only [hne, decide_false, Bool.false_or, Bool.and_eq_false_iff, decide_eq_false_iff_not]
  omega

theorem scanSign_digit {c : Byte} (h : Decimal.isDigit c) (s : CStr) :
    scanSign (c :: s) = (false, c :: s) := by
  have h45 : c ≠ 45 := by
    rintro rfl
    exact absurd h (by decide)
  have h43 : c ≠ 43 := by
    rintro rfl
    exact absurd h (by decide)
  simp [scanSign, h45, h43]

theorem takeWhile_text (n : Nat) {c : Byte} (hc : Decimal.isDigit c = false) (s : CStr) :
    (Decimal.text n ++ c :: s).takeWhile Decimal.isDigit = Decimal.text n := by
  rw [List.takeWhile_append_of_pos fun d hd => Decimal.isDigit_text hd,
    List.takeWhile_cons_of_neg (by simp [hc]), List.append_nil]

theorem dropWhile_text (n : Nat) {c : Byte} (hc : Decimal.isDigit c = false) (s : CStr) :
    (Decimal.text n ++ c :: s).dropWhile Decimal.isDigit = c :: s := by
  rw [List.dropWhile_append_of_pos fun d hd => Decimal.isDigit_text hd,
    List.dropWhile_cons_of_neg (by simp [hc])]

/-- After white space, the conversion reads back a number, up to the byte that ends it. -/
theorem scanUnsigned_text {pre : CStr} (hpre : ∀ c ∈ pre, isSpace c) {n : Nat} (hn : n < 2 ^ 64)
    {c : Byte} (hc : Decimal.isDigit c = false) (s : CStr) :
    scanUnsigned (pre ++ (Decimal.text n ++ c :: s)) = some (UInt64.ofNat n, c :: s) := by
  obtain ⟨d, ds, hds⟩ := List.exists_cons_of_ne_nil (Decimal.text_ne_nil n)
  have hd : Decimal.isDigit d := Decimal.isDigit_text (n := n) (hds ▸ List.mem_cons_self)
  have hskip : (pre ++ (Decimal.text n ++ c :: s)).dropWhile isSpace = Decimal.text n ++ c :: s := by
    rw [List.dropWhile_append_of_pos hpre, hds, List.cons_append,
      List.dropWhile_cons_of_neg (by simp [not_isSpace_of_isDigit hd])]
  have hsign : scanSign (Decimal.text n ++ c :: s) = (false, Decimal.text n ++ c :: s) := by
    rw [hds, List.cons_append, scanSign_digit hd]
  have hval : strtoull false (Decimal.text n) = UInt64.ofNat n := by
    simp only [strtoull, Decimal.value_text, Bool.false_eq_true, if_false]
    exact if_neg (by omega)
  rw [scanUnsigned, hskip, hsign]
  simp only [takeWhile_text n hc, dropWhile_text n hc, hval]
  exact if_neg (Decimal.text_ne_nil n)

/-- A further conversion, after the space of the format. -/
theorem scanUnsigned_field {n : Nat} (hn : n < 2 ^ 64) {c : Byte} (hc : Decimal.isDigit c = false)
    (s : CStr) :
    scanUnsigned ((32 :: (Decimal.text n ++ c :: s)).dropWhile isSpace) =
      some (UInt64.ofNat n, c :: s) := by
  obtain ⟨d, ds, hds⟩ := List.exists_cons_of_ne_nil (Decimal.text_ne_nil n)
  have hd : Decimal.isDigit d := Decimal.isDigit_text (n := n) (hds ▸ List.mem_cons_self)
  have hskip : (32 :: (Decimal.text n ++ c :: s)).dropWhile isSpace =
      [] ++ (Decimal.text n ++ c :: s) := by
    rw [List.dropWhile_cons_of_pos rfl, hds, List.cons_append,
      List.dropWhile_cons_of_neg (by simp [not_isSpace_of_isDigit hd]), List.nil_append]
  rw [hskip]
  exact scanUnsigned_text (fun c hc => absurd hc List.not_mem_nil) hn hc s

theorem toUInt32_ofNat_toNat (v : UInt32) : (UInt64.ofNat v.toNat).toUInt32 = v := by
  refine UInt32.toNat_inj.1 ?_
  rw [UInt64.toNat_toUInt32, UInt64.toNat_ofNat']
  have := v.toNat_lt
  omega

/-- A line is read back, and the newline that ends it is left. -/
theorem scanOwner_line {pre : CStr} (hpre : ∀ c ∈ pre, isSpace c) (e : FileKey × Owner) (s : CStr) :
    scanOwner (pre ++ (ownerLine e ++ s)) = some (e, 10 :: s) := by
  obtain ⟨⟨dev, ino⟩, uid, gid⟩ := e
  have h64 (v : UInt64) : v.toNat < 2 ^ 64 := v.toNat_lt
  have h32 (v : UInt32) : v.toNat < 2 ^ 64 := by
    have := v.toNat_lt
    omega
  have hspace : Decimal.isDigit 32 = false := rfl
  have hline : Decimal.isDigit 10 = false := rfl
  simp only [scanOwner, ownerLine, List.append_assoc, List.cons_append, List.nil_append,
    Option.bind_eq_bind, scanUnsigned_text hpre (h64 dev) hspace, Option.bind_some,
    scanUnsigned_field (h64 ino) hspace, scanUnsigned_field (h32 uid) hspace,
    scanUnsigned_field (h32 gid) hline, toUInt32_ofNat_toNat, UInt64.ofNat_toNat]

theorem scanOwner_space {pre : CStr} (hpre : ∀ c ∈ pre, isSpace c) : scanOwner pre = none := by
  have hskip : pre.dropWhile isSpace = [] := by
    rw [List.dropWhile_eq_nil_iff]
    exact hpre
  rw [scanOwner, scanUnsigned, hskip]
  rfl

/-! ## The whole file -/

/-- Loading the lines of some entries assigns them in their order. -/
theorem Keeps.loadLoop {calloc : Nat → Nat → Bool} (hcalloc : ∀ n size, calloc n size) {pre : CStr}
    (hpre : ∀ c ∈ pre, isSpace c) (n : Nat) {owners : Option OwnerDb} {l : List (FileKey × Owner)}
    (h : Keeps owners l) (es : List (FileKey × Owner)) :
    Keeps (loadLoop calloc n owners (pre ++ es.flatMap ownerLine)) (l ++ es) := by
  induction es generalizing pre n owners l with
  | nil =>
    rw [List.flatMap_nil, List.append_nil, List.append_nil, Emuroot.loadLoop]
    split
    · exact h
    · rename_i hs
      rw [scanOwner_space hpre] at hs
      cases hs
  | cons e es ih =>
    rw [List.flatMap_cons, Emuroot.loadLoop]
    split
    · rename_i hs
      rw [scanOwner_line hpre] at hs
      cases hs
    · rename_i hs
      rw [scanOwner_line hpre] at hs
      cases hs
      have hg : (SetCall.mk (calloc n) e.1 e.2).Granted owners := by
        cases owners with
        | none => exact ⟨hcalloc n _, .inr (hcalloc n _)⟩
        | some db => exact .inr (hcalloc n _)
      have hnext : ∀ c ∈ ([10] : CStr), isSpace c := by simp [isSpace]
      rw [show l ++ e :: es = l ++ [(e.1, e.2)] ++ es by simp]
      exact ih hnext (n + 1) (h.ownerSet hg)

theorem latest_eq_some_iff {l : List (FileKey × Owner)}
    (hl : ∀ e ∈ l, ∀ e' ∈ l, e.1 = e'.1 → e = e') {k : FileKey} {o : Owner} :
    latest l k = some o ↔ (k, o) ∈ l := by
  induction l using List.reverseRecOn with
  | nil => simp
  | append_singleton l e ih =>
    have hlast : e ∈ l ++ [e] := List.mem_append_right _ List.mem_cons_self
    rw [latest_concat]
    split
    · rename_i hk
      constructor
      · rintro ⟨⟩
        exact hk ▸ hlast
      · intro hmem
        rw [← hl _ hmem e hlast hk]
    · rename_i hk
      rw [ih fun e he e' he' => hl e (List.mem_append_left _ he) e' (List.mem_append_left _ he'),
        List.mem_append, List.mem_singleton]
      constructor
      · exact .inl
      · rintro (hmem | rfl)
        · exact hmem
        · exact absurd rfl hk

theorem OwnerDb.mem_entries (db : OwnerDb) (e : FileKey × Owner) :
    e ∈ db.entries ↔ db.get e.1 = some e.2 := by
  rw [OwnerDb.entries, List.mem_filterMap, ← db.slot_iff_get]
  constructor
  · rintro ⟨i, -, hi⟩
    exact ⟨i, hi⟩
  · rintro ⟨i, hi⟩
    refine ⟨i, List.mem_range.2 (Nat.lt_of_not_le fun hle => ?_), hi⟩
    rw [db.within i hle] at hi
    cases hi

/-- The saved entries stand for the map of the table. -/
theorem OwnerDb.latest_entries (db : OwnerDb) (k : FileKey) : latest db.entries k = db.get k := by
  refine Option.ext fun o => ?_
  rw [latest_eq_some_iff, db.mem_entries]
  intro e he e' he' hk
  have hget := (db.mem_entries e).1 he
  rw [hk, (db.mem_entries e').1 he'] at hget
  exact Prod.ext hk (Option.some.inj hget).symm

/-- **Saving and loading the ownership table round-trips**: for the table of any history of
`emuroot_owner_set` calls, saving it to a writable file and loading the file into an empty context,
with the allocations for that succeeding, gives a table with the same lookup for every key. -/
theorem owners_round_trip {calls : List SetCall} {db : OwnerDb}
    (hdb : ownersAfter none calls = some db) (file : Option CStr) {calloc : Nat → Nat → Bool}
    (hcalloc : ∀ n size, calloc n size) (k : FileKey) :
    ownerLookup (ownersLoad calloc none (ownersSave true (ownersAfter none calls) file)) k =
      ownerLookup (ownersAfter none calls) k := by
  have hnil : ∀ c ∈ ([] : CStr), isSpace c := fun c hc => absurd hc List.not_mem_nil
  have h := (Keeps.none.loadLoop hcalloc hnil 0 db.entries).looks k
  rw [hdb, ownerLookup_some, ← db.latest_entries]
  exact h

/-- The first of two recorded files, once loaded again. -/
theorem owners_round_trip_two :
    let calls : List SetCall :=
      [⟨fun _ => true, ⟨8, 2⟩, ⟨0, 20⟩⟩, ⟨fun _ => true, ⟨8, 7⟩, ⟨1000, 100⟩⟩]
    ownerLookup (ownersLoad (fun _ _ => true) none
      (ownersSave true (ownersAfter none calls) none)) ⟨8, 2⟩ = some ⟨0, 20⟩ :=
  (owners_round_trip rfl none (fun _ _ => rfl) _).trans (by decide +kernel)

end Emuroot
