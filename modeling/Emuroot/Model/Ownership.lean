import Emuroot.Lib.Probe
import Mathlib.Algebra.Group.Nat.Defs

/-!
# The fake file-ownership database (`ownership.c`)

An open-addressing table keyed by device and inode. `OwnerDb` carries its invariant: the entries
are where seeking finds them, `count` counts them, and at most half of the slots are in use, so
that `find_slot` ends. `ownerLookup_ownerSet`: while allocations succeed, the table is a finite map.
-/

namespace Emuroot

open Probe

/-- The file an entry is about. -/
structure FileKey where
  dev : UInt64
  ino : UInt64
  deriving DecidableEq, Repr

structure Owner where
  uid : UInt32
  gid : UInt32
  deriving DecidableEq, Repr

/-- `hash_of` -/
def hashOf (k : FileKey) : UInt64 :=
  let h := (k.dev * 0x9E3779B97F4A7C15) ^^^ (k.ino * 0xC2B2AE3D27D4EB4F)
  h ^^^ (h >>> 29)

/-- The slot where `find_slot` starts, in a table of `cap` slots. -/
def home (cap : Nat) (k : FileKey) : Nat := (hashOf k).toNat &&& (cap - 1)

def nextSlot (cap i : Nat) : Nat := (i + 1) &&& (cap - 1)

/-- `struct owner_db` -/
structure OwnerDb where
  slots : Slots FileKey Owner
  cap : Nat
  count : Nat
  size : cap = 0 ∨ ∃ e, cap = 2 ^ e
  placed : Placed (nextSlot cap) (home cap) cap slots
  within : Within cap slots
  used_eq : used cap slots = count
  load : count * 2 ≤ cap

/-! ## Going round a table of `2 ^ e` slots -/

theorem nextSlot_iterate (e d i : Nat) (hi : i < 2 ^ e) :
    (nextSlot (2 ^ e))^[d] i = (i + d) % 2 ^ e := by
  induction d generalizing i with
  | zero => simp [Nat.mod_eq_of_lt hi]
  | succ d ih =>
    have hn : nextSlot (2 ^ e) i = (i + 1) % 2 ^ e := Nat.and_two_pow_sub_one_eq_mod _ _
    rw [Function.iterate_succ_apply, hn, ih _ (Nat.mod_lt _ (Nat.two_pow_pos e)), Nat.mod_add_mod]
    congr 1
    omega

theorem home_lt (e : Nat) (k : FileKey) : home (2 ^ e) k < 2 ^ e := by
  rw [home, Nat.and_two_pow_sub_one_eq_mod]
  exact Nat.mod_lt _ (Nat.two_pow_pos e)

theorem nextSlot_lt (e i : Nat) : nextSlot (2 ^ e) i < 2 ^ e := by
  rw [nextSlot, Nat.and_two_pow_sub_one_eq_mod]
  exact Nat.mod_lt _ (Nat.two_pow_pos e)

theorem covers_home (e : Nat) : Covers (nextSlot (2 ^ e)) (home (2 ^ e)) (2 ^ e) := by
  intro k j hj
  have hh := home_lt e k
  refine ⟨(j + 2 ^ e - home (2 ^ e) k) % 2 ^ e, Nat.mod_lt _ (by omega), ?_⟩
  rw [nextSlot_iterate _ _ _ hh, Nat.add_mod_mod,
    show home (2 ^ e) k + (j + 2 ^ e - home (2 ^ e) k) = j + 2 ^ e by omega, Nat.add_mod_right,
    Nat.mod_eq_of_lt hj]

/-! ## Operations -/

namespace OwnerDb

/-- What `calloc` of a `struct owner_db` gives. -/
def empty : OwnerDb where
  slots := fun _ => none
  cap := 0
  count := 0
  size := .inl rfl
  placed := placed_none
  within := within_none
  used_eq := used_none
  load := Nat.le_refl 0

/-- `find_slot` -/
def findSlot (db : OwnerDb) (k : FileKey) : Option Nat :=
  find (nextSlot db.cap) (home db.cap) db.cap db.slots k

theorem findSlot_isSome (db : OwnerDb) (h : 0 < db.cap) (k : FileKey) : (db.findSlot k).isSome := by
  have hu : used db.cap db.slots < db.cap := by have := db.used_eq; have := db.load; omega
  obtain he | ⟨e, he⟩ := db.size
  · omega
  · rw [findSlot]
    rw [he] at hu ⊢
    exact find_isSome (covers_home e) hu k

theorem findSlot_lt (db : OwnerDb) {k : FileKey} {j : Nat} (h : db.findSlot k = some j) :
    j < db.cap := by
  obtain he | ⟨e, he⟩ := db.size
  · rw [findSlot, he] at h
    cases h
  · rw [findSlot] at h
    rw [he] at h ⊢
    exact find_lt (home_lt e) (fun i _ => nextSlot_lt e i) h

/-- The entries moved to `cap` new slots. -/
def rehash (db : OwnerDb) (cap : Nat) (hcap : ∃ e, cap = 2 ^ e) (hl : (db.count + 1) * 2 ≤ cap) :
    OwnerDb :=
  have hr := hcap.elim fun e he => he ▸ refill_range (covers_home e) (home_lt e)
    (fun i _ => nextSlot_lt e i) db.placed (n := db.cap) (by rw [db.used_eq]; omega)
  { slots := refill (nextSlot cap) (home cap) cap db.slots (List.range db.cap) fun _ => none
    cap := cap
    count := db.count
    size := .inr hcap
    placed := hr.1
    within := hr.2.1
    used_eq := hr.2.2.1.trans db.used_eq
    load := by omega }

theorem rehash_load (db : OwnerDb) {cap : Nat} (hcap : ∃ e, cap = 2 ^ e)
    (hl : (db.count + 1) * 2 ≤ cap) :
    ((db.rehash cap hcap hl).count + 1) * 2 ≤ (db.rehash cap hcap hl).cap := hl

/-- `*e = (struct owner_entry){ dev, ino, uid, gid, 1 }` in the slot for the key. -/
def store (db : OwnerDb) (k : FileKey) (o : Owner) (hl : (db.count + 1) * 2 ≤ db.cap) : OwnerDb :=
  have hs := Option.isSome_iff_exists.1 (db.findSlot_isSome (by omega) k)
  { db with
    slots := Probe.set (nextSlot db.cap) (home db.cap) db.cap db.slots (k, o)
    count := if ((db.findSlot k).bind db.slots).isSome then db.count else db.count + 1
    placed := hs.elim fun _ hj => placed_set hj db.placed
    within := hs.elim fun _ hj => within_set hj db.within (db.findSlot_lt hj)
    used_eq := hs.elim fun j hj => by
      have hu := used_set (e := (k, o)) hj (db.findSlot_lt hj)
      rw [db.used_eq] at hu
      rw [hu, hj, Option.bind_some]
    load := by split <;> omega }

/-- The size to grow to. -/
def grown (db : OwnerDb) : Nat := if db.cap = 0 then 1024 else db.cap * 2

theorem grown_size (db : OwnerDb) : ∃ e, db.grown = 2 ^ e := by
  obtain h | ⟨e, h⟩ := db.size
  · exact ⟨10, by simp [grown, h]⟩
  · exact ⟨e + 1, by simp [grown, h, Nat.pow_succ]⟩

theorem grown_load (db : OwnerDb) : (db.count + 1) * 2 ≤ db.grown := by
  have := db.load
  unfold grown
  split <;> omega

/-- `emuroot_owner_set` on an existing table: grow so that the load stays under 1/2, then store. -/
def set (calloc : Nat → Bool) (db : OwnerDb) (k : FileKey) (o : Owner) : OwnerDb :=
  if h : (db.count + 1) * 2 > db.cap then
    if calloc db.grown then
      (db.rehash db.grown db.grown_size db.grown_load).store k o (db.rehash_load _ _)
    else db
  else db.store k o (Nat.le_of_not_gt h)

/-- The map the table stands for. -/
def get (db : OwnerDb) (k : FileKey) : Option Owner :=
  lookup (nextSlot db.cap) (home db.cap) db.cap db.slots k

theorem get_rehash (db : OwnerDb) {cap : Nat} (hcap : ∃ e, cap = 2 ^ e)
    (hl : (db.count + 1) * 2 ≤ cap) (k : FileKey) : (db.rehash cap hcap hl).get k = db.get k := by
  obtain ⟨e, rfl⟩ := hcap
  exact lookup_refill (covers_home e) (home_lt e) (fun i _ => nextSlot_lt e i) db.placed db.within
    (by rw [db.used_eq]; omega) k

theorem get_store (db : OwnerDb) (k : FileKey) (o : Owner) (hl : (db.count + 1) * 2 ≤ db.cap)
    (k' : FileKey) : (db.store k o hl).get k' = if k' = k then some o else db.get k' := by
  obtain ⟨j, hj⟩ := Option.isSome_iff_exists.1 (db.findSlot_isSome (by omega) k)
  exact lookup_set (e := (k, o)) hj db.placed k'

/-- The allocation a call needs succeeds: there is room, or the larger table is had. -/
def Grants (db : OwnerDb) (calloc : Nat → Bool) : Prop :=
  (db.count + 1) * 2 ≤ db.cap ∨ calloc db.grown

instance (db : OwnerDb) (calloc : Nat → Bool) : Decidable (db.Grants calloc) :=
  inferInstanceAs (Decidable (_ ∨ _))

theorem get_set (db : OwnerDb) {calloc : Nat → Bool} (h : db.Grants calloc) (k : FileKey) (o : Owner)
    (k' : FileKey) : (db.set calloc k o).get k' = if k' = k then some o else db.get k' := by
  unfold set
  split
  · rename_i hfull
    rw [if_pos (h.resolve_left (Nat.not_le_of_gt hfull)), get_store, get_rehash]
  · exact get_store db k o _ k'

theorem set_of_not_grants (db : OwnerDb) {calloc : Nat → Bool} (h : ¬ db.Grants calloc) (k : FileKey)
    (o : Owner) : db.set calloc k o = db := by
  obtain ⟨hfull, hc⟩ := not_or.1 h
  rw [set, dif_pos (Nat.lt_of_not_le hfull), if_neg hc]

theorem count_store (db : OwnerDb) (k : FileKey) (o : Owner) (hl : (db.count + 1) * 2 ≤ db.cap) :
    (db.store k o hl).count = if (db.get k).isSome then db.count else db.count + 1 := by
  have hiff : (db.get k).isSome = ((db.findSlot k).bind db.slots).isSome := by
    rw [get, lookup, findSlot]
    cases find (nextSlot db.cap) (home db.cap) db.cap db.slots k with
    | none => rfl
    | some i => exact Option.isSome_map
  rw [hiff, store]

/-- An assignment counts one more entry if its key had none. -/
theorem count_set (db : OwnerDb) {calloc : Nat → Bool} (h : db.Grants calloc) (k : FileKey)
    (o : Owner) :
    (db.set calloc k o).count = if (db.get k).isSome then db.count else db.count + 1 := by
  unfold set
  split
  · rename_i hfull
    rw [if_pos (h.resolve_left (Nat.not_le_of_gt hfull)), count_store, get_rehash]
    rfl
  · exact count_store db k o _

theorem get_of_count (db : OwnerDb) (h : db.count = 0) (k : FileKey) : db.get k = none := by
  refine Option.ext fun o => ?_
  rw [get, lookup_eq_some db.placed]
  constructor
  · rintro ⟨i, hi⟩
    have hlt : i < db.cap := Nat.lt_of_not_le fun hle => by simp [db.within i hle] at hi
    have hu := db.used_eq.trans h
    rw [used, Finset.card_eq_zero] at hu
    exact absurd (Finset.mem_filter.2 ⟨Finset.mem_range.2 hlt, by rw [hi]; rfl⟩)
      (hu ▸ Finset.notMem_empty i)
  · intro h
    cases h

end OwnerDb

/-! ## `ctx->owners`, which is `NULL` until the first entry -/

/-- `emuroot_owner_lookup` -/
def ownerLookup (owners : Option OwnerDb) (k : FileKey) : Option Owner :=
  match owners with
  | none => none
  | some db => if db.count = 0 then none else (db.findSlot k).bind fun i => (db.slots i).map Prod.snd

/-- `emuroot_owner_set` -/
def ownerSet (calloc : Nat → Bool) (owners : Option OwnerDb) (k : FileKey) (o : Owner) :
    Option OwnerDb :=
  match owners with
  | none => if calloc 1 then some (OwnerDb.empty.set calloc k o) else none
  | some db => some (db.set calloc k o)

theorem ownerLookup_some (db : OwnerDb) (k : FileKey) : ownerLookup (some db) k = db.get k := by
  rw [ownerLookup]
  split
  · rename_i h
    rw [db.get_of_count h]
  · rfl

/-- While allocations succeed, the table is a finite map. -/
theorem ownerLookup_ownerSet {calloc : Nat → Bool} (h : ∀ n, calloc n)
    (owners : Option OwnerDb) (k : FileKey) (o : Owner) (k' : FileKey) :
    ownerLookup (ownerSet calloc owners k o) k' = if k' = k then some o else ownerLookup owners k' := by
  cases owners with
  | none =>
    rw [ownerSet, if_pos (h 1), ownerLookup_some, OwnerDb.get_set _ (.inr (h _)),
      OwnerDb.empty.get_of_count rfl]
    rfl
  | some db => rw [ownerSet, ownerLookup_some, OwnerDb.get_set _ (.inr (h _)), ownerLookup_some]

end Emuroot
