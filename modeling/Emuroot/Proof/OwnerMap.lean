import Emuroot.Model.Ownership
import Mathlib.Data.Finset.Insert

/-!
# The ownership table as a finite map

`Keeps`: the table answers every lookup from a list of assignments, the latest first, and counts
their distinct keys. One call of `emuroot_owner_set` keeps this (`Keeps.ownerSet`), with the
assignment added if its allocations succeed; **`ownership_table`** is the induction over a history
of calls. `OwnerDb.grows`: what the resize loop does with the slots.
-/

namespace Emuroot

open Probe

/-! ## The resize loop -/

namespace OwnerDb

/-- The new slots once the resize loop has gone through the first `n` old ones. -/
def moved (db : OwnerDb) (n : Nat) : Slots FileKey Owner :=
  refill (nextSlot db.grown) (home db.grown) db.grown db.slots (List.range n) fun _ => none

/-- Growing rehashes every entry, without loss or duplication. -/
structure Grows (db : OwnerDb) : Prop where
  ends : ∀ n ≤ db.cap, ∀ k, (find (nextSlot db.grown) (home db.grown) db.grown (db.moved n) k).isSome
  kept : ∀ i e, db.slots i = some e → ∃! j, db.moved db.cap j = some e
  only : ∀ j e, db.moved db.cap j = some e → ∃! i, db.slots i = some e
  same : used db.grown (db.moved db.cap) = db.count

theorem count_lt_grown (db : OwnerDb) : db.count < db.grown := by
  have := db.grown_load
  omega

theorem used_moved (db : OwnerDb) {n : Nat} (hn : n ≤ db.cap) :
    used db.grown (db.moved n) = used n db.slots ∧ used n db.slots ≤ db.count := by
  have hle : used n db.slots ≤ db.count := db.used_eq ▸ used_mono hn db.slots
  have hlt := db.count_lt_grown
  obtain ⟨e, he⟩ := db.grown_size
  unfold moved
  rw [he] at hlt ⊢
  obtain ⟨-, -, hu, -⟩ := refill_range (covers_home e) (home_lt e) (fun i _ => nextSlot_lt e i)
    db.placed (n := n) (by omega)
  exact ⟨hu, hle⟩

/-- A placed table holds an entry in one slot at most. -/
theorem slot_unique (db : OwnerDb) {i j : Nat} {e : FileKey × Owner} (hi : db.slots i = some e)
    (hj : db.slots j = some e) : j = i :=
  Option.some.inj ((db.placed j e hj).symm.trans (db.placed i e hi))

theorem slot_iff_get (db : OwnerDb) (e : FileKey × Owner) :
    (∃ i, db.slots i = some e) ↔ db.get e.1 = some e.2 :=
  (lookup_eq_some db.placed).symm

/-- **The resize loop ends at every entry, and the new table has the old entries, once each.** -/
theorem grows (db : OwnerDb) : db.Grows := by
  have hget := db.get_rehash db.grown_size db.grown_load
  let new := db.rehash db.grown db.grown_size db.grown_load
  refine ⟨fun n hn k => ?_, fun i e hi => ?_, fun j e hj => ?_, ?_⟩
  · obtain ⟨hu, hle⟩ := db.used_moved hn
    have hlt := db.count_lt_grown
    rw [← hu] at hle
    obtain ⟨e, he⟩ := db.grown_size
    rw [he] at hlt hle ⊢
    exact find_isSome (covers_home e) (by omega) k
  · obtain ⟨j, hj⟩ := (new.slot_iff_get e).2 ((hget e.1).trans ((db.slot_iff_get e).1 ⟨i, hi⟩))
    exact ⟨j, hj, fun j' hj' => new.slot_unique hj hj'⟩
  · obtain ⟨i, hi⟩ := (db.slot_iff_get e).2 ((hget e.1).symm.trans ((new.slot_iff_get e).1 ⟨j, hj⟩))
    exact ⟨i, hi, fun i' hi' => db.slot_unique hi hi'⟩
  · rw [(db.used_moved (Nat.le_refl _)).1, db.used_eq]

end OwnerDb

/-! ## Histories of calls -/

/-- A call of `emuroot_owner_set`, and which of its allocations succeed. -/
structure SetCall where
  calloc : Nat → Bool
  key : FileKey
  owner : Owner

/-- All allocations of the call succeed. -/
def SetCall.Granted (c : SetCall) : Option OwnerDb → Prop
  | none => c.calloc 1 ∧ OwnerDb.empty.Grants c.calloc
  | some db => db.Grants c.calloc

instance (c : SetCall) (owners : Option OwnerDb) : Decidable (c.Granted owners) := by
  cases owners <;> unfold SetCall.Granted <;> infer_instance

/-- `ctx->owners` after the call. -/
def SetCall.run (c : SetCall) (owners : Option OwnerDb) : Option OwnerDb :=
  ownerSet c.calloc owners c.key c.owner

/-- `ctx->owners` after a history of calls. -/
def ownersAfter (owners : Option OwnerDb) : List SetCall → Option OwnerDb
  | [] => owners
  | c :: calls => ownersAfter (c.run owners) calls

/-- The assignments of a history whose allocations succeeded, in their order. -/
def assigned (owners : Option OwnerDb) : List SetCall → List (FileKey × Owner)
  | [] => []
  | c :: calls =>
    if c.Granted owners then (c.key, c.owner) :: assigned (c.run owners) calls
    else assigned (c.run owners) calls

/-- What the latest assignment to the key gave it. -/
def latest (l : List (FileKey × Owner)) (k : FileKey) : Option Owner := l.reverse.lookup k

/-- `db->count`, 0 without a table. -/
def ownerCount (owners : Option OwnerDb) : Nat := owners.elim 0 OwnerDb.count

theorem ownersAfter_concat (owners : Option OwnerDb) (calls : List SetCall) (c : SetCall) :
    ownersAfter owners (calls ++ [c]) = c.run (ownersAfter owners calls) := by
  induction calls generalizing owners with
  | nil => rfl
  | cons c' calls ih => exact ih _

@[simp] theorem latest_nil (k : FileKey) : latest [] k = none := rfl

theorem latest_concat (l : List (FileKey × Owner)) (k : FileKey) (o : Owner) (k' : FileKey) :
    latest (l ++ [(k, o)]) k' = if k' = k then some o else latest l k' := by
  rw [latest, List.reverse_append, List.reverse_singleton, List.singleton_append, List.lookup_cons]
  split
  · rename_i h
    rw [if_pos (beq_iff_eq.1 h)]
  · rename_i h
    rw [if_neg (beq_eq_false_iff_ne.1 h), latest]

theorem latest_isSome (l : List (FileKey × Owner)) (k : FileKey) :
    (latest l k).isSome ↔ k ∈ (l.map Prod.fst).toFinset := by
  induction l using List.reverseRecOn with
  | nil => simp
  | append_singleton l e ih =>
    rw [latest_concat, List.map_append, List.toFinset_append, Finset.mem_union, ← ih]
    split
    · rename_i h
      simp [h]
    · rename_i h
      simp [h]

/-- The table stands for these assignments. -/
structure Keeps (owners : Option OwnerDb) (l : List (FileKey × Owner)) : Prop where
  looks : ∀ k, ownerLookup owners k = latest l k
  counts : ownerCount owners = (l.map Prod.fst).toFinset.card

theorem Keeps.none : Keeps none [] := ⟨fun _ => rfl, rfl⟩

/-- A call on a table, with its allocation had. -/
theorem Keeps.set {db : OwnerDb} {l : List (FileKey × Owner)} (h : Keeps (some db) l)
    {calloc : Nat → Bool} (hg : db.Grants calloc) (k : FileKey) (o : Owner) :
    Keeps (some (db.set calloc k o)) (l ++ [(k, o)]) where
  looks k' := by
    rw [ownerLookup_some, db.get_set hg, latest_concat, ← h.looks, ownerLookup_some]
  counts := by
    have hget : db.get k = latest l k := (ownerLookup_some db k).symm.trans (h.looks k)
    have hcount : db.count = (l.map Prod.fst).toFinset.card := h.counts
    have hins : ((l ++ [(k, o)]).map Prod.fst).toFinset = insert k (l.map Prod.fst).toFinset := by
      ext k'
      simp
    show (db.set calloc k o).count = _
    rw [db.count_set hg, hins, hget, hcount]
    split
    · rename_i hm
      rw [Finset.insert_eq_of_mem ((latest_isSome l k).1 hm)]
    · rename_i hm
      rw [Finset.card_insert_of_notMem fun h' => hm ((latest_isSome l k).2 h')]

/-- A call whose allocation fails leaves what the table stands for. -/
theorem Keeps.failed {owners : Option OwnerDb} {l : List (FileKey × Owner)} (h : Keeps owners l)
    {c : SetCall} (hg : ¬ c.Granted owners) : Keeps (c.run owners) l := by
  cases owners with
  | some db =>
    rw [SetCall.run, ownerSet, db.set_of_not_grants hg]
    exact h
  | none =>
    rw [SetCall.run, ownerSet]
    split
    · rename_i h1
      rw [OwnerDb.empty.set_of_not_grants fun h' => hg ⟨h1, h'⟩]
      exact ⟨h.looks, h.counts⟩
    · exact h

/-- One call adds its assignment, if its allocations succeed. -/
theorem Keeps.ownerSet {owners : Option OwnerDb} {l : List (FileKey × Owner)} (h : Keeps owners l)
    {c : SetCall} (hg : c.Granted owners) : Keeps (c.run owners) (l ++ [(c.key, c.owner)]) := by
  cases owners with
  | some db => exact h.set hg c.key c.owner
  | none =>
    rw [SetCall.run, Emuroot.ownerSet, if_pos hg.1]
    have hempty : Keeps (some OwnerDb.empty) l := ⟨h.looks, h.counts⟩
    exact hempty.set hg.2 c.key c.owner

theorem Keeps.after {owners : Option OwnerDb} {l : List (FileKey × Owner)} (h : Keeps owners l)
    (calls : List SetCall) : Keeps (ownersAfter owners calls) (l ++ assigned owners calls) := by
  induction calls generalizing owners l with
  | nil => simpa [ownersAfter, assigned] using h
  | cons c calls ih =>
    simp only [ownersAfter, assigned]
    split
    · rename_i hg
      simpa using ih (h.ownerSet hg)
    · rename_i hg
      exact ih (h.failed hg)

/-- While allocations succeed, every call is an assignment. -/
theorem assigned_eq_map (owners : Option OwnerDb) {calls : List SetCall}
    (h : ∀ c ∈ calls, ∀ n, c.calloc n) :
    assigned owners calls = calls.map fun c => (c.key, c.owner) := by
  induction calls generalizing owners with
  | nil => rfl
  | cons c calls ih =>
    obtain ⟨hc, hcs⟩ := List.forall_mem_cons.1 h
    have hg : c.Granted owners := by
      cases owners with
      | none => exact ⟨hc 1, .inr (hc _)⟩
      | some db => exact .inr (hc _)
    rw [assigned, if_pos hg, ih _ hcs, List.map_cons]

/-- **The ownership table is a finite map.** After any history of `emuroot_owner_set` calls from no
table, with any of their allocations failing: every lookup gives what the latest assignment gave
the key (every call is one while allocations succeed), and nothing for a key never assigned;
`count` is the number of distinct keys; every `find_slot` ends, also in the resize loop, which
moves every entry; and a further call whose allocation fails leaves every lookup as it was. -/
theorem ownership_table (calls : List SetCall) :
    (∀ k, ownerLookup (ownersAfter none calls) k = latest (assigned none calls) k) ∧
    ((∀ c ∈ calls, ∀ n, c.calloc n) → assigned none calls = calls.map fun c => (c.key, c.owner)) ∧
    ownerCount (ownersAfter none calls) = ((assigned none calls).map Prod.fst).toFinset.card ∧
    (∀ db, ownersAfter none calls = some db →
      (0 < db.cap → ∀ k, (db.findSlot k).isSome) ∧ db.Grows) ∧
    ∀ c : SetCall, ¬ c.Granted (ownersAfter none calls) → ∀ k,
      ownerLookup (ownersAfter none (calls ++ [c])) k = ownerLookup (ownersAfter none calls) k := by
  have h := Keeps.none.after calls
  refine ⟨h.looks, assigned_eq_map none, h.counts, fun db _ => ⟨db.findSlot_isSome, db.grows⟩,
    fun c hc k => ?_⟩
  rw [ownersAfter_concat, (h.failed hc).looks, h.looks]

end Emuroot
