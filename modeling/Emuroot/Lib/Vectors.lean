import Emuroot.Lib.Memory

/-!
# Vectors of addresses in memory

`HoldsVector big k m a ps`: at `a` there are the addresses `ps`, none of them null, in `k` bytes
each, and a null behind them. What is there is determined (`HoldsVector.unique`);
`holdsVector_of_read` finds a vector in bytes that were laid out.
-/

namespace Memory

variable {w k : Nat} {big : Bool} {m : Memory w} {a p : BitVec w} {ps qs : List (BitVec w)}

/-- A part of what is read. -/
theorem read_mid (pre mid post : List UInt8)
    (h : m.read a (pre ++ mid ++ post).length = pre ++ mid ++ post) :
    m.read (a + BitVec.ofNat w pre.length) mid.length = mid := by
  have hpre : m.read a pre.length = pre := by
    rw [← read_take (k := pre.length) (n := (pre ++ mid ++ post).length) (by simp), h]
    simp
  have hrest := read_add hpre (mid ++ post).length
  rw [← List.length_append, ← List.append_assoc, h, List.append_assoc,
    List.append_cancel_left_eq] at hrest
  rw [← read_take (k := mid.length) (n := (mid ++ post).length) (by simp), ← hrest]
  simp

/-- A null-terminated vector of addresses. -/
def HoldsVector (big : Bool) (k : Nat) (m : Memory w) : BitVec w → List (BitVec w) → Prop
  | a, [] => m.read a k = toBytes big k 0
  | a, p :: ps => p ≠ 0 ∧ m.read a k = toBytes big k p.toNat ∧
      HoldsVector big k m (a + BitVec.ofNat w k) ps

theorem toBytes_toNat_inj (hk : 2 ^ w ≤ 256 ^ k) {q : BitVec w}
    (h : toBytes big k p.toNat = toBytes big k q.toNat) : p = q := by
  apply BitVec.eq_of_toNat_eq
  rw [← ofBytes_toBytes big (Nat.lt_of_lt_of_le p.isLt hk), h,
    ofBytes_toBytes big (Nat.lt_of_lt_of_le q.isLt hk)]

theorem HoldsVector.unique (hk : 2 ^ w ≤ 256 ^ k) (h : HoldsVector big k m a ps)
    (h' : HoldsVector big k m a qs) : ps = qs := by
  have hzero : ∀ {q : BitVec w}, toBytes big k 0 = toBytes big k q.toNat → 0 = q := by
    intro q hq
    apply toBytes_toNat_inj hk
    exact hq
  induction ps generalizing a qs with
  | nil =>
    cases qs with
    | nil => rfl
    | cons q qs => exact (h'.1 (hzero (h.symm.trans h'.2.1)).symm).elim
  | cons p ps ih =>
    cases qs with
    | nil => exact (h.1 (hzero (h'.symm.trans h.2.1)).symm).elim
    | cons q qs =>
      rcases h with ⟨-, hp, hps⟩
      rcases h' with ⟨-, hq, hqs⟩
      rw [toBytes_toNat_inj hk (hp.symm.trans hq), ih hps hqs]

/-- The bytes of a vector, once they are in memory. -/
theorem holdsVector_of_read (h0 : ∀ p ∈ ps, p ≠ 0)
    (h : m.read a ((ps ++ [0]).flatMap fun p : BitVec w => toBytes big k p.toNat).length =
      (ps ++ [0]).flatMap fun p : BitVec w => toBytes big k p.toNat) :
    HoldsVector big k m a ps := by
  induction ps generalizing a with
  | nil => simpa [HoldsVector] using h
  | cons p ps ih =>
    rw [List.cons_append, List.flatMap_cons] at h
    have hp := read_mid [] (toBytes big k p.toNat) _ (by rwa [List.nil_append])
    have hps := read_mid (toBytes big k p.toNat) _ [] (by rwa [List.append_nil])
    rw [length_toBytes] at hp hps
    refine ⟨h0 p List.mem_cons_self, by simpa using hp, ?_⟩
    exact ih (fun q hq => h0 q (List.mem_cons_of_mem _ hq)) hps

/-- The addresses of a vector are not null. -/
theorem HoldsVector.ne_zero (h : HoldsVector big k m a ps) : ∀ p ∈ ps, p ≠ 0 := by
  induction ps generalizing a with
  | nil => simp
  | cons p ps ih =>
    intro q hq
    rcases List.mem_cons.1 hq with rfl | hq
    · exact h.1
    · exact ih h.2.2 q hq

end Memory
