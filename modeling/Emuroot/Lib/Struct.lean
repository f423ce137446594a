import Emuroot.Lib.MemoryParts
import Mathlib.Algebra.BigOperators.Group.List.Basic
import Mathlib.Algebra.Ring.Nat
import Mathlib.Data.List.Forall2

/-!
# Packed records of numbers

A `Record ws` has a number for each field, and each fits its width. `encode` lays the fields out one
behind the other in either byte order; `decode_encode` and `encode_decode` are the round trips, and
`field_decode` says where in the bytes a field is.
-/

/-- The numbers of a record with fields of these widths. -/
structure Record (ws : List Nat) where
  values : List Nat
  fits : List.Forall₂ (fun w v => v < 256 ^ w) ws values

namespace Record

variable {ws : List Nat} {big : Bool}

@[ext] theorem ext {r s : Record ws} (h : r.values = s.values) : r = s := by
  obtain ⟨values, fits⟩ := r
  obtain rfl : values = s.values := h
  rfl

/-- The field with this number. -/
def get (r : Record ws) (i : Nat) : Nat := r.values[i]?.getD 0

/-- The bytes of the fields. -/
def pack (big : Bool) (ws vs : List Nat) : List UInt8 := (List.zipWith (toBytes big) ws vs).flatten

/-- The numbers in the bytes. -/
def unpack (big : Bool) : List Nat → List UInt8 → List Nat
  | [], _ => []
  | w :: ws, bs => ofBytes big (bs.take w) :: unpack big ws (bs.drop w)

def encode (big : Bool) (r : Record ws) : List UInt8 := pack big ws r.values

theorem length_pack {vs : List Nat} (h : ws.length = vs.length) :
    (pack big ws vs).length = ws.sum := by
  induction ws generalizing vs with
  | nil => rfl
  | cons w ws ih =>
    cases vs with
    | nil => cases h
    | cons v vs =>
      have hrest : (pack big ws vs).length = ws.sum := ih (Nat.succ.inj h)
      rw [List.sum_cons, ← hrest]
      simp [pack]

@[simp] theorem length_encode (r : Record ws) : (r.encode big).length = ws.sum :=
  length_pack r.fits.length_eq

theorem fits_unpack {bs : List UInt8} (h : bs.length = ws.sum) :
    List.Forall₂ (fun w v => v < 256 ^ w) ws (unpack big ws bs) := by
  induction ws generalizing bs with
  | nil => exact .nil
  | cons w ws ih =>
    rw [List.sum_cons] at h
    refine .cons ?_ (ih (by rw [List.length_drop]; omega))
    have hlt := ofBytes_lt big (bs.take w)
    rwa [List.length_take, Nat.min_eq_left (by omega)] at hlt

/-- The record in the bytes. -/
def decode (big : Bool) (bs : List UInt8) (h : bs.length = ws.sum) : Record ws :=
  ⟨unpack big ws bs, fits_unpack h⟩

theorem unpack_pack {vs : List Nat} (h : List.Forall₂ (fun w v => v < 256 ^ w) ws vs) :
    unpack big ws (pack big ws vs) = vs := by
  induction h with
  | nil => rfl
  | @cons w v ws vs hv _ ih =>
    have hcons : pack big (w :: ws) (v :: vs) = toBytes big w v ++ pack big ws vs := rfl
    rw [hcons, unpack, List.take_left' (length_toBytes ..), List.drop_left' (length_toBytes ..),
      ofBytes_toBytes big hv, ih]

theorem pack_unpack {bs : List UInt8} (h : bs.length = ws.sum) :
    pack big ws (unpack big ws bs) = bs := by
  induction ws generalizing bs with
  | nil => exact (List.length_eq_zero_iff.1 h).symm
  | cons w ws ih =>
    rw [List.sum_cons] at h
    have hw : (bs.take w).length = w := by
      rw [List.length_take]
      omega
    have hcons : pack big (w :: ws) (unpack big (w :: ws) bs) =
        toBytes big w (ofBytes big (bs.take w)) ++ pack big ws (unpack big ws (bs.drop w)) := rfl
    have hfront := toBytes_ofBytes big (bs.take w)
    rw [hw] at hfront
    rw [hcons, hfront, ih (by rw [List.length_drop]; omega), List.take_append_drop]

/-- **What is encoded is decoded.** -/
theorem decode_encode (r : Record ws) : decode big (r.encode big) (length_encode r) = r :=
  Record.ext (unpack_pack r.fits)

/-- **Bytes are encoded from what they decode to.** -/
theorem encode_decode {bs : List UInt8} (h : bs.length = ws.sum) :
    (decode big bs h).encode big = bs :=
  pack_unpack h

/-- Records of the same bytes are the same. -/
theorem encode_inj {r r' : Record ws} (h : r.encode big = r'.encode big) : r = r' := by
  rw [← @decode_encode ws big r, ← @decode_encode ws big r']
  simp only [h]

/-- The field is so far behind the start. -/
theorem field_decode {bs : List UInt8} (h : bs.length = ws.sum) {i : Nat} (hi : i < ws.length) :
    (decode big bs h).get i = ofBytes big ((bs.drop (ws.take i).sum).take ws[i]) := by
  suffices hu : ∀ {ws : List Nat} (bs : List UInt8) {i : Nat} (hi : i < ws.length),
      (unpack big ws bs)[i]?.getD 0 = ofBytes big ((bs.drop (ws.take i).sum).take ws[i]) from hu bs hi
  intro ws
  induction ws with
  | nil => exact fun _ _ hi => absurd hi (Nat.not_lt_zero _)
  | cons w ws ih =>
    intro bs i hi
    cases i with
    | zero => simp [unpack]
    | succ i =>
      have hrest := ih (bs.drop w) (Nat.lt_of_succ_lt_succ hi)
      rw [List.drop_drop] at hrest
      simpa [unpack] using hrest

/-- The field of an encoded record. -/
theorem field_encode (r : Record ws) {i : Nat} (hi : i < ws.length) :
    ofBytes big (((r.encode big).drop (ws.take i).sum).take ws[i]) = r.get i := by
  rw [← field_decode (length_encode r) hi, decode_encode]

end Record
