import Mathlib.Algebra.Order.Ring.Int
import Mathlib.Data.List.Induction
import ByteSchema.Decode.Raw

/-!
# ByteSchema.Proofs.IntegerBytes

Writing integers in bytes, the way back from reading them.

`bytesOfInteger?` is the evident encoder: an unsigned integer in plain binary, a signed one in two's
complement, in either byte order, and nothing if the integer does not fit. It is inverse to
`integerOfBytes` from both sides.
-/

namespace ByteSchema

/-- A number in `width` bytes, the most significant one first; what is above them is dropped. -/
def bytesOfNat : Nat → Nat → List UInt8
  | 0, _ => []
  | width + 1, n => bytesOfNat width (n / 256) ++ [UInt8.ofNat (n % 256)]

/-- The integers that can be written in `width` bytes. -/
def InRange (signed : Bool) (width : Nat) (z : Int) : Prop :=
  let span : Int := 256 ^ width
  if signed then -span ≤ 2 * z ∧ 2 * z < span else 0 ≤ z ∧ z < span

instance (signed : Bool) (width : Nat) (z : Int) : Decidable (InRange signed width z) :=
  inferInstanceAs (Decidable (ite _ _ _))

/-- An integer in `width` bytes; a signed one in two's complement. -/
def bytesOfInteger? (endian : Endian) (signed : Bool) (width : Nat) (z : Int) :
    Option (List UInt8) :=
  if InRange signed width z then
    some (endian.bigFirst (bytesOfNat width (z % 256 ^ width).toNat))
  else none

/-! ## Numbers -/

@[simp] theorem natOfBytes_nil : natOfBytes [] = 0 := rfl

@[simp] theorem natOfBytes_concat (bytes : List UInt8) (b : UInt8) :
    natOfBytes (bytes ++ [b]) = natOfBytes bytes * 256 + b.toNat := by
  simp [natOfBytes, List.foldl_append]

@[simp] theorem length_bytesOfNat (width n : Nat) : (bytesOfNat width n).length = width := by
  induction width generalizing n with
  | zero => rfl
  | succ width ih => simp [bytesOfNat, ih]

theorem natOfBytes_lt (bytes : List UInt8) : natOfBytes bytes < 256 ^ bytes.length := by
  induction bytes using List.reverseRecOn with
  | nil => simp
  | append_singleton bytes b ih =>
      have hb : b.toNat < 256 := b.toNat_lt
      rw [natOfBytes_concat, List.length_append, List.length_singleton, Nat.pow_succ]
      omega

theorem natOfBytes_bytesOfNat {width n : Nat} (h : n < 256 ^ width) :
    natOfBytes (bytesOfNat width n) = n := by
  induction width generalizing n with
  | zero =>
      obtain rfl : n = 0 := by simpa using h
      rfl
  | succ width ih =>
      have hhigh : n / 256 < 256 ^ width := by
        rw [Nat.pow_succ] at h
        omega
      have hlow : (UInt8.ofNat (n % 256)).toNat = n % 256 := by
        rw [UInt8.toNat_ofNat']
        omega
      rw [bytesOfNat, natOfBytes_concat, ih hhigh, hlow]
      omega

theorem bytesOfNat_natOfBytes (bytes : List UInt8) :
    bytesOfNat bytes.length (natOfBytes bytes) = bytes := by
  induction bytes using List.reverseRecOn with
  | nil => rfl
  | append_singleton bytes b ih =>
      have hb : b.toNat < 256 := b.toNat_lt
      have hhigh : (natOfBytes bytes * 256 + b.toNat) / 256 = natOfBytes bytes := by omega
      have hlow : (natOfBytes bytes * 256 + b.toNat) % 256 = b.toNat := by omega
      rw [natOfBytes_concat, List.length_append, List.length_singleton, bytesOfNat, hhigh, hlow, ih,
        UInt8.ofNat_toNat]

/-! ## Byte order -/

@[simp] theorem Endian.length_bigFirst (endian : Endian) (bytes : List UInt8) :
    (endian.bigFirst bytes).length = bytes.length := by
  cases endian with
  | big => rfl
  | little => exact List.length_reverse

@[simp] theorem Endian.bigFirst_bigFirst (endian : Endian) (bytes : List UInt8) :
    endian.bigFirst (endian.bigFirst bytes) = bytes := by
  cases endian with
  | big => rfl
  | little => exact List.reverse_reverse bytes

/-- A number in `width` bytes, in a byte order. -/
def orderedBytes (order : Endian) (width n : Nat) : List UInt8 :=
  order.bigFirst (bytesOfNat width n)

@[simp] theorem length_orderedBytes (order : Endian) (width n : Nat) :
    (orderedBytes order width n).length = width := by
  simp [orderedBytes]

theorem natOfBytes_orderedBytes {order : Endian} {width n : Nat} (h : n < 256 ^ width) :
    natOfBytes (order.bigFirst (orderedBytes order width n)) = n := by
  rw [orderedBytes, Endian.bigFirst_bigFirst, natOfBytes_bytesOfNat h]

/-! ## Integers -/

theorem pow_two_mul_eight (width : Nat) : Nat.pow 2 (8 * width) = 256 ^ width := by
  rw [Nat.pow_eq, Nat.pow_mul]

/-- What is read is the number in the bytes, less the span when the sign says so. -/
theorem integerOfBytes_eq (endian : Endian) (signed : Bool) (bytes : List UInt8) :
    integerOfBytes endian signed bytes =
      if signed ∧ 256 ^ bytes.length ≤ 2 * natOfBytes (endian.bigFirst bytes) then
        (natOfBytes (endian.bigFirst bytes) : Int) - (256 ^ bytes.length : Nat)
      else natOfBytes (endian.bigFirst bytes) := by
  unfold integerOfBytes
  rw [pow_two_mul_eight]
  simp

theorem integerOfBytes_orderedBytes {order : Endian} {width n : Nat} (h : n < 256 ^ width) :
    integerOfBytes order false (orderedBytes order width n) = n := by
  rw [integerOfBytes_eq, natOfBytes_orderedBytes h]
  simp

theorem inRange_integerOfBytes (endian : Endian) (signed : Bool) (bytes : List UInt8) :
    InRange signed bytes.length (integerOfBytes endian signed bytes) := by
  have hlt := natOfBytes_lt (endian.bigFirst bytes)
  rw [Endian.length_bigFirst] at hlt
  rw [integerOfBytes_eq]
  generalize natOfBytes (endian.bigFirst bytes) = n at hlt ⊢
  unfold InRange
  have hspan : (256 ^ bytes.length : Int) = ((256 ^ bytes.length : Nat) : Int) := by push_cast; rfl
  dsimp only
  rw [hspan]
  generalize 256 ^ bytes.length = span at hlt ⊢
  cases signed
  · simp only [Bool.false_eq_true, false_and, if_false]
    omega
  · simp only [true_and, if_true]
    split <;> omega

/-- The integer and the number in the bytes differ by whole spans. -/
theorem integerOfBytes_emod (endian : Endian) (signed : Bool) (bytes : List UInt8) :
    integerOfBytes endian signed bytes % 256 ^ bytes.length =
      natOfBytes (endian.bigFirst bytes) := by
  have hlt := natOfBytes_lt (endian.bigFirst bytes)
  rw [Endian.length_bigFirst] at hlt
  have hspan : (256 ^ bytes.length : Int) = ((256 ^ bytes.length : Nat) : Int) := by push_cast; rfl
  rw [integerOfBytes_eq, hspan]
  generalize natOfBytes (endian.bigFirst bytes) = n at hlt ⊢
  generalize 256 ^ bytes.length = span at hlt ⊢
  have hn : (n : Int) % span = n := Int.emod_eq_of_lt (by omega) (by omega)
  split
  · rw [Int.sub_emod_right, hn]
  · exact hn

/-- Writing what was read gives the bytes back. -/
theorem bytesOfInteger?_integerOfBytes (endian : Endian) (signed : Bool) (bytes : List UInt8) :
    bytesOfInteger? endian signed bytes.length (integerOfBytes endian signed bytes) = some bytes := by
  have hbytes : bytesOfNat bytes.length (natOfBytes (endian.bigFirst bytes)) =
      endian.bigFirst bytes := by
    have hround := bytesOfNat_natOfBytes (endian.bigFirst bytes)
    rwa [Endian.length_bigFirst] at hround
  rw [bytesOfInteger?, if_pos (inRange_integerOfBytes endian signed bytes), integerOfBytes_emod,
    Int.toNat_natCast, hbytes, Endian.bigFirst_bigFirst]

/-- An integer in range can be told from what is left of it modulo the span. -/
theorem InRange.eq_of_emod {signed : Bool} {width m : Nat} {z : Int} (h : InRange signed width z)
    (hm : (m : Int) = z % 256 ^ width) :
    z = if signed ∧ 256 ^ width ≤ 2 * m then (m : Int) - (256 ^ width : Nat) else m := by
  have hspan : (256 ^ width : Int) = ((256 ^ width : Nat) : Int) := by push_cast; rfl
  unfold InRange at h
  rw [hspan] at hm
  dsimp only at h
  rw [hspan] at h
  generalize 256 ^ width = span at h hm ⊢
  -- A negative integer is found one span above.
  rcases Int.lt_or_le z 0 with hneg | hpos
  · cases signed with
    | false => simp at h; omega
    | true =>
        simp only [if_true] at h
        have hm : (m : Int) = z + span := by
          rw [hm, ← Int.add_emod_right, Int.emod_eq_of_lt (by omega) (by omega)]
        rw [if_pos ⟨rfl, by omega⟩]
        omega
  · cases signed with
    | false =>
        simp only [Bool.false_eq_true, if_false] at h
        rw [Int.emod_eq_of_lt hpos h.2] at hm
        simpa using hm.symm
    | true =>
        simp only [if_true] at h
        rw [Int.emod_eq_of_lt hpos (by omega)] at hm
        rw [if_neg (by omega)]
        exact hm.symm

/-- Reading what was written gives the integer back. -/
theorem integerOfBytes_bytesOfInteger? {endian : Endian} {signed : Bool} {width : Nat} {z : Int}
    {bytes : List UInt8} (h : bytesOfInteger? endian signed width z = some bytes) :
    bytes.length = width ∧ integerOfBytes endian signed bytes = z := by
  unfold bytesOfInteger? at h
  split at h
  case isFalse => cases h
  case isTrue hrange =>
      obtain rfl := Option.some.inj h
      have hspan : (0 : Int) < 256 ^ width := Int.pow_pos (by decide)
      have hm : (((z % 256 ^ width).toNat : Nat) : Int) = z % 256 ^ width :=
        Int.toNat_of_nonneg (Int.emod_nonneg z (Int.ne_of_gt hspan))
      have hlt : (z % 256 ^ width).toNat < 256 ^ width := by
        have hmod := Int.emod_lt_of_pos z hspan
        rw [← hm] at hmod
        exact_mod_cast hmod
      refine ⟨by simp, ?_⟩
      rw [integerOfBytes_eq, Endian.bigFirst_bigFirst, natOfBytes_bytesOfNat hlt,
        Endian.length_bigFirst, length_bytesOfNat]
      exact (hrange.eq_of_emod hm).symm

end ByteSchema
