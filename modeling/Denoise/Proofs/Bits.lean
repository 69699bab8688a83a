import Denoise.Settings
import Mathlib

/-!
# The bits of a number

A number in binary is three fields of bits: a sign, an exponent and a significand.
`Unpacks` lists what they can stand for, with the bounds that the fields set
(`Unpacks.bounds`).
-/

namespace Denoise

namespace Bits

open Float.Model UnpackedFloat

variable {spec : Format}

/-! ## The fields -/

theorem toNat_unpackMantissa (b : BitVec spec.numBits) :
    (unpackMantissa b).toNat = b.toNat % 2 ^ spec.mantissaBitsWithoutImplicit := by
  have hm := spec.hm
  rw [unpackMantissa, BitVec.toNat_cast, BitVec.extractLsb_toNat, Nat.shiftRight_zero]
  congr 2
  omega

theorem toNat_unpackExponent (b : BitVec spec.numBits) :
    (unpackExponent b).toNat
      = b.toNat / 2 ^ spec.mantissaBitsWithoutImplicit % 2 ^ spec.exponentBits := by
  have he := spec.he
  rw [unpackExponent, BitVec.toNat_cast, BitVec.extractLsb_toNat, Nat.shiftRight_eq_div_pow]
  congr 2
  omega

theorem toNat_unpackSign (b : BitVec spec.numBits) :
    (unpackSign b).toNat
      = b.toNat / 2 ^ (spec.mantissaBitsWithoutImplicit + spec.exponentBits) := by
  rw [unpackSign, BitVec.toNat_cast, BitVec.extractLsb_toNat, Nat.shiftRight_eq_div_pow]
  refine Nat.mod_eq_of_lt ?_
  rw [Nat.div_lt_iff_lt_mul (Nat.two_pow_pos _), ← Nat.pow_add]
  refine Nat.lt_of_lt_of_eq b.isLt (congrArg (2 ^ ·) ?_)
  show 1 + spec.exponentBits + spec.mantissaBitsWithoutImplicit = _
  omega

/-! ## What they stand for -/

/-- The significand of a normal number, with the digit that is not stored. -/
theorem toNat_implicit (m : BitVec spec.mantissaBitsWithoutImplicit) :
    (1#1 ++ m).toNat = 2 ^ spec.mantissaBitsWithoutImplicit + m.toNat := by
  rw [BitVec.toNat_append, ← Nat.shiftLeft_add_eq_or_of_lt m.isLt, Nat.shiftLeft_eq]
  simp

/-- What bits stand for, by their fields. -/
inductive Unpacks (b : BitVec spec.numBits) : UnpackedFloat → Prop
  | infinity {s : Sign} :
    s = .ofBitVec (unpackSign b) → unpackExponent b = -1#_ → unpackMantissa b = 0#_ →
    Unpacks b (.infinity s)
  | notANumber :
    unpackExponent b = -1#_ → unpackMantissa b ≠ 0#_ →
    Unpacks b .notANumber
  | zero {s : Sign} :
    s = .ofBitVec (unpackSign b) → unpackExponent b = 0#_ → unpackMantissa b = 0#_ →
    Unpacks b (.zero s)
  | subnormal {s : Sign} {m : Nat} {e : Int} (pos : 0 < m) :
    s = .ofBitVec (unpackSign b) → unpackExponent b = 0#_ → m = (unpackMantissa b).toNat →
    e = 1 - (spec.exponentBias + spec.mantissaBitsWithoutImplicit : Nat) →
    Unpacks b (.finite s m e pos)
  | normal {s : Sign} {m : Nat} {e : Int} (pos : 0 < m) :
    s = .ofBitVec (unpackSign b) → unpackExponent b ≠ -1#_ → unpackExponent b ≠ 0#_ →
    m = 2 ^ spec.mantissaBitsWithoutImplicit + (unpackMantissa b).toNat →
    e = (unpackExponent b).toNat
      - (spec.exponentBias + spec.mantissaBitsWithoutImplicit : Nat) →
    Unpacks b (.finite s m e pos)

/-- Every word stands for one number, by the digits of its three parts. -/
theorem unpacks (b : BitVec spec.numBits) : Unpacks b (UnpackedFloat.unpack spec b) := by
  rw [UnpackedFloat.unpack]
  split
  next hexponent =>
    split
    next hmantissa => exact .infinity rfl hexponent hmantissa
    next hmantissa => exact .notANumber hexponent hmantissa
  next hall =>
    split
    next hexponent =>
      split
      next hmantissa => exact .zero rfl hexponent hmantissa
      next hmantissa =>
        refine .subnormal _ rfl hexponent rfl ?_
        rw [hexponent]
        simp
        omega
    next hnone => exact .normal _ rfl hall hnone (toNat_implicit _) (by push_cast; rfl)

/-- The significand of a finite number has no more digits than fit, and all of them
unless the exponent is the least. -/
theorem Unpacks.bounds {b : BitVec spec.numBits} {s : Sign} {m : Nat} {e : Int} {pos : 0 < m}
    (h : Unpacks b (.finite s m e pos)) (hbits : 1 < spec.exponentBits) :
    m < 2 * 2 ^ spec.mantissaBitsWithoutImplicit
      ∧ (2 ^ spec.mantissaBitsWithoutImplicit ≤ m
        ∨ e = 1 - (spec.exponentBias + spec.mantissaBitsWithoutImplicit : Nat))
      ∧ 1 - (spec.exponentBias + spec.mantissaBitsWithoutImplicit : Nat) ≤ e
      ∧ e + 2 ≤ (2 ^ spec.exponentBits : Nat)
        - (spec.exponentBias + spec.mantissaBitsWithoutImplicit : Nat) := by
  have hexponents : 2 ^ 2 ≤ 2 ^ spec.exponentBits := Nat.pow_le_pow_right (by decide) hbits
  cases h with
  | subnormal _ _ _ hm he =>
    have hlt := (unpackMantissa b).isLt
    omega
  | normal _ _ hall hnone hm he =>
    have hlt := (unpackMantissa b).isLt
    have hlt' := (unpackExponent b).isLt
    have hpos : (unpackExponent b).toNat ≠ 0 := fun h => hnone (BitVec.eq_of_toNat_eq (by simpa using h))
    have hmax : (unpackExponent b).toNat ≠ 2 ^ spec.exponentBits - 1 := by
      intro h
      refine hall (BitVec.eq_of_toNat_eq ?_)
      rw [h, BitVec.neg_one_eq_allOnes, BitVec.toNat_allOnes]
    omega

/-- A single is determined by what it stands for. -/
theorem eq_of_unpack_eq {a b : Float32} (h : a.toModel.unpack = b.toModel.unpack) : a = b := by
  obtain ⟨⟨⟨x⟩, hx⟩⟩ := a
  obtain ⟨⟨⟨y⟩, hy⟩⟩ := b
  obtain rfl := (unpack_inj_of_valid hx hy).1 h
  rfl

end Bits

end Denoise
