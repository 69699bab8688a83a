import Denoise.Proofs.Bounds
import Denoise.Proofs.Narrowing

/-!
# Between the precisions

A finite single is widened to its value, and a finite double is narrowed to its value,
rounded.  What is not finite stays what it is.
-/

namespace Denoise

open Float.Model UnpackedFloat Rounding Values

/-! ## From single to double -/

namespace Widening

/-- The doubles that are the powers of two in the range of the singles, by their bits. -/
theorem powerAt_eq : ∀ k : Fin 255, (Float.ofBits ((UInt64.ofNat k + 873) <<< 52)).toModel
    = Float.Model.pack (.finite .positive (2 ^ 52) (k.val - 202 : ℤ) (Nat.two_pow_pos _)) := by
  decide +kernel

theorem value_powerAt {k : ℕ} (hk : k < 255) :
    Fits .binary64 (Float.ofBits ((UInt64.ofNat k + 873) <<< 52)).toModel.unpack
      ∧ value (Float.ofBits ((UInt64.ofNat k + 873) <<< 52)).toModel.unpack
        = 2 ^ ((k : ℤ) - 150) := by
  have hcanonical : Canonical .binary64 (2 ^ 52) ((k : ℤ) - 202) :=
    ⟨Nat.two_pow_pos _, by decide, by show (-1074 : ℤ) ≤ _; omega, .inl le_rfl⟩
  have hfits : Fits .binary64 (.finite .positive (2 ^ 52) ((k : ℤ) - 202) hcanonical.pos) :=
    ⟨hcanonical, by show (k : ℤ) - 202 + 53 ≤ 1024; omega⟩
  have hread : (Float.ofBits ((UInt64.ofNat k + 873) <<< 52)).toModel.unpack
      = .finite .positive (2 ^ 52) ((k : ℤ) - 202) hcanonical.pos := by
    rw [powerAt_eq ⟨k, hk⟩]
    exact hfits.stored
  rw [hread]
  refine ⟨hfits, ?_⟩
  rw [value_finite, withSign, (by ring : (k : ℤ) - 150 = 52 + (k - 202)), zpow_add₀ (by norm_num)]
  norm_num

theorem yields_product {n : UInt64} {k : ℕ} (hn : n.toNat ≤ 2 ^ 53) (hk : k < 255) :
    Yields .binary64 (n.toNat * 2 ^ ((k : ℤ) - 150))
      (n.toFloat * .ofBits ((UInt64.ofNat k + 873) <<< 52)).toModel.unpack := by
  obtain ⟨hfits, hvalue⟩ := Doubles.value_toFloat hn
  obtain ⟨hfits', hvalue'⟩ := value_powerAt hk
  have h := Doubles.yields_mul hfits hfits'
  rwa [hvalue, hvalue'] at h

/-! The fields of a single -/

theorem toNat_exponent (bits : UInt32) : (bits >>> 23 &&& 0xff).toNat
    = (@unpackExponent .binary32 bits.toBitVec).toNat := by
  rw [Bits.toNat_unpackExponent, UInt32.toNat_and, UInt32.toNat_shiftRight,
    Nat.shiftRight_eq_div_pow]
  exact Nat.and_two_pow_sub_one_eq_mod _ 8

/-- The exponent of a word is zero exactly if that of the number is. -/
theorem exponent_eq_zero_iff (bits : UInt32) :
    bits >>> 23 &&& 0xff = 0 ↔ @unpackExponent .binary32 bits.toBitVec = 0#_ := by
  rw [← UInt32.toNat_inj, toNat_exponent, ← BitVec.toNat_inj]
  rfl

theorem exponent_eq_all_iff (bits : UInt32) :
    bits >>> 23 &&& 0xff = 0xff ↔ @unpackExponent .binary32 bits.toBitVec = -1#_ := by
  rw [← UInt32.toNat_inj, toNat_exponent, ← BitVec.toNat_inj]
  rfl

theorem toNat_fraction (bits : UInt32) : (bits &&& 0x7fffff).toNat
    = (@unpackMantissa .binary32 bits.toBitVec).toNat := by
  rw [Bits.toNat_unpackMantissa, UInt32.toNat_and]
  exact Nat.and_two_pow_sub_one_eq_mod _ 23

theorem toNat_significand (bits : UInt32) : (bits &&& 0x7fffff ||| 0x800000).toNat
    = 2 ^ 23 + (@unpackMantissa .binary32 bits.toBitVec).toNat := by
  have hlt : (@unpackMantissa .binary32 bits.toBitVec).toNat < 2 ^ 23 := BitVec.isLt _
  rw [UInt32.toNat_or, toNat_fraction, Nat.or_comm]
  exact (Nat.two_pow_add_eq_or_of_lt hlt 1).symm

theorem sign_eq (bits : UInt32) : (if bits >>> 31 = 0 then Sign.positive else .negative)
    = .ofBitVec (@unpackSign .binary32 bits.toBitVec) := by
  have hbit : (bits >>> 31).toNat = (@unpackSign .binary32 bits.toBitVec).toNat := by
    rw [Bits.toNat_unpackSign, UInt32.toNat_shiftRight, Nat.shiftRight_eq_div_pow]
    rfl
  have hzero : bits >>> 31 = 0 ↔ @unpackSign .binary32 bits.toBitVec = 0#1 := by
    rw [← UInt32.toNat_inj, hbit, ← BitVec.toNat_inj]
    rfl
  rw [Sign.ofBitVec]
  by_cases h : bits >>> 31 = 0
  · rw [if_pos h, if_pos (hzero.1 h)]
  · rw [if_neg h, if_neg (mt hzero.2 h)]

/-- The size of a finite single by its fields, and the double that is built from them. -/
theorem exists_magnitude {x : Float32} (hx : x.isFinite = true) :
    ∃ (v : ℚ) (y : Float), Yields .binary64 v y.toModel.unpack
      ∧ Singles.valueOf x = withSign (.ofBitVec (@unpackSign .binary32 x.toBits.toBitVec)) v
      ∧ widen x = if x.toBits >>> 31 = 0 then y else -y := by
  have hkind := @Bits.unpacks .binary32 x.toModel.toBits.toBitVec
  change @Bits.Unpacks .binary32 x.toBits.toBitVec x.toModel.unpack at hkind
  change x.toModel.unpack.isFinite = true at hx
  have hexponent := toNat_exponent x.toBits
  have hleast := exponent_eq_zero_iff x.toBits
  have hgreatest := exponent_eq_all_iff x.toBits
  have hfraction := toNat_fraction x.toBits
  have hsignificand := toNat_significand x.toBits
  have hlt : (@unpackMantissa .binary32 x.toBits.toBitVec).toNat < 2 ^ 23 := BitVec.isLt _
  have hlt' : (@unpackExponent .binary32 x.toBits.toBitVec).toNat < 2 ^ 8 := BitVec.isLt _
  have hsubnormal := @yields_product (x.toBits &&& 0x7fffff).toUInt64 1
    (by rw [UInt32.toNat_toUInt64]; omega) (by decide)
  rw [UInt32.toNat_toUInt64, hfraction] at hsubnormal
  rw [Singles.valueOf, widen]
  generalize x.toModel.unpack = u at *
  cases hkind with
  | infinity => cases hx
  | notANumber => cases hx
  | zero hsign hexp hm =>
    have hnot : ¬x.toBits >>> 23 &&& 0xff = 0xff := by
      rw [hgreatest, hexp]
      decide
    refine ⟨_, _, hsubnormal, ?_, by simp only [if_neg hnot, if_pos (hleast.2 hexp)]; rfl⟩
    rw [value_zero, hm, ← hsign]
    cases ‹Sign› <;> simp [withSign]
  | subnormal pos hsign hexp hm he =>
    have hnot : ¬x.toBits >>> 23 &&& 0xff = 0xff := by
      rw [hgreatest, hexp]
      decide
    refine ⟨_, _, hsubnormal, ?_, by simp only [if_neg hnot, if_pos (hleast.2 hexp)]; rfl⟩
    rw [value_finite, hm, he, ← hsign]
    rfl
  | normal pos hsign hall hnone hm he =>
    have hne : (x.toBits >>> 23 &&& 0xff).toNat ≠ 255 :=
      fun h => hall (hgreatest.1 (UInt32.toNat_inj.1 h))
    have hword : UInt64.ofNat (x.toBits >>> 23 &&& 0xff).toNat
        = (x.toBits >>> 23 &&& 0xff).toUInt64 := by
      rw [← UInt64.toNat_inj, UInt64.toNat_ofNat', UInt32.toNat_toUInt64]
      omega
    have hnormal := @yields_product (x.toBits &&& 0x7fffff ||| 0x800000).toUInt64
      (x.toBits >>> 23 &&& 0xff).toNat (by rw [UInt32.toNat_toUInt64, hsignificand]; omega)
      (by omega)
    rw [UInt32.toNat_toUInt64, hsignificand, hword, hexponent] at hnormal
    refine ⟨_, _, hnormal, ?_, ?_⟩
    · rw [value_finite, hm, he, ← hsign]
      rfl
    · simp only [if_neg (mt hgreatest.1 hall), if_neg (mt hleast.1 hnone)]

/-- A finite single is widened exactly. -/
theorem yields_widen {x : Float32} (hx : x.isFinite = true) :
    Yields .binary64 (Singles.valueOf x) (widen x).toModel.unpack := by
  obtain ⟨v, y, hy, hvalue, hwiden⟩ := exists_magnitude hx
  rw [hvalue, hwiden, ← sign_eq]
  split
  · exact hy
  · exact hy.neg

/-- Only a finite single is widened to a finite double. -/
theorem isFinite_of_widen {x : Float32} (h : (widen x).isFinite = true) : x.isFinite = true := by
  have hkind := @Bits.unpacks .binary32 x.toModel.toBits.toBitVec
  change @Bits.Unpacks .binary32 x.toBits.toBitVec x.toModel.unpack at hkind
  have hgreatest := exponent_eq_all_iff x.toBits
  have hextreme (hexp : @unpackExponent .binary32 x.toBits.toBitVec = -1#_) :
      (widen x).isFinite = false := by
    rw [widen]
    simp only [if_pos (hgreatest.2 hexp)]
    split <;> split <;> rfl
  show x.toModel.unpack.isFinite = true
  generalize x.toModel.unpack = u at *
  cases hkind with
  | infinity _ hexp => exact absurd h (by rw [hextreme hexp]; exact Bool.false_ne_true)
  | notANumber hexp => exact absurd h (by rw [hextreme hexp]; exact Bool.false_ne_true)
  | zero => rfl
  | subnormal => rfl
  | normal => rfl
end Widening

/-! ## From double to single -/

namespace Narrowing

variable {a : Float}

/-- A sign is given to the exact result as to the rounded one. -/
theorem yields_signed {s : Sign} {v : ℚ} {x : Float32} (h : Yields .binary32 v x.toModel.unpack) :
    Yields .binary32 (withSign s v) (signed s x).toModel.unpack := by
  cases s with
  | positive => exact h
  | negative => exact h.neg

/-- A double below the range of the singles is narrowed to zero. -/
theorem narrow_of_small (h : (a.toBits >>> 52 &&& 0x7ff).toNat < 873) :
    narrow a = signed (.ofBitVec (@unpackSign .binary64 a.toBits.toBitVec)) 0 := by
  rw [narrow, ite_sign_eq]
  generalize a.toBits >>> 52 &&& 0x7ff = exponent at h
  have h₁ : ¬exponent = 0x7ff := by
    rw [← UInt64.toNat_inj]
    show ¬exponent.toNat = 2047
    omega
  have h₂ : ¬1150 < exponent := by
    rw [UInt64.lt_iff_toNat_lt]
    show ¬1150 < exponent.toNat
    omega
  have h₃ : exponent < 873 := UInt64.lt_iff_toNat_lt.2 h
  simp only [if_neg h₁, if_neg h₂, if_pos h₃]
  rfl

/-- A double above the range of the singles is narrowed to an infinity. -/
theorem narrow_of_great (h : 1150 < (a.toBits >>> 52 &&& 0x7ff).toNat)
    (h' : (a.toBits >>> 52 &&& 0x7ff).toNat < 2047) :
    narrow a
      = signed (.ofBitVec (@unpackSign .binary64 a.toBits.toBitVec)) (.ofBits 0x7f800000) := by
  rw [narrow, ite_sign_eq]
  generalize a.toBits >>> 52 &&& 0x7ff = exponent at h h'
  have h₁ : ¬exponent = 0x7ff := by
    rw [← UInt64.toNat_inj]
    show ¬exponent.toNat = 2047
    omega
  have h₂ : 1150 < exponent := UInt64.lt_iff_toNat_lt.2 h
  simp only [if_neg h₁, if_pos h₂]

/-- A shortened significand and a power of two are rounded together as the number they are
shortened from. -/
theorem yields_product {p : ℕ} {g : ℤ} {d place : UInt64} (hp : p < 2 ^ 53) (hfull : 2 ^ 52 ≤ p)
    (hlow : -202 ≤ g) (hhigh : g ≤ 75) (hd : g + d.toNat = max (g + 29) (-149))
    (hplace : (place.toNat : ℤ) = max (g + 29) (-149) + 149) :
    Yields .binary32 (p * 2 ^ g)
      ((roundedShift p.toUInt64 d).toFloat32 * powerAt place).toModel.unpack := by
  have hword : p.toUInt64.toNat = p := Nat.mod_eq_of_lt (by omega)
  have hnearest := toNat_roundedShift (p := p.toUInt64) (d := d) (by omega) (by omega) (by omega)
  rw [hword] at hnearest
  obtain ⟨t, ht⟩ : ∃ t, t = max (g + 29) (-149) := ⟨_, rfl⟩
  rw [← ht] at hd hplace
  have hquotient : (p : ℚ) / 2 ^ d.toNat = p * 2 ^ g / 2 ^ t := by
    rw [← hd, zpow_add₀ (by norm_num), zpow_natCast]
    field_simp
  rw [hquotient] at hnearest
  have hp' : (p : ℚ) < 2 ^ (53 : ℤ) := by exact_mod_cast hp
  have hfull' : (2 : ℚ) ^ (52 : ℤ) ≤ p := by exact_mod_cast hfull
  have hlast : LastPlace .binary32 (p * 2 ^ g) t := by
    refine ⟨by show (-149 : ℤ) ≤ t; omega, ?_, ?_⟩
    · calc (p : ℚ) * 2 ^ g < 2 ^ (53 : ℤ) * 2 ^ g := mul_lt_mul_of_pos_right hp' (by positivity)
        _ = 2 ^ (53 + g) := (zpow_add₀ (by norm_num) _ _).symm
        _ ≤ 2 ^ (t + 24) := zpow_le_zpow_right₀ one_le_two (by omega)
    · rcases le_or_gt t (-149) with hle | hgt
      · exact .inr (by show t = -149; omega)
      · left
        calc (2 : ℚ) ^ (t + 23) = 2 ^ (52 : ℤ) * 2 ^ g := by
              rw [← zpow_add₀ (by norm_num)]
              congr 1
              omega
          _ ≤ p * 2 ^ g := mul_le_mul_of_nonneg_right hfull' (by positivity)
  have hsmall := RoundsUnsigned.significand_le hlast hnearest
  obtain ⟨hfinite, hsize⟩ := value_toFloat32 (n := roundedShift p.toUInt64 d) hsmall
  obtain ⟨hfinite', hunit⟩ := value_powerAt (by omega : place.toNat < 254)
  have hyields := Singles.yields_mul hfinite hfinite'
  rw [hsize, hunit, hplace, add_sub_cancel_right] at hyields
  refine Yields.of_rounds (.of_nonneg (by positivity) ⟨t, _, hlast, hnearest, rfl⟩) ?_ hyields
  exact rounds_self hsmall hlast.least
    (hlast.above.imp (fun habove => RoundsUnsigned.le_significand habove hnearest) id)

theorem yields_zero_of_small {v : ℚ} (hnonneg : 0 ≤ v) (h : v ≤ 2 ^ (-150 : ℤ)) :
    Yields .binary32 v (0 : Float32).toModel.unpack := by
  refine .finite trivial (.of_nonneg hnonneg
    ⟨-149, 0, ⟨le_rfl, ?_, .inr rfl⟩, ⟨?_, ?_, fun _ => rfl⟩, ?_⟩)
  · exact h.trans_lt (zpow_lt_zpow_right₀ one_lt_two (by decide))
  · have : 0 ≤ v / 2 ^ (-149 : ℤ) := by positivity
    push_cast
    linarith
  · rw [div_le_iff₀ (by positivity)]
    calc v ≤ 2 ^ (-150 : ℤ) := h
      _ = ((0 : ℕ) + 1 / 2) * 2 ^ (-149 : ℤ) := by norm_num
  · rw [Nat.cast_zero, zero_mul]
    rfl

/-- A double is narrowed to its value, rounded. -/
theorem yields_narrow (ha : Fits .binary64 a.toModel.unpack) :
    Yields .binary32 (value a.toModel.unpack) (narrow a).toModel.unpack := by
  have hkind := @Bits.unpacks .binary64 a.toModel.toBits.toBitVec
  change @Bits.Unpacks .binary64 a.toBits.toBitVec a.toModel.unpack at hkind
  have hexponent := toNat_exponent a.toBits
  cases hu : a.toModel.unpack with
  | notANumber =>
    rw [hu] at ha
    exact ha.elim
  | infinity =>
    rw [hu] at ha
    exact ha.elim
  | zero s =>
    rw [hu] at hkind
    cases hkind with
    | zero hs hexp =>
      have hzero := yields_zero_of_small (v := 0) le_rfl (by positivity)
      rw [narrow_of_small (by rw [hexponent, hexp]; decide), value_zero, ← hs]
      cases s with
      | positive => exact hzero
      | negative => exact (neg_zero (G := ℚ)) ▸ hzero.neg
  | finite s p g pos =>
    have hp : p < 2 ^ 53 := (Doubles.bounds hu).1
    have hp' : (p : ℚ) ≤ 2 ^ (53 : ℤ) := by exact_mod_cast hp.le
    rw [value_finite]
    rw [hu] at hkind
    have hsmall : g < -202 → Yields .binary32 (p * 2 ^ g) (0 : Float32).toModel.unpack := by
      intro hg
      refine yields_zero_of_small (by positivity) ?_
      calc (p : ℚ) * 2 ^ g ≤ 2 ^ (53 : ℤ) * 2 ^ g := mul_le_mul_of_nonneg_right hp' (by positivity)
        _ = 2 ^ (53 + g) := (zpow_add₀ (by norm_num) _ _).symm
        _ ≤ 2 ^ (-150 : ℤ) := zpow_le_zpow_right₀ one_le_two (by omega)
    cases hkind with
    | subnormal _ hs hexp _ he =>
      rw [narrow_of_small (by rw [hexponent, hexp]; decide), ← hs]
      refine yields_signed (hsmall ?_)
      rw [he]
      decide
    | normal _ hs hall hnone hm he =>
      have hfull : 2 ^ 52 ≤ p := hm ▸ Nat.le_add_right _ _
      have he' : g = (a.toBits >>> 52 &&& 0x7ff).toNat - 1075 := by rw [he, hexponent]; rfl
      have hall' : (a.toBits >>> 52 &&& 0x7ff).toNat < 2047 := by
        have hlt : (@unpackExponent .binary64 a.toBits.toBitVec).toNat < 2048 := BitVec.isLt _
        have hne : (@unpackExponent .binary64 a.toBits.toBitVec).toNat ≠ 2047 :=
          fun h => hall (BitVec.eq_of_toNat_eq h)
        omega
      rcases lt_or_ge g (-202) with hlt | hge
      · rw [narrow_of_small (by omega), ← hs]
        exact yields_signed (hsmall hlt)
      · rcases le_or_gt g 75 with hle | hgt
        · obtain ⟨d, place, hd, hplace, hnarrow⟩ := narrow_eq_product hu hfull hge hle
          rw [hnarrow]
          exact yields_signed (yields_product hp hfull hge hle hd hplace)
        · rw [narrow_of_great (by omega) hall', ← hs]
          refine yields_signed ?_
          have hround := @yields_round .binary32 (by decide) .positive _ g pos
          have hgreat : (2 : ℚ) ^ limit .binary32 ≤ p * 2 ^ g := by
            calc (2 : ℚ) ^ limit .binary32 ≤ 2 ^ (52 + g : ℤ) :=
                  zpow_le_zpow_right₀ one_le_two (by show (128 : ℤ) ≤ 52 + g; omega)
              _ = 2 ^ 52 * 2 ^ g := zpow_add₀ (by norm_num) _ _
              _ ≤ p * 2 ^ g := mul_le_mul_of_nonneg_right (by exact_mod_cast hfull) (by positivity)
          rw [withSign] at hround
          have hinf := hround.overflows (by decide) hgreat
          rw [hinf] at hround
          exact hround

/-- A double of moderate size is narrowed to a finite single. -/
theorem isFinite_narrow (ha : Fits .binary64 a.toModel.unpack)
    (h : |value a.toModel.unpack| < 2 ^ (127 : ℤ)) : (narrow a).isFinite = true := by
  have hbound : Exact .binary32 (2 ^ (127 : ℤ)) := .two_zpow (by decide) (by decide)
  obtain ⟨hlow, hhigh⟩ := abs_lt.1 h
  exact ((yields_narrow ha).within hbound.neg hbound hlow.le hhigh.le).fits.isFinite

/-- What is not finite keeps its kind. -/
theorem unpack_narrow_of_not_finite (ha : a.isFinite = false) :
    (narrow a).toModel.unpack = a.toModel.unpack := by
  have hkind := @Bits.unpacks .binary64 a.toModel.toBits.toBitVec
  change @Bits.Unpacks .binary64 a.toBits.toBitVec a.toModel.unpack at hkind
  have hextreme (hexp : @unpackExponent .binary64 a.toBits.toBitVec = -1#_) :
      narrow a = signed (.ofBitVec (@unpackSign .binary64 a.toBits.toBitVec))
        (.ofBits (if a.toBits &&& 0xfffffffffffff = 0 then 0x7f800000 else 0x7fc00000)) := by
    have hall : a.toBits >>> 52 &&& 0x7ff = 0x7ff := by
      rw [← UInt64.toNat_inj, toNat_exponent, hexp]
      rfl
    rw [narrow, ite_sign_eq]
    simp only [if_pos hall]
  have hfraction : a.toBits &&& 0xfffffffffffff = 0
      ↔ @unpackMantissa .binary64 a.toBits.toBitVec = 0#_ := by
    rw [← UInt64.toNat_inj, ← BitVec.toNat_inj, toNat_fraction]
    rfl
  change a.toModel.unpack.isFinite = false at ha
  generalize a.toModel.unpack = u at *
  cases hkind with
  | infinity hs hexp hm =>
    rw [hextreme hexp, if_pos (hfraction.2 hm), ← hs]
    cases ‹Sign› <;> rfl
  | notANumber hexp hm =>
    rw [hextreme hexp, if_neg (mt hfraction.1 hm)]
    cases Sign.ofBitVec (@unpackSign .binary64 a.toBits.toBitVec) <;> rfl
  | zero => cases ha
  | subnormal => cases ha
  | normal => cases ha
end Narrowing

end Denoise
