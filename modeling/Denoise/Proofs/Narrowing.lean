import Denoise.Decimal
import Denoise.Proofs.Doubles
import Denoise.Proofs.Singles

/-!
# Narrowing a double

A single is the result of narrowing for every double in its rounding interval.
-/

namespace Denoise

namespace Narrowing

open Float.Model UnpackedFloat Rounding Values

/-! ## Shortening a significand -/

/-- The quotient of a division with rest, rounded by comparing the rest with half of the
divisor. -/
theorem nearest_of_rest {q r half : ℕ} (hr : r < 2 * half) :
    Nearest (if half < r ∨ r = half ∧ q % 2 = 1 then q + 1 else q) (q + r / (2 * half)) := by
  have hpos : (0 : ℚ) < half := by exact_mod_cast (by omega : 0 < half)
  have hrest : (r : ℚ) / (2 * half) < 1 := by
    rw [div_lt_one (by positivity)]
    exact_mod_cast hr
  have hnonneg : 0 ≤ (r : ℚ) / (2 * half) := by positivity
  rcases lt_trichotomy half r with hcmp | rfl | hcmp
  · have hgt : (1 : ℚ) / 2 < r / (2 * half) := by
      rw [div_lt_div_iff₀ two_pos (by positivity)]
      have : (half : ℚ) < r := by exact_mod_cast hcmp
      linarith
    rw [if_pos (.inl hcmp)]
    constructor
    · push_cast
      linarith
    · push_cast
      linarith
    · push_cast
      rintro (h | h) <;> linarith
  · have heq : (half : ℚ) / (2 * half) = 1 / 2 := by field_simp
    rw [heq]
    rcases Nat.mod_two_eq_zero_or_one q with hq | hq
    · rw [if_neg (by omega)]
      exact ⟨by linarith, by linarith, fun _ => hq⟩
    · rw [if_pos (by omega)]
      exact ⟨by push_cast; linarith, by push_cast; linarith, fun _ => by omega⟩
  · have hlt : (r : ℚ) / (2 * half) < 1 / 2 := by
      rw [div_lt_div_iff₀ (by positivity) two_pos]
      have : (r : ℚ) < half := by exact_mod_cast hcmp
      linarith
    rw [if_neg (by omega)]
    exact ⟨by linarith, by linarith, by rintro (h | h) <;> linarith⟩

/-- A shift with a round bit rounds to the nearest, and to even where two are as near. -/
theorem toNat_roundedShift {p d : UInt64} (hp : p.toNat < 2 ^ 63) (hd : 0 < d.toNat)
    (hd' : d.toNat < 64) : Nearest (roundedShift p d).toNat (p.toNat / 2 ^ d.toNat) := by
  obtain ⟨k, hk⟩ : ∃ k, d.toNat = k + 1 := ⟨d.toNat - 1, by omega⟩
  have hunit : 2 ^ d.toNat = 2 * 2 ^ k := by rw [hk, pow_succ']
  have hkept : (p >>> d).toNat = p.toNat / (2 * 2 ^ k) := by
    rw [UInt64.toNat_shiftRight, Nat.shiftRight_eq_div_pow, Nat.mod_eq_of_lt hd', hunit]
  have hsplit := Nat.div_add_mod p.toNat (2 * 2 ^ k)
  have hmod := Nat.mod_lt p.toNat (by positivity : 0 < 2 * 2 ^ k)
  have hback : (p >>> d <<< d).toNat = 2 * 2 ^ k * (p.toNat / (2 * 2 ^ k)) := by
    rw [UInt64.toNat_shiftLeft, hkept, Nat.mod_eq_of_lt hd', Nat.shiftLeft_eq, hunit, mul_comm,
      Nat.mod_eq_of_lt (by omega)]
  have hrest : (p - p >>> d <<< d).toNat = p.toNat % (2 * 2 ^ k) := by
    rw [UInt64.toNat_sub_of_le _ _ (by rw [UInt64.le_iff_toNat_le]; omega), hback]
    omega
  have hhalf : ((1 : UInt64) <<< (d - 1)).toNat = 2 ^ k := by
    have hpred : (d - 1).toNat = k := by
      rw [UInt64.toNat_sub_of_le _ _ (by rw [UInt64.le_iff_toNat_le]; exact hd), hk]
      rfl
    have hshift : k % 64 = k := Nat.mod_eq_of_lt (by omega)
    rw [UInt64.toNat_shiftLeft, hpred, hshift, Nat.shiftLeft_eq, UInt64.toNat_one, one_mul,
      Nat.mod_eq_of_lt (Nat.pow_lt_pow_right (by decide) (by omega))]
  have hvalue : (p.toNat / 2 ^ d.toNat : ℚ)
      = (p.toNat / (2 * 2 ^ k) : ℕ) + (p.toNat % (2 * 2 ^ k) : ℕ) / (2 * (2 ^ k : ℕ)) := by
    have hsplit' : (p.toNat : ℚ)
        = 2 * 2 ^ k * (p.toNat / (2 * 2 ^ k) : ℕ) + (p.toNat % (2 * 2 ^ k) : ℕ) := by
      exact_mod_cast hsplit.symm
    rw [hk, pow_succ', div_eq_iff (by positivity), add_mul, Nat.cast_pow, Nat.cast_ofNat,
      div_mul_cancel₀ _ (by positivity), mul_comm _ (2 * 2 ^ k : ℚ)]
    exact hsplit'
  have hresult : (roundedShift p d).toNat
      = if 2 ^ k < p.toNat % (2 * 2 ^ k)
          ∨ p.toNat % (2 * 2 ^ k) = 2 ^ k ∧ p.toNat / (2 * 2 ^ k) % 2 = 1
        then p.toNat / (2 * 2 ^ k) + 1 else p.toNat / (2 * 2 ^ k) := by
    have hlt : p.toNat / (2 * 2 ^ k) < 2 ^ 63 := lt_of_le_of_lt (Nat.div_le_self _ _) hp
    have hcond : (1 <<< (d - 1) < p - p >>> d <<< d
          ∨ p - p >>> d <<< d = 1 <<< (d - 1) ∧ p >>> d % 2 = 1)
        ↔ (2 ^ k < p.toNat % (2 * 2 ^ k)
          ∨ p.toNat % (2 * 2 ^ k) = 2 ^ k ∧ p.toNat / (2 * 2 ^ k) % 2 = 1) := by
      rw [UInt64.lt_iff_toNat_lt, ← UInt64.toNat_inj, ← UInt64.toNat_inj, hhalf, hrest,
        UInt64.toNat_mod, hkept]
      rfl
    rw [roundedShift]
    simp only [hcond]
    split
    · rw [UInt64.toNat_add, hkept, UInt64.toNat_one, Nat.mod_eq_of_lt (by omega)]
    · exact hkept
  rw [hresult, hvalue]
  exact nearest_of_rest hmod

/-! ## The rounding interval of a single -/

/-- The numbers in an interval around a number of exponent `e`. -/
def Covers (i : Decimal.Interval) (e : ℤ) (v : ℚ) : Prop :=
  if i.closed then i.low * 2 ^ (e - 2) ≤ v ∧ v ≤ i.high * 2 ^ (e - 2)
  else i.low * 2 ^ (e - 2) < v ∧ v < i.high * 2 ^ (e - 2)

variable {m : ℕ} {e g : ℤ} {v : ℚ}

theorem low_eq (m : ℕ) (e : ℤ) : (Decimal.Interval.of .binary32 m e).low
    = if m = 2 ^ 23 ∧ -149 < e then 4 * m - 1 else 4 * m - 2 := rfl

/-- The interval reaches half a unit to either side, and only a quarter below a power of
two. -/
theorem Covers.bounds (hm : 0 < m) (h : Covers (.of .binary32 m e) e v) :
    Nearest m (v / 2 ^ e)
      ∧ (m = 2 ^ 23 → -149 < e → (m : ℚ) - 1 / 4 ≤ v / 2 ^ e) := by
  have hunit : (0 : ℚ) < 2 ^ e := by positivity
  have hquarter : (2 : ℚ) ^ (e - 2) = 2 ^ e / 4 := by
    rw [zpow_sub₀ (by norm_num)]
    norm_num
  have hscale (n : ℕ) : (n * 2 ^ (e - 2) : ℚ) = n / 4 * 2 ^ e := by
    rw [hquarter]
    ring
  have hhigh : ((Decimal.Interval.of .binary32 m e).high : ℚ) / 4 = m + 1 / 2 := by
    show ((4 * m + 2 : ℕ) : ℚ) / 4 = _
    push_cast
    ring
  have hlow : (m : ℚ) - 1 / 2 ≤ ((Decimal.Interval.of .binary32 m e).low : ℚ) / 4
      ∧ (m = 2 ^ 23 → -149 < e → ((Decimal.Interval.of .binary32 m e).low : ℚ) / 4 = m - 1 / 4) := by
    rw [low_eq]
    split
    next =>
      rw [Nat.cast_sub (by omega)]
      push_cast
      exact ⟨by linarith, fun _ _ => by ring⟩
    next hother =>
      rw [Nat.cast_sub (by omega)]
      push_cast
      exact ⟨by linarith, fun h h' => absurd ⟨h, h'⟩ hother⟩
  rw [Covers, hscale, hscale, hhigh] at h
  split at h
  next hclosed =>
    have heven : m % 2 = 0 := of_decide_eq_true hclosed
    rw [← le_div_iff₀ hunit, ← div_le_iff₀ hunit] at h
    exact ⟨⟨hlow.1.trans h.1, h.2, fun _ => heven⟩, fun h₁ h₂ => (hlow.2 h₁ h₂).symm.le.trans h.1⟩
  next =>
    rw [← lt_div_iff₀ hunit, ← div_lt_iff₀ hunit] at h
    refine ⟨⟨hlow.1.trans h.1.le, h.2.le, ?_⟩, fun h₁ h₂ => (hlow.2 h₁ h₂).symm.le.trans h.1.le⟩
    rintro (heq | heq)
    · exact absurd (hlow.1.trans_lt h.1) (by rw [heq]; exact lt_irrefl _)
    · exact absurd h.2 (by rw [heq]; exact lt_irrefl _)

/-- The significand that a number in the interval is shortened to.  It is that of the
single, unless the number lies below a power of two. -/
theorem Covers.exists_nearest (hm : Canonical .binary32 m e) (hlow : 2 ^ (g + 52) ≤ v)
    (hhigh : v < 2 ^ (g + 53)) (h : Covers (.of .binary32 m e) e v) :
    g + 29 ≤ e ∧ ∃ n : ℕ, Nearest n (v / 2 ^ max (g + 29) (-149)) ∧ 0 < n ∧ n ≤ 2 ^ 24
      ∧ (n : ℚ) * 2 ^ max (g + 29) (-149) = m * 2 ^ e := by
  obtain ⟨hnearest, hquarter⟩ := h.bounds hm.pos
  have hlt : m < 2 ^ 24 := hm.lt
  have hleast : -149 ≤ e := hm.least
  have hfull : 2 ^ 23 ≤ m ∨ e = -149 := hm.full
  have hunit : (0 : ℚ) < 2 ^ e := by positivity
  have hupper : v ≤ (m + 1 / 2) * 2 ^ e := (div_le_iff₀ hunit).1 hnearest.high
  have hlower : (m - 1 / 2) * 2 ^ e ≤ v := (le_div_iff₀ hunit).1 hnearest.low
  -- the number is below the next power of two
  have hbelow : g + 29 ≤ e := by
    have : (2 : ℚ) ^ (g + 52) < 2 ^ (e + 24) := by
      calc _ ≤ v := hlow
        _ ≤ (m + 1 / 2) * 2 ^ e := hupper
        _ < 2 ^ (24 : ℤ) * 2 ^ e := by
          refine mul_lt_mul_of_pos_right ?_ hunit
          have : (m : ℚ) + 1 ≤ 2 ^ (24 : ℤ) := by exact_mod_cast hlt
          linarith
        _ = _ := by rw [← zpow_add₀ (by norm_num), add_comm]
    have := (zpow_lt_zpow_iff_right₀ (one_lt_two : (1 : ℚ) < 2)).1 this
    omega
  refine ⟨hbelow, ?_⟩
  rcases eq_or_ne (max (g + 29) (-149)) e with heq | hne
  · rw [heq]
    exact ⟨m, hnearest, hm.pos, hlt.le, rfl⟩
  · have hnormal : -149 < e := by omega
    have hfull' : 2 ^ 23 ≤ m := hfull.resolve_right (by omega)
    have hsmall : v < 2 ^ (23 : ℤ) * 2 ^ e := by
      rw [← zpow_add₀ (by norm_num)]
      refine hhigh.trans_le (zpow_le_zpow_right₀ one_le_two ?_)
      omega
    obtain rfl : m = 2 ^ 23 := by
      have hcast : (m : ℚ) - 1 / 2 < 2 ^ 23 := by
        refine lt_of_mul_lt_mul_right (hlower.trans_lt ?_) hunit.le
        exact_mod_cast hsmall
      have : m < 2 ^ 23 + 1 := by
        have : (m : ℚ) < (2 ^ 23 + 1 : ℕ) := by push_cast; linarith
        exact_mod_cast this
      omega
    have hquarter' := (le_div_iff₀ hunit).1 (hquarter rfl hnormal)
    push_cast at hquarter'
    -- one binade below, so the unit is half as large
    have htarget : max (g + 29) (-149) = e - 1 := by
      have : (2 : ℚ) ^ (e + 22) < 2 ^ (g + 53) := by
        calc (2 : ℚ) ^ (e + 22) = 2 ^ 22 * 2 ^ e := by
              rw [zpow_add₀ (by norm_num), mul_comm]
              norm_num
          _ ≤ (2 ^ 23 - 1 / 4) * 2 ^ e := mul_le_mul_of_nonneg_right (by norm_num) hunit.le
          _ ≤ v := hquarter'
          _ < _ := hhigh
      have := (zpow_lt_zpow_iff_right₀ (one_lt_two : (1 : ℚ) < 2)).1 this
      omega
    have hhalf : (2 : ℚ) ^ e = 2 * 2 ^ (e - 1) := by
      rw [zpow_sub_one₀ (by norm_num)]
      ring
    have hhalfpos : (0 : ℚ) < 2 ^ (e - 1) := by positivity
    rw [htarget]
    rw [hhalf] at hquarter' hsmall ⊢
    refine ⟨2 ^ 24, ⟨?_, ?_, fun _ => rfl⟩, by decide, le_rfl, ?_⟩
    · rw [le_div_iff₀ hhalfpos]
      push_cast
      linarith
    · rw [div_le_iff₀ hhalfpos]
      push_cast
      have : (2 : ℚ) ^ (23 : ℤ) = 2 ^ 23 := by norm_num
      rw [this] at hsmall
      linarith
    · push_cast
      ring

/-! ## The single that is built -/

theorem fits_single {s : Sign} (h : Canonical .binary32 m e) (he : e ≤ 104) :
    Fits .binary32 (.finite s m e h.pos) :=
  ⟨h, by show e + 24 ≤ 128; omega⟩

theorem value_toFloat32 {n : UInt64} (hn : n.toNat ≤ 2 ^ 24) :
    n.toFloat32.isFinite = true ∧ Singles.valueOf n.toFloat32 = n.toNat := by
  have h := yields_normalize (by decide : 1 < Format.binary32.exponentBits) n.toNat 0 .positive
  rw [zpow_zero, mul_one] at h
  have h' : Yields .binary32 n.toNat n.toFloat32.toModel.unpack := by exact_mod_cast h
  obtain ⟨hfits, hvalue⟩ := h'.exact (.natCast hn (by decide) (by decide))
  exact ⟨hfits.isFinite, hvalue⟩

/-- The powers of two by their bits. -/
theorem powerAt_eq : ∀ place : Fin 254, (powerAt (UInt64.ofNat place)).toModel
    = Float32.Model.pack (if place < 23 then .finite .positive (2 ^ place.val) (-149) (Nat.two_pow_pos _)
      else .finite .positive (2 ^ 23) (place.val - 172 : ℤ) (Nat.two_pow_pos _)) := by
  decide +kernel

/-- A place gives a power of two, counted from the least one that a single has. -/
theorem value_powerAt {place : UInt64} (hplace : place.toNat < 254) :
    (powerAt place).isFinite = true
      ∧ Singles.valueOf (powerAt place) = 2 ^ ((place.toNat : ℤ) - 149) := by
  have heq := powerAt_eq ⟨place.toNat, hplace⟩
  rw [UInt64.ofNat_toNat] at heq
  show (powerAt place).toModel.unpack.isFinite = true ∧ value (powerAt place).toModel.unpack = _
  rcases Nat.lt_or_ge place.toNat 23 with hlt | hge
  · rw [if_pos (show (⟨place.toNat, hplace⟩ : Fin 254) < 23 from hlt)] at heq
    have hcanonical : Canonical .binary32 (2 ^ place.toNat) (-149) :=
      ⟨Nat.two_pow_pos _, Nat.pow_lt_pow_right (by decide) (by show _ < 24; omega), le_rfl, .inr rfl⟩
    have hread : (powerAt place).toModel.unpack
        = .finite .positive (2 ^ place.toNat) (-149) hcanonical.pos := by
      rw [heq]
      exact (fits_single hcanonical (by decide)).stored
    rw [hread, value_finite, withSign, zpow_sub₀ (by norm_num), zpow_neg, zpow_natCast]
    exact ⟨rfl, by push_cast; rfl⟩
  · rw [if_neg (show ¬(⟨place.toNat, hplace⟩ : Fin 254) < 23 from not_lt.2 hge)] at heq
    have hcanonical : Canonical .binary32 (2 ^ 23) ((place.toNat : ℤ) - 172) :=
      ⟨Nat.two_pow_pos _, by decide, by show (-149 : ℤ) ≤ _; omega, .inl le_rfl⟩
    have hread : (powerAt place).toModel.unpack
        = .finite .positive (2 ^ 23) (place.toNat - 172) hcanonical.pos := by
      rw [heq]
      exact (fits_single hcanonical (by omega)).stored
    rw [hread, value_finite, withSign,
      (by ring : (place.toNat : ℤ) - 149 = 23 + (place.toNat - 172)), zpow_add₀ (by norm_num)]
    exact ⟨rfl, by norm_num⟩

/-! ## The bits of a double -/

theorem toNat_exponent (bits : UInt64) : (bits >>> 52 &&& 0x7ff).toNat
    = (@unpackExponent .binary64 bits.toBitVec).toNat := by
  rw [Bits.toNat_unpackExponent, UInt64.toNat_and, UInt64.toNat_shiftRight,
    Nat.shiftRight_eq_div_pow]
  exact Nat.and_two_pow_sub_one_eq_mod _ 11

theorem toNat_fraction (bits : UInt64) : (bits &&& 0xfffffffffffff).toNat
    = (@unpackMantissa .binary64 bits.toBitVec).toNat := by
  rw [Bits.toNat_unpackMantissa, UInt64.toNat_and]
  exact Nat.and_two_pow_sub_one_eq_mod _ 52

theorem toNat_significand (bits : UInt64) : (bits &&& 0xfffffffffffff ||| 0x10000000000000).toNat
    = 2 ^ 52 + (@unpackMantissa .binary64 bits.toBitVec).toNat := by
  have hlt : (@unpackMantissa .binary64 bits.toBitVec).toNat < 2 ^ 52 := BitVec.isLt _
  rw [UInt64.toNat_or, toNat_fraction, Nat.or_comm]
  exact (Nat.two_pow_add_eq_or_of_lt hlt 1).symm

/-- A single with a sign. -/
def signed : Sign → Float32 → Float32
  | .positive, x => x
  | .negative, x => -x

/-- The sign of a double is handed on. -/
theorem ite_sign_eq (bits : UInt64) (x : Float32) : (if bits >>> 63 = 0 then x else -x)
    = signed (.ofBitVec (@unpackSign .binary64 bits.toBitVec)) x := by
  have hbit : (bits >>> 63).toNat = (@unpackSign .binary64 bits.toBitVec).toNat := by
    rw [Bits.toNat_unpackSign, UInt64.toNat_shiftRight, Nat.shiftRight_eq_div_pow]
    rfl
  rw [Sign.ofBitVec]
  by_cases hzero : @unpackSign .binary64 bits.toBitVec = 0#1
  · rw [if_pos hzero, if_pos (by rw [← UInt64.toNat_inj, hbit, hzero]; rfl)]
    rfl
  · rw [if_neg hzero, if_neg]
    · rfl
    · intro h
      rw [h] at hbit
      exact hzero (BitVec.eq_of_toNat_eq hbit.symm)

/-- A normal double in the range of the singles is cut at the unit of its target. -/
theorem narrow_eq_product {a : Float} {s : Sign} {p : ℕ} {pos : 0 < p}
    (ha : a.toModel.unpack = .finite s p g pos) (hfull : 2 ^ 52 ≤ p) (hlow : -202 ≤ g)
    (hhigh : g ≤ 75) :
    ∃ d place : UInt64, g + d.toNat = max (g + 29) (-149)
      ∧ (place.toNat : ℤ) = max (g + 29) (-149) + 149
      ∧ narrow a = signed s ((roundedShift p.toUInt64 d).toFloat32 * powerAt place) := by
  have hkind := @Bits.unpacks .binary64 a.toModel.toBits.toBitVec
  change Bits.Unpacks _ a.toModel.unpack at hkind
  rw [ha] at hkind
  cases hkind with
  | subnormal _ _ _ hm =>
    have hlt : (@unpackMantissa .binary64 a.toModel.toBits.toBitVec).toNat < 2 ^ 52 := BitVec.isLt _
    omega
  | normal _ hs _ _ hm he =>
    have hsignificand : p.toUInt64 = a.toBits &&& 0xfffffffffffff ||| 0x10000000000000 := by
      have hlt : (@unpackMantissa .binary64 a.toModel.toBits.toBitVec).toNat < 2 ^ 52 := BitVec.isLt _
      rw [← UInt64.toNat_inj, toNat_significand]
      show p % 2 ^ 64 = _
      rw [hm]
      exact Nat.mod_eq_of_lt (by show 2 ^ 52 + _ < _; omega)
    have hexponent : ((a.toBits >>> 52 &&& 0x7ff).toNat : ℤ) = g + 1075 := by
      rw [toNat_exponent, he]
      show _ = _ - ((1023 + 52 : ℕ) : ℤ) + 1075
      push_cast
      ring_nf
      rfl
    rw [narrow, ite_sign_eq, ← hsignificand]
    generalize a.toBits >>> 52 &&& 0x7ff = exponent at hexponent
    have h₁ : ¬exponent = 0x7ff := by
      rw [← UInt64.toNat_inj]
      show ¬exponent.toNat = 2047
      omega
    have h₂ : ¬1150 < exponent := by
      rw [UInt64.lt_iff_toNat_lt]
      show ¬1150 < exponent.toNat
      omega
    have h₃ : ¬exponent < 873 := by
      rw [UInt64.lt_iff_toNat_lt]
      show ¬exponent.toNat < 873
      omega
    simp only [if_neg h₁, if_neg h₂, if_neg h₃]
    have hdropped : g + (if exponent < 897 then 926 - exponent else 29).toNat
        = max (g + 29) (-149) := by
      have hsplit : exponent < 897 ↔ exponent.toNat < 897 := UInt64.lt_iff_toNat_lt
      split
      next hlt =>
        have hlt' := hsplit.1 hlt
        have hle : exponent ≤ 926 := by
          rw [UInt64.le_iff_toNat_le]
          show exponent.toNat ≤ 926
          omega
        rw [UInt64.toNat_sub_of_le _ _ hle]
        show g + (926 - exponent.toNat : ℕ) = _
        omega
      next hge =>
        have hge' := mt hsplit.2 hge
        show g + (29 : ℕ) = _
        omega
    refine ⟨_, _, hdropped, ?_, by rw [hs]; rfl⟩
    generalize (if exponent < 897 then 926 - exponent else 29 : UInt64) = d at hdropped
    have hsum : (exponent + d).toNat = exponent.toNat + d.toNat := by
      rw [UInt64.toNat_add, Nat.mod_eq_of_lt (by omega)]
    have hle : 926 ≤ exponent + d := by
      rw [UInt64.le_iff_toNat_le, hsum]
      show 926 ≤ _
      omega
    rw [UInt64.toNat_sub_of_le _ _ hle, hsum]
    show ((exponent.toNat + d.toNat - 926 : ℕ) : ℤ) = _
    omega

/-! ## Narrowing -/

/-- A product that a single has is that single. -/
theorem unpack_product {x y : Float32} (hx : x.isFinite = true) (hy : y.isFinite = true)
    (hm : Canonical .binary32 m e) (he : e ≤ 104)
    (hvalue : Singles.valueOf x * Singles.valueOf y = m * 2 ^ e) :
    (x * y).toModel.unpack = .finite .positive m e hm.pos := by
  have hyields := Singles.yields_mul hx hy
  rw [hvalue] at hyields
  exact hyields.eq_of_fits (fits_single (s := .positive) hm he)

/-- A sign given to a positive single changes nothing else of it. -/
theorem unpack_signed {s : Sign} {x : Float32} (hm : Canonical .binary32 m e) (he : e ≤ 104)
    (hx : x.toModel.unpack = .finite .positive m e hm.pos) :
    (signed s x).toModel.unpack = .finite s m e hm.pos := by
  cases s with
  | positive => exact hx
  | negative =>
    show stored .binary32 x.toModel.unpack.neg = _
    rw [hx]
    exact (fits_single (s := .negative) hm he).stored

/-- The doubles in the rounding interval of a single are narrowed to it. -/
theorem narrow_eq {a : Float} {b : Float32} {s : Sign} {p : ℕ} {hp : 0 < p} {pos : 0 < m}
    (ha : a.toModel.unpack = .finite s p g hp) (hfull : 2 ^ 52 ≤ p)
    (hb : b.toModel.unpack = .finite s m e pos)
    (hcovers : Covers (.of .binary32 m e) e (p * 2 ^ g)) : narrow a = b := by
  obtain ⟨hlt, hdigits, hleast, hgreatest⟩ := Singles.finite_bounds hb
  have hm : Canonical .binary32 m e := ⟨pos, hlt, hleast, hdigits⟩
  have hp' := (Doubles.bounds ha).1
  have hgpos : (0 : ℚ) < 2 ^ g := by positivity
  have hlow : (2 : ℚ) ^ (g + 52) ≤ p * 2 ^ g := by
    rw [zpow_add₀ (by norm_num), mul_comm]
    exact mul_le_mul_of_nonneg_right (by exact_mod_cast hfull) hgpos.le
  have hhigh : (p * 2 ^ g : ℚ) < 2 ^ (g + 53) := by
    rw [zpow_add₀ (by norm_num), mul_comm ((2 : ℚ) ^ g)]
    exact mul_lt_mul_of_pos_right (by exact_mod_cast hp') hgpos
  obtain ⟨hbelow, n, hnearest, hn, hfits, hvalue⟩ := hcovers.exists_nearest hm hlow hhigh
  have hrange : -202 ≤ g := by
    have hunit : (2 : ℚ) ^ (-149 : ℤ) ≤ 2 ^ max (g + 29) (-149) :=
      zpow_le_zpow_right₀ one_le_two (le_max_right _ _)
    have hhalf : (1 : ℚ) / 2 ≤ n - 1 / 2 := by
      have : (1 : ℚ) ≤ n := by exact_mod_cast hn
      linarith
    have : (2 : ℚ) ^ (-150 : ℤ) < 2 ^ (g + 53) := by
      calc (2 : ℚ) ^ (-150 : ℤ) = 1 / 2 * 2 ^ (-149 : ℤ) := by norm_num
        _ ≤ (n - 1 / 2) * 2 ^ max (g + 29) (-149) := by
          refine mul_le_mul hhalf hunit (by positivity) (by linarith)
        _ ≤ p * 2 ^ g := (le_div_iff₀ (by positivity)).1 hnearest.low
        _ < _ := hhigh
    have := (zpow_lt_zpow_iff_right₀ (one_lt_two : (1 : ℚ) < 2)).1 this
    omega
  obtain ⟨d, place, hd, hplace, hnarrow⟩ := narrow_eq_product ha hfull hrange (by omega)
  have hsignificand : p.toUInt64.toNat = p := Nat.mod_eq_of_lt (by omega)
  have hkept : (roundedShift p.toUInt64 d).toNat = n := by
    have hquotient : (p * 2 ^ g / 2 ^ max (g + 29) (-149) : ℚ) = p / 2 ^ d.toNat := by
      rw [← hd, zpow_add₀ (by norm_num), zpow_natCast]
      field_simp
    rw [hquotient] at hnearest
    refine (toNat_roundedShift (by omega) (by omega) (by omega)).eq ?_
    rwa [hsignificand]
  refine Bits.eq_of_unpack_eq ?_
  rw [hnarrow, hb]
  obtain ⟨hfinite, hsize⟩ := value_toFloat32 (n := roundedShift p.toUInt64 d) (by rwa [hkept])
  obtain ⟨hfinite', hunit⟩ := value_powerAt (by omega : place.toNat < 254)
  refine unpack_signed hm hgreatest (unpack_product hfinite hfinite' hm hgreatest ?_)
  rw [hsize, hunit, hkept, hplace, add_sub_cancel_right]
  exact hvalue

end Narrowing

end Denoise
