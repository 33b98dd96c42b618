import Mathlib
import StoryScript.Numeral.Binary

/-! Numbers that a binary format holds. A number is read from its pattern and written as that
pattern again, whatever fraction it is given as, so a single that is widened to a double and
narrowed again is the same single. -/
namespace StoryScript.Numeral

/-- The weight of the leading bit in a significand. -/
def Format.unit (f : Format) : Nat := 2 ^ (f.precision - 1)

def Format.sign (f : Format) (negative : Bool) : Nat := if negative then f.signBit else 0

/-- The pattern of a magnitude `m * 2 ^ e`. Only at the lowest exponent may the leading bit of the
significand be missing. -/
inductive Format.Writes (f : Format) : Nat → Nat → Int → Prop
  | subnormal {m : Nat} : m < f.unit → Writes f m m f.lowest
  | normal {r : Nat} (k : Nat) : r < f.unit →
    Writes f (f.unit * (k + 1) + r) (r + f.unit) (f.lowest + k)

variable {f : Format} {b m n num den : Nat} {e : Int} {negative : Bool}

theorem Format.unit_pos (f : Format) : 0 < f.unit := Nat.two_pow_pos _

/-! ### Patterns -/

theorem infinity_lt_signBit (hf : 0 < f.precision) : f.infinity < f.signBit := by
  have hsign : f.signBit = 2 ^ f.exponentBits * f.unit := by
    rw [Format.signBit, Format.unit, Nat.pow_eq, ← pow_add]
    congr 1
    omega
  rw [hsign]
  apply Nat.mul_lt_mul_of_pos_right
  · exact Nat.sub_lt (Nat.two_pow_pos _) one_pos
  · exact f.unit_pos

/-- A pattern is a magnitude with a sign. -/
theorem eq_add_sign (hb : b < 2 * f.signBit) :
    b = b % f.signBit + f.sign (decide (f.signBit ≤ b)) := by
  unfold Format.sign
  by_cases h : f.signBit ≤ b
  · rw [if_pos (decide_eq_true h), Nat.mod_eq_sub_mod h, Nat.mod_eq_of_lt (by omega)]
    omega
  · rw [if_neg (by simpa using h), Nat.mod_eq_of_lt (by omega), Nat.add_zero]

theorem magnitude_add_sign (negative : Bool) (h : b < f.signBit) :
    (b + f.sign negative) % f.signBit = b ∧
      (f.signBit ≤ b + f.sign negative ↔ negative = true) := by
  cases negative
  · simp [Format.sign, Nat.mod_eq_of_lt h, h]
  · simp [Format.sign, Nat.mod_eq_of_lt h]

theorem decode_eq (f : Format) (b : Nat) : decode f b =
    if b % f.signBit = f.infinity then .infinite (decide (f.signBit ≤ b))
    else if f.infinity < b % f.signBit then .nan
    else match b % f.signBit / f.unit with
      | 0 => .finite (decide (f.signBit ≤ b)) (b % f.signBit % f.unit) f.lowest
      | k + 1 =>
        .finite (decide (f.signBit ≤ b)) (b % f.signBit % f.unit + f.unit) (f.lowest + k) :=
  rfl

theorem decode_infinity (hf : 0 < f.precision) (negative : Bool) :
    decode f (f.infinity + f.sign negative) = .infinite negative := by
  obtain ⟨hmod, hsign⟩ := magnitude_add_sign negative (infinity_lt_signBit hf)
  simp [decode_eq, hmod, hsign]

theorem Format.Writes.decode (hf : 0 < f.precision) (h : f.Writes b m e) (hb : b < f.infinity) :
    decode f (b + f.sign negative) = .finite negative m e := by
  obtain ⟨hmod, hsign⟩ := magnitude_add_sign negative (hb.trans (infinity_lt_signBit hf))
  rw [decode_eq, hmod, if_neg hb.ne, if_neg hb.not_gt]
  simp only [hsign, Bool.decide_eq_true]
  cases h with
  | subnormal h => rw [Nat.div_eq_of_lt h, Nat.mod_eq_of_lt h]
  | normal k h =>
    rw [Nat.mul_add_div f.unit_pos, Nat.div_eq_of_lt h, Nat.mul_add_mod, Nat.mod_eq_of_lt h]

theorem lt_of_decode_nan (h : decode f b = .nan) : f.infinity < b % f.signBit := by
  rw [decode_eq] at h
  split at h
  · cases h
  · split at h
    · assumption
    · split at h <;> cases h

theorem eq_of_decode_infinite (hb : b < 2 * f.signBit) (h : decode f b = .infinite negative) :
    b = f.infinity + f.sign negative := by
  have hsplit := eq_add_sign hb
  rw [decode_eq] at h
  split at h
  · next hinf =>
    cases h
    rw [hinf] at hsplit
    exact hsplit
  · split at h
    · cases h
    · split at h <;> cases h

/-- A pattern that is read as a number is the pattern of that number. -/
theorem writes_of_decode {bits : Nat} (hbits : bits < 2 * f.signBit)
    (h : decode f bits = .finite negative m e) :
    ∃ b < f.infinity, f.Writes b m e ∧ bits = b + f.sign negative := by
  have hsplit := eq_add_sign hbits
  have hdiv := Nat.div_add_mod (bits % f.signBit) f.unit
  have hrest := Nat.mod_lt (bits % f.signBit) f.unit_pos
  refine ⟨bits % f.signBit, ?_⟩
  rw [decode_eq] at h
  split at h
  · cases h
  · split at h
    · cases h
    · refine ⟨by omega, ?_⟩
      split at h
      · next hzero =>
        cases h
        rw [hzero, Nat.mul_zero, Nat.zero_add] at hdiv
        refine ⟨?_, hsplit⟩
        rw [hdiv]
        exact .subnormal (hdiv ▸ hrest)
      · next k hk =>
        cases h
        rw [hk] at hdiv
        refine ⟨?_, hsplit⟩
        nth_rewrite 1 [← hdiv]
        exact .normal k hrest

/-! ### Rounding -/

theorem scaled_pos (hd : 0 < den) : 0 < (scaled num den e).2 := by
  unfold scaled
  split
  · exact Nat.mul_pos hd (Nat.two_pow_pos _)
  · exact hd

/-- A scaled fraction is the fraction divided by the power of two. -/
theorem scaled_eq (num den : Nat) (e : Int) :
    ((scaled num den e).1 : ℚ) / (scaled num den e).2 = num / den / 2 ^ e := by
  unfold scaled
  split
  · next he =>
    obtain ⟨k, rfl⟩ := Int.eq_ofNat_of_zero_le he
    simp [div_div]
  · next he =>
    obtain ⟨k, hk⟩ := Int.eq_ofNat_of_zero_le (a := -e) (by omega)
    have he : e = -k := by omega
    subst he
    simp
    ring

theorem divEven_exact {q : Nat} (hd : 0 < den) (h : num = q * den) : divEven num den = q := by
  subst h
  simp [divEven, Nat.mul_div_cancel _ hd]
  omega

theorem two_zpow_pos (e : Int) : (0 : ℚ) < 2 ^ e := zpow_pos two_pos e

/-- A fraction lies between the powers of two that the lengths of its parts suggest. -/
theorem fraction_bounds (hn : 0 < num) (hd : 0 < den) :
    (2 : ℚ) ^ ((num.log2 : Int) - den.log2 - 1) ≤ num / den ∧
      (num : ℚ) / den < 2 ^ ((num.log2 : Int) - den.log2 + 1) := by
  have hnlow : (2 : ℚ) ^ num.log2 ≤ num := mod_cast Nat.log2_self_le hn.ne'
  have hnhigh : (num : ℚ) < 2 ^ (num.log2 + 1) := mod_cast Nat.lt_log2_self
  have hdlow : (2 : ℚ) ^ den.log2 ≤ den := mod_cast Nat.log2_self_le hd.ne'
  have hdhigh : (den : ℚ) < 2 ^ (den.log2 + 1) := mod_cast Nat.lt_log2_self
  have hpos : (0 : ℚ) < den := mod_cast hd
  constructor
  · rw [le_div_iff₀ hpos]
    calc (2 : ℚ) ^ ((num.log2 : Int) - den.log2 - 1) * den
        ≤ 2 ^ ((num.log2 : Int) - den.log2 - 1) * 2 ^ (den.log2 + 1) := by gcongr
      _ = 2 ^ num.log2 := by
        rw [← zpow_natCast, ← zpow_natCast, ← zpow_add₀ two_ne_zero]
        congr 1
        push_cast
        ring
      _ ≤ num := hnlow
  · rw [div_lt_iff₀ hpos]
    calc (num : ℚ) < 2 ^ (num.log2 + 1) := hnhigh
      _ = 2 ^ ((num.log2 : Int) - den.log2 + 1) * 2 ^ den.log2 := by
        rw [← zpow_natCast, ← zpow_natCast, ← zpow_add₀ two_ne_zero]
        congr 1
        push_cast
        ring
      _ ≤ 2 ^ ((num.log2 : Int) - den.log2 + 1) * den := by gcongr

/-- The last exponent belongs to the greatest power of two that a fraction reaches. -/
theorem lastExponent_eq {t : Int} (hn : 0 < num) (hd : 0 < den) (hlow : (2 : ℚ) ^ t ≤ num / den)
    (hhigh : (num : ℚ) / den < 2 ^ (t + 1)) :
    lastExponent f num den = max f.lowest (t - (f.precision - 1)) := by
  obtain ⟨hfrom, hto⟩ := fraction_bounds hn hd
  have hreach : (scaled num den ((num.log2 : Int) - den.log2)).2 ≤
      (scaled num den ((num.log2 : Int) - den.log2)).1 ↔
        (2 : ℚ) ^ ((num.log2 : Int) - den.log2) ≤ num / den := by
    have hpos : (0 : ℚ) < (scaled num den ((num.log2 : Int) - den.log2)).2 :=
      mod_cast scaled_pos hd
    rw [← one_le_div₀ (two_zpow_pos _), ← scaled_eq, one_le_div₀ hpos, Nat.cast_le]
  unfold lastExponent
  dsimp only
  congr 2
  split
  · next h =>
    have hle := (zpow_lt_zpow_iff_right₀ one_lt_two).1 ((hreach.1 h).trans_lt hhigh)
    have hge := (zpow_lt_zpow_iff_right₀ one_lt_two).1 (hlow.trans_lt hto)
    omega
  · next h =>
    have hle := (zpow_lt_zpow_iff_right₀ one_lt_two).1 (hfrom.trans_lt hhigh)
    have hge := (zpow_lt_zpow_iff_right₀ one_lt_two).1
      (hlow.trans_lt (lt_of_not_ge (mt hreach.2 h)))
    omega

/-- A number that the format holds is rounded to its own pattern. -/
theorem Format.Writes.nearestMagnitude (hf : 0 < f.precision) (h : f.Writes b m e) (hm : 0 < m)
    (hd : 0 < den) (hq : (num : ℚ) / den = m * 2 ^ e) :
    nearestMagnitude f num den = min f.infinity b := by
  have hn : 0 < num := by
    rcases Nat.eq_zero_or_pos num with rfl | hn
    · have hpos := mul_pos (Nat.cast_pos.2 hm) (two_zpow_pos e)
      rw [← hq] at hpos
      simp at hpos
    · exact hn
  have hlow : (2 : ℚ) ^ (m.log2 + e) ≤ num / den := by
    rw [hq, zpow_add₀ two_ne_zero, zpow_natCast]
    gcongr
    exact_mod_cast Nat.log2_self_le hm.ne'
  have hhigh : (num : ℚ) / den < 2 ^ (m.log2 + e + 1) := by
    rw [hq, add_right_comm, zpow_add₀ two_ne_zero]
    gcongr
    exact_mod_cast Nat.lt_log2_self (n := m)
  have hlast : lastExponent f num den = e := by
    rw [lastExponent_eq hn hd hlow hhigh]
    cases h with
    | subnormal h =>
      have hlog := (Nat.log2_lt hm.ne').2 h
      omega
    | @normal r k h =>
      have hlog : (r + f.unit).log2 = f.precision - 1 := by
        rw [Nat.log2_eq_iff hm.ne']
        unfold Format.unit at *
        omega
      omega
  have hexact : (scaled num den e).1 = m * (scaled num den e).2 := by
    have hpos : (0 : ℚ) < (scaled num den e).2 := mod_cast scaled_pos hd
    have h := scaled_eq num den e
    rw [hq, mul_div_cancel_right₀ _ (two_zpow_pos e).ne', div_eq_iff hpos.ne'] at h
    exact_mod_cast h
  unfold Numeral.nearestMagnitude
  dsimp only
  rw [if_neg hn.ne', hlast, divEven_exact (scaled_pos hd) hexact]
  congr 1
  cases h with
  | subnormal h => simp
  | @normal r k h =>
    have hk : (f.lowest + k - f.lowest).toNat = k := by omega
    rw [hk, Nat.pow_eq, ← Format.unit]
    ring

/-- A number is written through some fraction that is equal to it. -/
theorem encode_finite (f : Format) (negative : Bool) (n : Nat) (k : Int) :
    ∃ num den : Nat, 0 < den ∧ (num : ℚ) / den = n * 2 ^ k ∧
      (Decoded.finite negative n k).encode f = nearestMagnitude f num den + f.sign negative := by
  simp only [Decoded.encode]
  split
  · next hk =>
    obtain ⟨j, rfl⟩ := Int.eq_ofNat_of_zero_le hk
    exact ⟨n * 2 ^ j, 1, one_pos, by simp, rfl⟩
  · next hk =>
    obtain ⟨j, hj⟩ := Int.eq_ofNat_of_zero_le (a := -k) (by omega)
    have hk : k = -j := by omega
    subst hk
    exact ⟨n, 2 ^ j, Nat.two_pow_pos j, by simp [div_eq_mul_inv], by simp [nearest, Format.sign]⟩

theorem Format.Writes.encode {k : Int} (hf : 0 < f.precision) (h : f.Writes b m e)
    (hb : b < f.infinity) (hq : (n : ℚ) * 2 ^ k = m * 2 ^ e) :
    (Decoded.finite negative n k).encode f = b + f.sign negative := by
  obtain ⟨num, den, hd, hfrac, hencode⟩ := encode_finite f negative n k
  rw [hencode]
  congr 1
  rcases Nat.eq_zero_or_pos m with rfl | hm
  · have hnum : num = 0 := by
      have hd : (den : ℚ) ≠ 0 := mod_cast hd.ne'
      rw [hq, Nat.cast_zero, zero_mul, div_eq_zero_iff] at hfrac
      exact_mod_cast hfrac.resolve_right hd
    have hb : b = 0 := by
      generalize hz : 0 = z at h
      cases h with
      | subnormal => rfl
      | normal =>
        have hunit := f.unit_pos
        omega
    rw [hnum, hb]
    rfl
  · rw [h.nearestMagnitude hf hm hd (hfrac.trans hq), min_eq_right hb.le]

/-! ### Singles as doubles -/

/-- A double holds every number that a single holds. -/
theorem exists_double (h : binary32.Writes b m e) (hb : b < binary32.infinity) :
    ∃ b' n k, binary64.Writes b' n k ∧ b' < binary64.infinity ∧ (n : ℚ) * 2 ^ k = m * 2 ^ e := by
  rcases Nat.eq_zero_or_pos m with rfl | hm
  · exact ⟨0, 0, _, .subnormal binary64.unit_pos, by decide, by simp⟩
  have hlow : binary32.lowest = -149 := rfl
  have hlow' : binary64.lowest = -1074 := rfl
  have hinf : binary32.infinity = 2 ^ 23 * 255 := rfl
  have hinf' : binary64.infinity = 2 ^ 52 * 2047 := rfl
  have hunit : binary32.unit = 2 ^ 23 := rfl
  have hunit' : binary64.unit = 2 ^ 52 := rfl
  have hrange : m < 2 ^ 24 ∧ -149 ≤ e ∧ e ≤ 104 := by
    cases h <;> rw [hunit] at * <;> omega
  have hlog : m.log2 < 24 := (Nat.log2_lt hm.ne').2 hrange.1
  -- The significand is shifted until its leading bit is the first of the 53 bits of a double.
  obtain ⟨j, hj⟩ : ∃ j, m.log2 + j = 52 := ⟨52 - m.log2, by omega⟩
  have hfrom : 2 ^ 52 ≤ m * 2 ^ j := by
    rw [← hj, pow_add]
    exact Nat.mul_le_mul_right _ (Nat.log2_self_le hm.ne')
  have hto : m * 2 ^ j < 2 ^ 53 := by
    rw [show 53 = m.log2 + 1 + j by omega, pow_add]
    exact Nat.mul_lt_mul_of_pos_right Nat.lt_log2_self (Nat.two_pow_pos j)
  obtain ⟨r, hr⟩ := Nat.exists_eq_add_of_le' hfrom
  obtain ⟨k, hk⟩ := Int.eq_ofNat_of_zero_le (a := e - j + 1074) (by omega)
  refine ⟨_, _, _, .normal (r := r) k (by omega), by rw [hunit']; omega, ?_⟩
  have hexponent : binary64.lowest + k = e - j := by omega
  rw [hexponent, hunit', ← hr, zpow_sub₀ two_ne_zero, zpow_natCast]
  push_cast
  field_simp

section
open Float.Model Float.Model.UnpackedFloat

/-- The format that a model of floats is made of. -/
def Format.ofModel (s : Float.Model.Format) : Format :=
  ⟨s.mantissaBitsWithoutImplicit + 1, s.exponentBits⟩

/-- The patterns that are no numbers are those beyond infinity. -/
theorem isNaNBits_iff {s : Float.Model.Format} (b : BitVec s.numBits) :
    isNaNBits b = true ↔
      (Format.ofModel s).infinity < b.toNat % (Format.ofModel s).signBit := by
  have hsign : (Format.ofModel s).signBit =
      2 ^ s.mantissaBitsWithoutImplicit * 2 ^ s.exponentBits := by
    rw [Format.signBit, Format.ofModel, Nat.pow_eq, ← pow_add]
    congr 1
    dsimp only
    omega
  have hinf : (Format.ofModel s).infinity =
      2 ^ s.mantissaBitsWithoutImplicit * (2 ^ s.exponentBits - 1) := by
    rw [mul_comm]
    rfl
  have hrest := Nat.mod_lt b.toNat (Nat.two_pow_pos s.mantissaBitsWithoutImplicit)
  have hquot := Nat.mod_lt (b.toNat / 2 ^ s.mantissaBitsWithoutImplicit)
    (Nat.two_pow_pos s.exponentBits)
  rw [hsign, hinf, Nat.mod_mul, isNaNBits, decide_eq_true_iff, unpackExponent_def,
    unpackMantissa_def, ne_eq, ← BitVec.toNat_inj, ← BitVec.toNat_inj, BitVec.neg_one_eq_allOnes,
    BitVec.toNat_allOnes, BitVec.extractLsb'_toNat, BitVec.extractLsb'_toNat,
    Nat.shiftRight_eq_div_pow, Nat.shiftRight_zero, BitVec.toNat_zero]
  constructor
  · rintro ⟨hq, hr⟩
    rw [hq]
    omega
  · intro h
    have hle : 2 ^ s.exponentBits - 1 ≤
        b.toNat / 2 ^ s.mantissaBitsWithoutImplicit % 2 ^ s.exponentBits := by
      by_contra hlt
      have hmul := Nat.mul_le_mul_left (2 ^ s.mantissaBitsWithoutImplicit) (Nat.not_le.1 hlt)
      rw [Nat.mul_succ] at hmul
      omega
    have hq : b.toNat / 2 ^ s.mantissaBitsWithoutImplicit % 2 ^ s.exponentBits =
        2 ^ s.exponentBits - 1 := by omega
    rw [hq] at h
    exact ⟨hq, by omega⟩

/-- The pattern of a number or an infinity is kept by the double that is made of it. -/
theorem toBits_ofBits (hn : n < 2 * binary64.signBit)
    (h : n % binary64.signBit ≤ binary64.infinity) :
    (Float.ofBits (.ofNat n)).toBits.toNat = n := by
  have hmod : (UInt64.ofNat n).toNat = n := UInt64.toNat_ofNat_of_lt' hn
  have hnan : ¬@isNaNBits .binary64 (UInt64.ofNat n).toBitVec = true := by
    rw [isNaNBits_iff]
    change ¬binary64.infinity < (UInt64.ofNat n).toNat % binary64.signBit
    rw [hmod]
    exact h.not_gt
  change (pack Format.binary64 (unpack Format.binary64 (UInt64.ofNat n).toBitVec)).toNat = n
  rw [pack_unpack, if_neg hnan]
  exact hmod

/-- There is one single that is no number. -/
theorem eq_nan {x : Float32} (h : binary32.infinity < x.toBits.toNat % binary32.signBit) :
    x = .ofBits (.ofNat (quietNaN binary32)) := by
  have hnan : @isNaNBits .binary32 x.toBits.toBitVec = true := (isNaNBits_iff _).2 h
  have hvalid := pack_unpack_of_valid x.toModel.valid
  rw [pack_unpack] at hvalid
  change (if @isNaNBits .binary32 x.toBits.toBitVec = true then _ else _) = x.toBits.toBitVec
    at hvalid
  rw [if_pos hnan] at hvalid
  rw [← Float32.toBits_inj, ← UInt32.toBitVec_inj, ← hvalid]
  rfl

end

/-- A double is read from the pattern that it was made of. -/
theorem decodeFloat_ofBits (negative : Bool) (hb : b ≤ binary64.infinity) :
    decodeFloat (.ofBits (.ofNat (b + binary64.sign negative))) =
      decode binary64 (b + binary64.sign negative) := by
  have hlt : b < binary64.signBit := hb.trans_lt (infinity_lt_signBit (by decide))
  rw [decodeFloat, toBits_ofBits]
  · cases negative <;> simp [Format.sign] <;> omega
  · rw [(magnitude_add_sign negative hlt).1]
    exact hb

/-- A single that is widened to a double and narrowed again is the same single. -/
theorem narrow_widen (x : Float32) : narrow (widen x) = x := by
  have hbits : x.toBits.toNat < 2 * binary32.signBit := x.toBits.toNat_lt
  have hback : Float32.ofBits (.ofNat x.toBits.toNat) = x := by
    rw [UInt32.ofNat_toNat, Float32.ofBits_toBits]
  cases hx : decode binary32 x.toBits.toNat with
  | nan =>
    rw [eq_nan (lt_of_decode_nan hx)]
    decide
  | infinite negative =>
    have hwide : widen x = .ofBits (.ofNat (binary64.infinity + binary64.sign negative)) := by
      rw [widen, decodeFloat32, hx]
      rfl
    rw [narrow, hwide, decodeFloat_ofBits negative le_rfl, decode_infinity (by decide), ← hback,
      eq_of_decode_infinite hbits hx]
    rfl
  | finite negative m e =>
    obtain ⟨b, hb, hwrites, hsum⟩ := writes_of_decode hbits hx
    obtain ⟨b', n, k, hwrites', hb', heq⟩ := exists_double hwrites hb
    have hwide : widen x = .ofBits (.ofNat (b' + binary64.sign negative)) := by
      rw [widen, decodeFloat32, hx, Decoded.toFloat, hwrites'.encode (by decide) hb' heq.symm]
    rw [narrow, hwide, decodeFloat_ofBits negative hb'.le, hwrites'.decode (by decide) hb',
      Decoded.toFloat32, hwrites.encode (by decide) hb heq, ← hsum, hback]

end StoryScript.Numeral
