import Mathlib

/-!
# The numbers that floats stand for

A float is an exact rational number, an infinity or not a number.  Adding one
to a float that is a whole number rounds, but never across a whole number that
floats can tell from its neighbours: below `2 ^ 52` the order of the sum and of
whole numbers is that of the exact sum.
-/

set_option autoImplicit false

namespace Binary64

open Float.Model Float.Model.UnpackedFloat

/-- The rational numbers with the two infinities. -/
abbrev Extended : Type := WithBot (WithTop ℚ)

/-- A rational number among them. -/
def rational (q : ℚ) : Extended := ((q : WithTop ℚ) : WithBot (WithTop ℚ))

@[simp] theorem rational_le_rational {p q : ℚ} : rational p ≤ rational q ↔ p ≤ q := by
  simp [rational]

theorem rational_ne_top (q : ℚ) : rational q ≠ ⊤ := by
  intro h
  exact WithTop.coe_ne_top (WithBot.coe_injective h)

@[simp] theorem rational_lt_rational {p q : ℚ} : rational p < rational q ↔ p < q := by
  simp [rational]

@[simp] theorem rational_inj {p q : ℚ} : rational p = rational q ↔ p = q := by
  simp [rational]

/-- The number an unpacked float stands for. -/
def unpackedValue : UnpackedFloat → Option Extended
  | .notANumber => none
  | .infinity .negative => some ⊥
  | .infinity .positive => some ((⊤ : WithTop ℚ) : WithBot (WithTop ℚ))
  | .zero _ => some (rational 0)
  | .finite s m e _ => some (rational ((s.apply (m : Int) : ℚ) * (2 : ℚ) ^ e))

/-- The number a float stands for. -/
def value (x : Float) : Option Extended := unpackedValue x.toModel.unpack

/-- A float, packed. -/
def ofUnpacked (u : UnpackedFloat) : Float := Float.ofModel (Float.Model.pack u)

/-- A whole number, unpacked and not rounded. -/
def unpackedWhole (negative : Bool) (n : Nat) : UnpackedFloat :=
  let sign := if negative then Sign.negative else Sign.positive
  if h : n = 0 then .zero sign else .finite sign n 0 (Nat.pos_of_ne_zero h)

/-- The float nearest to a rational number: of two that are equally near, the one
with an even mantissa. -/
def nearest (q : ℚ) : Float :=
  ofUnpacked (UnpackedFloat.div .binary64 (unpackedWhole (q < 0) q.num.natAbs) (unpackedWhole false q.den))

/-! ## Packing -/

theorem unpackSign_packComponents {spec : Format} {sign : Sign} {exponent : BitVec spec.exponentBits}
    {mantissa : BitVec spec.mantissaBitsWithoutImplicit} :
    unpackSign (packComponents spec sign exponent mantissa) = sign.toBitVec := by
  ext i hi
  have hzero : i = 0 := by omega
  subst hzero
  simp [unpackSign, packComponents, BitVec.getLsbD_append, BitVec.getElem_append]

@[simp] theorem ofBitVec_toBitVec (sign : Sign) : Sign.ofBitVec sign.toBitVec = sign := by
  cases sign <;> rfl

theorem unpack_infinity (s : Sign) :
    UnpackedFloat.unpack .binary64 (UnpackedFloat.pack .binary64 (.infinity s)) = .infinity s := by
  cases s <;> rfl

theorem unpack_zero (s : Sign) :
    UnpackedFloat.unpack .binary64 (UnpackedFloat.pack .binary64 (.zero s)) = .zero s := by
  simp [UnpackedFloat.pack, packedZero, UnpackedFloat.unpack]

theorem log2_eq {m : Nat} (hlow : 2 ^ 52 ≤ m) (hhigh : m < 2 ^ 53) : m.log2 = 52 := by
  have hne : m ≠ 0 := by omega
  have hle : 52 ≤ m.log2 := (Nat.le_log2 hne).mpr hlow
  have hlt : m.log2 < 53 := (Nat.log2_lt hne).mpr hhigh
  omega

/-- A mantissa of 53 bits with an exponent in range is packed and unpacked
without loss. -/
theorem unpack_pack_normal {s : Sign} {m : Nat} {e : Int} {h : 0 < m} (hlow : 2 ^ 52 ≤ m)
    (hhigh : m < 2 ^ 53) (hmin : -1074 ≤ e) (hmax : e ≤ 971) :
    UnpackedFloat.unpack .binary64 (UnpackedFloat.pack .binary64 (.finite s m e h)) = .finite s m e h := by
  obtain ⟨b, rfl⟩ : ∃ b : Nat, e = b - 1075 := ⟨(e + 1075).toNat, by omega⟩
  have hbiased : ((b : Int) - 1075 + (Format.binary64.exponentBias : Nat) +
      (Format.binary64.mantissaBitsWithoutImplicit : Nat)).toNat = b := by
    have hbias : Format.binary64.exponentBias = 1023 := rfl
    have hbits : Format.binary64.mantissaBitsWithoutImplicit = 52 := rfl
    rw [hbias, hbits]
    omega
  have hpack : UnpackedFloat.pack .binary64 (.finite s m (b - 1075) h) =
      packComponents .binary64 s (BitVec.ofNat _ b) (BitVec.ofNat _ m) := by
    simp only [UnpackedFloat.pack, hbiased]
    rw [if_neg (by norm_num; omega), if_pos (by rw [log2_eq hlow hhigh]; rfl)]
  have hexp : (BitVec.ofNat 11 b).toNat = b := by
    rw [BitVec.toNat_ofNat]
    exact Nat.mod_eq_of_lt (by omega)
  have hones : BitVec.ofNat 11 b ≠ -1#_ := by
    intro heq
    have := congrArg BitVec.toNat heq
    rw [hexp] at this
    norm_num at this
    omega
  have hzero : BitVec.ofNat 11 b ≠ 0#_ := by
    intro heq
    have := congrArg BitVec.toNat heq
    rw [hexp] at this
    norm_num at this
    omega
  have hmantissa : (1#1 ++ BitVec.ofNat 52 m).toNat = m := by
    have hlt : m % 2 ^ 52 < 2 ^ 52 := Nat.mod_lt m (by norm_num)
    rw [BitVec.toNat_append, BitVec.toNat_ofNat, BitVec.toNat_ofNat,
      ← Nat.shiftLeft_add_eq_or_of_lt hlt, Nat.shiftLeft_eq]
    omega
  rw [hpack, UnpackedFloat.unpack]
  simp only [unpackExponent_packComponents, unpackMantissa_packComponents, unpackSign_packComponents,
    ofBitVec_toBitVec]
  rw [if_neg hones, if_neg hzero]
  congr 1
  rw [hexp]
  rfl

theorem packComponents_unpack (b : BitVec Format.binary64.numBits) :
    packComponents .binary64 (Sign.ofBitVec (unpackSign b)) (unpackExponent b) (unpackMantissa b) = b := by
  have hsign : (Sign.ofBitVec (unpackSign b)).toBitVec = unpackSign b := by
    rcases BitVec.eq_zero_or_eq_one (unpackSign b) with h | h <;> rw [h] <;> rfl
  rw [packComponents, hsign]
  refine BitVec.eq_of_getLsbD_eq fun i hi => ?_
  simp only [BitVec.getLsbD_append, unpackMantissa, unpackExponent, unpackSign, BitVec.getLsbD_cast,
    BitVec.getLsbD_extractLsb]
  have hlt : i < 64 := hi
  split
  · rename_i h
    simp only [Nat.zero_add, show i < 52 - 1 - 0 + 1 by omega, decide_true, Bool.true_and]
  · split
    · rename_i h h'
      simp only [show i - 52 < 52 + 11 - 1 - 52 + 1 by omega, decide_true, Bool.true_and,
        show 52 + (i - 52) = i by omega]
    · rename_i h h'
      simp only [show i - 52 - 11 < 52 + 11 - (52 + 11) + 1 by omega, decide_true, Bool.true_and,
        show 52 + 11 + (i - 52 - 11) = i by omega]

theorem finite_congr {s : Sign} {m m' : Nat} {e e' : Int} {h : 0 < m} {h' : 0 < m'} (hm : m = m') (he : e = e') :
    UnpackedFloat.finite s m e h = .finite s m' e' h' := by
  subst hm he
  rfl

/-- The bits of a float are those it was read from. -/
theorem pack_unpack {b : BitVec Format.binary64.numBits} (h : Format.binary64.Valid b) :
    UnpackedFloat.pack .binary64 (UnpackedFloat.unpack .binary64 b) = b := by
  have hb := packComponents_unpack b
  have hbias : Format.binary64.exponentBias = 1023 := rfl
  rw [UnpackedFloat.unpack]
  simp only
  split
  · rename_i hones
    split
    · rename_i hmantissa
      rw [hones, hmantissa] at hb
      exact hb
    · rename_i hmantissa
      exact (h.eq_packedNaN hones hmantissa).symm
  · rename_i hones
    split
    · rename_i hzero
      split
      · rename_i hmantissa
        rw [hzero, hmantissa] at hb
        exact hb
      · rename_i hmantissa
        have hlt : (unpackMantissa b).toNat < 2 ^ 52 := (unpackMantissa b).isLt
        have hpos : (unpackMantissa b).toNat ≠ 0 := by
          simpa [BitVec.toNat_eq] using hmantissa
        have hlog : (unpackMantissa b).toNat.log2 < 52 := (Nat.log2_lt hpos).mpr hlt
        have hbits : Format.binary64.mantissaBits = 53 := rfl
        simp only [UnpackedFloat.pack, hzero, hbias, hbits]
        rw [if_neg (by norm_num), if_neg (by omega)]
        rw [BitVec.ofNat_toNat, BitVec.setWidth_eq]
        rw [hzero] at hb
        exact hb
    · rename_i hzero
      have hlt : (unpackMantissa b).toNat < 2 ^ 52 := (unpackMantissa b).isLt
      have hexplt : (unpackExponent b).toNat < 2047 := by
        have hlt : (unpackExponent b).toNat < 2 ^ 11 := (unpackExponent b).isLt
        have hne : (unpackExponent b).toNat ≠ 2047 := fun heq => hones (BitVec.eq_of_toNat_eq heq)
        omega
      have hmantissa : (1#1 ++ unpackMantissa b).toNat = 2 ^ 52 + (unpackMantissa b).toNat := by
        rw [BitVec.toNat_append, ← Nat.shiftLeft_add_eq_or_of_lt hlt, Nat.shiftLeft_eq]
        rfl
      have hlog : (1#1 ++ unpackMantissa b).toNat.log2 = 52 := by
        rw [hmantissa]
        exact log2_eq (by omega) (by omega)
      have hbits : Format.binary64.mantissaBits = 53 := rfl
      have hbiased : (((unpackExponent b).toNat : Int) - ((1023 : Nat) + (52 : Nat)) + (1023 : Nat) +
          (52 : Nat)).toNat = (unpackExponent b).toNat := by omega
      simp only [UnpackedFloat.pack, hbias, hbits, hlog, hbiased]
      rw [if_neg (by norm_num; omega), if_pos trivial]
      have hm : BitVec.ofNat 52 (1#1 ++ unpackMantissa b).toNat = unpackMantissa b := by
        apply BitVec.eq_of_toNat_eq
        rw [BitVec.toNat_ofNat, hmantissa]
        omega
      rw [hm, BitVec.ofNat_toNat, BitVec.setWidth_eq]
      exact hb

theorem ofBits_toBits (x : Float) : Float.ofBits x.toBits = x := by
  obtain ⟨⟨bits, hvalid⟩⟩ := x
  have hbits : UInt64.ofBitVec (UnpackedFloat.pack .binary64 (UnpackedFloat.unpack .binary64 bits.toBitVec)) =
      bits := by
    rw [pack_unpack hvalid]
  simp only [Float.ofBits, Float.toBits, Float.Model.ofBits, Float.Model.pack]
  congr 2

/-! ## Rounding -/

theorem shiftRight_succ (em : ExtendedMantissa) (n : Nat) : em >>> (n + 1) = (em >>> n).shiftRightOne := rfl

theorem mantissa_shiftRight (em : ExtendedMantissa) (n : Nat) :
    (em >>> n).mantissa = em.mantissa / 2 ^ n := by
  induction n with
  | zero => exact (Nat.div_one _).symm
  | succ n ih =>
      rw [shiftRight_succ, pow_succ, ← Nat.div_div_eq_div_mul, ← ih]
      rfl

/-- A mantissa that ends in enough zero bits is shifted without loss. -/
theorem shiftRight_of_dvd {m n : Nat} (h : 2 ^ n ∣ m) :
    (⟨m, false, false⟩ : ExtendedMantissa) >>> n = ⟨m / 2 ^ n, false, false⟩ := by
  induction n with
  | zero =>
      rw [pow_zero, Nat.div_one]
      rfl
  | succ n ih =>
      obtain ⟨k, rfl⟩ := h
      have hdvd : 2 ^ n ∣ 2 ^ (n + 1) * k := ⟨2 * k, by rw [pow_succ, mul_assoc]⟩
      have hdiv : 2 ^ (n + 1) * k / 2 ^ n = 2 * k := by
        rw [pow_succ, mul_assoc]
        exact Nat.mul_div_cancel_left _ (by positivity)
      rw [shiftRight_succ, ih hdvd, hdiv, Nat.mul_div_cancel_left _ (by positivity)]
      simp [ExtendedMantissa.shiftRightOne]

theorem roundedMantissa_bounds (em : ExtendedMantissa) :
    em.mantissa ≤ em.roundedMantissa ∧ em.roundedMantissa ≤ em.mantissa + 1 := by
  obtain ⟨m, r, s⟩ := em
  cases r <;> cases s <;>
    simp only [ExtendedMantissa.roundedMantissa, ExtendedMantissa.accuracy, Accuracy.roundToNearestEven] <;>
    omega

theorem targetExponent_normal {m : Nat} {e : Int} (h : -1022 ≤ m.log2 + e) :
    Format.binary64.targetExponent (totalExponent m e) = m.log2 + e - 52 := by
  have hbits : (Format.binary64.mantissaBits : Int) = 53 := rfl
  have hmin : Format.binary64.minExponent = -1074 := rfl
  rw [Format.targetExponent, totalExponent, hbits, hmin]
  omega

/-- What rounding gives for a number whose leading bit stands for `2 ^ (t + 52)`: a
mantissa of 53 bits, and the number itself when no bit below `2 ^ t` is set. -/
def Rounded (s : Sign) (m : Nat) (e t : Int) (u : UnpackedFloat) : Prop :=
  ∃ m' e' h, u = .finite s m' e' h ∧ 2 ^ 52 ≤ m' ∧ m' < 2 ^ 53 ∧ (e' = t ∨ e' = t + 1) ∧
    (2 ^ (t - e).toNat ∣ m → (m' : ℚ) * (2 : ℚ) ^ e' = (m : ℚ) * (2 : ℚ) ^ e)

theorem div_pow_log2 {m n : Nat} (h : m.log2 = 52 + n) : 2 ^ 52 ≤ m / 2 ^ n ∧ m / 2 ^ n < 2 ^ 53 := by
  have hne : m ≠ 0 := by
    rintro rfl
    rw [Nat.log2_zero] at h
    omega
  have hlow : 2 ^ (52 + n) ≤ m := (Nat.le_log2 hne).mp h.ge
  have hhigh : m < 2 ^ (53 + n) := (Nat.log2_lt hne).mp (by omega)
  constructor
  · rw [Nat.le_div_iff_mul_le (by positivity), ← pow_add]
    exact hlow
  · rw [Nat.div_lt_iff_lt_mul (by positivity), ← pow_add]
    exact hhigh

/-- The same number, written with the exponent `e + n`. -/
theorem scale_div {m n : Nat} {e : Int} (h : 2 ^ n ∣ m) :
    ((m / 2 ^ n : Nat) : ℚ) * (2 : ℚ) ^ (e + n) = (m : ℚ) * (2 : ℚ) ^ e := by
  obtain ⟨k, rfl⟩ := h
  rw [Nat.mul_div_cancel_left _ (by positivity), zpow_add₀ (by norm_num), zpow_natCast]
  push_cast
  ring

/-- The end of a rounding: the rounded mantissa may have grown by a bit. -/
def settle (s : Sign) (r : Nat) (t : Int) : UnpackedFloat :=
  if h : (shiftToTargetExponent .binary64 r t .exact).1.mantissa = 0 then
    .zero s
  else
    .finite s (shiftToTargetExponent .binary64 r t .exact).1.mantissa
      (shiftToTargetExponent .binary64 r t .exact).2 (Nat.pos_of_ne_zero h)

theorem settle_of_lt {s : Sign} {r : Nat} {t : Int} (hlow : 2 ^ 52 ≤ r) (hhigh : r < 2 ^ 53)
    (hmin : -1074 ≤ t) : settle s r t = .finite s r t (Nat.lt_of_lt_of_le (by norm_num) hlow) := by
  have hlog : r.log2 = 52 := log2_eq hlow hhigh
  have hshift : shiftToTargetExponent .binary64 r t .exact =
      ((⟨r, false, false⟩ : ExtendedMantissa), t) := by
    have hamount : (((52 : Nat) : Int) + t - 52 - t).toNat = 0 := by omega
    rw [shiftToTargetExponent, targetExponent_normal (by omega), hlog, shiftToExponent, hamount]
    simp only [Nat.cast_zero, add_zero]
    rfl
  simp only [settle, hshift]
  rw [dif_neg (by omega)]

theorem settle_two_pow {s : Sign} {t : Int} (hmin : -1074 ≤ t) :
    settle s (2 ^ 53) t = .finite s (2 ^ 52) (t + 1) (by norm_num) := by
  have hlog : (2 ^ 53 : Nat).log2 = 53 := Nat.log2_two_pow
  have hshift : shiftToTargetExponent .binary64 (2 ^ 53) t .exact =
      ((⟨2 ^ 52, false, false⟩ : ExtendedMantissa), t + 1) := by
    have hamount : (((53 : Nat) : Int) + t - 52 - t).toNat = 1 := by omega
    rw [shiftToTargetExponent, targetExponent_normal (by omega), hlog, shiftToExponent, hamount]
    rfl
  simp only [settle, hshift]
  rw [dif_neg (by norm_num)]

theorem roundWithAccuracy_normal {s : Sign} {m : Nat} {e t : Int} (hlog : m.log2 + e = t + 52)
    (hmin : -1074 ≤ t) (hle : e ≤ t) :
    Rounded s m e t (roundWithAccuracy .binary64 s m e .exact) := by
  obtain ⟨n, rfl⟩ : ∃ n : Nat, t = e + n := ⟨(t - e).toNat, by omega⟩
  have htarget : Format.binary64.targetExponent (totalExponent m e) = e + n := by
    rw [targetExponent_normal (by omega)]
    omega
  have hamount : (e + n - e).toNat = n := by omega
  have hfirst : shiftToTargetExponent .binary64 m e .exact =
      ((⟨m, false, false⟩ : ExtendedMantissa) >>> n, e + n) := by
    rw [shiftToTargetExponent, htarget, shiftToExponent, hamount]
    rfl
  obtain ⟨hlow, hhigh⟩ := div_pow_log2 (m := m) (n := n) (by omega)
  obtain ⟨hle, hge⟩ := roundedMantissa_bounds ((⟨m, false, false⟩ : ExtendedMantissa) >>> n)
  rw [mantissa_shiftRight] at hle hge
  have hexact : 2 ^ n ∣ m → ((⟨m, false, false⟩ : ExtendedMantissa) >>> n).roundedMantissa = m / 2 ^ n := by
    intro hdvd
    rw [shiftRight_of_dvd hdvd]
    rfl
  have hsettle : roundWithAccuracy .binary64 s m e .exact =
      settle s ((⟨m, false, false⟩ : ExtendedMantissa) >>> n).roundedMantissa (e + n) := by
    simp only [roundWithAccuracy, hfirst]
    rfl
  rw [hsettle]
  generalize ((⟨m, false, false⟩ : ExtendedMantissa) >>> n).roundedMantissa = r at hle hge hexact ⊢
  simp only at hle hge
  by_cases hr : r < 2 ^ 53
  · rw [settle_of_lt (by omega) hr (by omega)]
    refine ⟨r, e + n, by omega, rfl, by omega, hr, .inl rfl, fun hdvd => ?_⟩
    rw [hamount] at hdvd
    rw [hexact hdvd, scale_div hdvd]
  · obtain rfl : r = 2 ^ 53 := by omega
    rw [settle_two_pow (by omega)]
    refine ⟨2 ^ 52, e + n + 1, by norm_num, rfl, le_rfl, by norm_num, .inr rfl, fun hdvd => ?_⟩
    rw [hamount] at hdvd
    have := hexact hdvd
    omega

theorem log2_mul_pow {m : Nat} (hm : m ≠ 0) (n : Nat) : (m * 2 ^ n).log2 = m.log2 + n := by
  have hlow := (Nat.le_log2 hm).mp le_rfl
  have hhigh := (Nat.log2_lt hm).mp (Nat.lt_succ_self _)
  have hne : m * 2 ^ n ≠ 0 := by positivity
  refine le_antisymm (Nat.lt_succ_iff.mp ((Nat.log2_lt hne).mpr ?_)) ((Nat.le_log2 hne).mpr ?_)
  · have : (m.log2 + n).succ = m.log2.succ + n := by omega
    rw [this, pow_add]
    exact (Nat.mul_lt_mul_right (by positivity)).mpr hhigh
  · rw [pow_add]
    exact Nat.mul_le_mul_right _ hlow

theorem round_normal {s : Sign} {m : Nat} {e t : Int} (hm : m ≠ 0) (hlog : m.log2 + e = t + 52)
    (hmin : -1074 ≤ t) : Rounded s m e t (UnpackedFloat.round .binary64 s m e) := by
  have htarget : Format.binary64.targetExponent (totalExponent m e) = t := by
    rw [targetExponent_normal (by omega)]
    omega
  simp only [UnpackedFloat.round, htarget, decreaseExponent, Nat.shiftLeft_eq]
  rcases le_total e t with hle | hle
  · have hamount : (e - t).toNat = 0 := by omega
    rw [hamount]
    simpa using roundWithAccuracy_normal hlog hmin hle
  · obtain ⟨n, rfl⟩ : ∃ n : Nat, e = t + n := ⟨(e - t).toNat, by omega⟩
    have hamount : (t + n - t).toNat = n := by omega
    have hexponent : t + n - (n : Int) = t := by omega
    rw [hamount, hexponent]
    have hrounded := roundWithAccuracy_normal (s := s) (m := m * 2 ^ n) (e := t) (t := t)
      (by rw [log2_mul_pow hm]; push_cast; omega) hmin le_rfl
    obtain ⟨m', e', h, hu, hlow, hhigh, he', hexact⟩ := hrounded
    refine ⟨m', e', h, hu, hlow, hhigh, he', fun _ => ?_⟩
    rw [hexact (by simp), zpow_add₀ (by norm_num), zpow_natCast]
    push_cast
    ring

/-! ## Whole numbers -/

/-- What packing makes of a rounded number: itself, or an infinity of its sign. -/
theorem unpack_pack_rounded {s : Sign} {m : Nat} {e : Int} {h : 0 < m} (hlow : 2 ^ 52 ≤ m)
    (hhigh : m < 2 ^ 53) (hmin : -1074 ≤ e) :
    UnpackedFloat.unpack .binary64 (UnpackedFloat.pack .binary64 (.finite s m e h)) =
      if e ≤ 971 then .finite s m e h else .infinity s := by
  split
  · rename_i hmax
    exact unpack_pack_normal hlow hhigh hmin hmax
  · rename_i hmax
    have hpack : UnpackedFloat.pack .binary64 (.finite s m e h) =
        UnpackedFloat.pack .binary64 (.infinity s) := by
      have hbias : Format.binary64.exponentBias = 1023 := rfl
      simp only [UnpackedFloat.pack]
      rw [if_pos]
      rw [hbias]
      norm_num
      omega
    rw [hpack, unpack_infinity]

/-- A whole number that is rounded and packed is itself below `2 ^ 53`, and keeps
its sign and its size beyond. -/
theorem value_round_whole {s : Sign} {a j : Nat} (ha : a ≠ 0) :
    ∃ y, unpackedValue (UnpackedFloat.unpack .binary64 (UnpackedFloat.pack .binary64
        (UnpackedFloat.round .binary64 s (a * 2 ^ j) (-j)))) = some y ∧
      (a < 2 ^ 53 → y = rational (s.apply (a : Int))) ∧
      (2 ^ 53 ≤ a → match s with
        | .positive => rational (2 ^ 52) ≤ y
        | .negative => y ≤ rational (-2 ^ 52)) := by
  have hlog : (a * 2 ^ j).log2 + (-j : Int) = (a.log2 - 52 : Int) + 52 := by
    rw [log2_mul_pow ha]
    push_cast
    omega
  obtain ⟨m, e, h, hu, hlow, hhigh, he, hexact⟩ :=
    round_normal (s := s) (Nat.mul_ne_zero ha (by positivity)) hlog (by omega)
  rw [hu, unpack_pack_rounded hlow hhigh (by omega)]
  have hmq : (2 ^ 52 : ℚ) ≤ m := by exact_mod_cast hlow
  by_cases hsmall : a < 2 ^ 53
  · have hlog53 : a.log2 < 53 := (Nat.log2_lt ha).mpr hsmall
    rw [if_pos (by omega)]
    refine ⟨_, rfl, fun _ => ?_, fun hlarge => absurd hsmall (by omega)⟩
    have hvalue : (m : ℚ) * (2 : ℚ) ^ e = a := by
      rw [hexact, Nat.cast_mul, mul_assoc, zpow_neg, zpow_natCast]
      · push_cast
        rw [mul_inv_cancel₀ (by positivity), mul_one]
      · exact Dvd.dvd.mul_left (pow_dvd_pow 2 (by omega)) a
    cases s with
    | positive => simpa [Sign.apply] using hvalue
    | negative => simpa [Sign.apply] using hvalue
  · have hlog53 : 53 ≤ a.log2 := (Nat.le_log2 ha).mpr (by omega)
    have hpow : (1 : ℚ) ≤ (2 : ℚ) ^ e := one_le_zpow₀ (by norm_num) (by omega)
    have hscaled : (2 ^ 52 : ℚ) ≤ m * (2 : ℚ) ^ e := by nlinarith
    split
    · refine ⟨_, rfl, fun hlt => absurd hlt hsmall, fun _ => ?_⟩
      cases s with
      | positive => simpa [Sign.apply] using hscaled
      | negative => simpa [Sign.apply] using hscaled
    · cases s with
      | positive => exact ⟨_, rfl, fun hlt => absurd hlt hsmall, fun _ => le_top⟩
      | negative => exact ⟨_, rfl, fun hlt => absurd hlt hsmall, fun _ => bot_le⟩

theorem value_normalize_whole {n : Int} {j : Nat} {z : Sign} :
    ∃ y, unpackedValue (UnpackedFloat.unpack .binary64 (UnpackedFloat.pack .binary64
        (UnpackedFloat.normalize .binary64 (n * 2 ^ j) (-j) z))) = some y ∧
      (-2 ^ 53 < n → n < 2 ^ 53 → y = rational n) ∧ (2 ^ 53 ≤ n → rational (2 ^ 52) ≤ y) ∧
      (n ≤ -2 ^ 53 → y ≤ rational (-2 ^ 52)) := by
  rcases lt_trichotomy n 0 with hn | rfl | hn
  · obtain ⟨a, rfl⟩ : ∃ a : Nat, n = -a := ⟨n.natAbs, by omega⟩
    obtain ⟨y, hy, hsmall, hlarge⟩ := value_round_whole (s := .negative) (a := a) (j := j) (by omega)
    have hneg : -(a : Int) * 2 ^ j < 0 := mul_neg_of_neg_of_pos hn (by positivity)
    have hnat : (-(-(a : Int) * 2 ^ j)).toNat = a * 2 ^ j := by
      rw [neg_mul, neg_neg]
      exact_mod_cast Int.toNat_natCast (a * 2 ^ j)
    refine ⟨y, ?_, fun _ _ => ?_, fun h => by omega, fun _ => hlarge (by omega)⟩
    · rw [← hy, UnpackedFloat.normalize, compare_lt_iff_lt.mpr hneg, hnat]
    · rw [hsmall (by omega)]
      rfl
  · rw [zero_mul]
    refine ⟨rational 0, ?_, fun _ _ => by simp, fun h => by omega, fun h => by omega⟩
    rw [UnpackedFloat.normalize, compare_eq_iff_eq.mpr rfl]
    exact congrArg unpackedValue (unpack_zero z)
  · obtain ⟨a, rfl⟩ : ∃ a : Nat, n = a := ⟨n.natAbs, by omega⟩
    obtain ⟨y, hy, hsmall, hlarge⟩ := value_round_whole (s := .positive) (a := a) (j := j) (by omega)
    have hpos : (0 : Int) < (a : Int) * 2 ^ j := mul_pos hn (by positivity)
    have hnat : ((a : Int) * 2 ^ j).toNat = a * 2 ^ j := by
      exact_mod_cast Int.toNat_natCast (a * 2 ^ j)
    refine ⟨y, ?_, fun _ _ => ?_, fun _ => hlarge (by omega), fun h => by omega⟩
    · rw [← hy, UnpackedFloat.normalize, compare_gt_iff_gt.mpr hpos, hnat]
    · rw [hsmall (by omega)]
      rfl

/-! ## One more and one less -/

theorem unpack_one : ∃ h, (1 : Float).toModel.unpack = .finite .positive (2 ^ 52) (-52) h :=
  ⟨by decide, rfl⟩

theorem value_add_one_eq (x : Float) : ∃ h : 0 < 2 ^ 52, value (x + 1) =
    unpackedValue (UnpackedFloat.unpack .binary64 (UnpackedFloat.pack .binary64
      (UnpackedFloat.add .binary64 x.toModel.unpack (.finite .positive (2 ^ 52) (-52) h)))) := by
  obtain ⟨hpos, hone⟩ := unpack_one
  refine ⟨hpos, ?_⟩
  rw [← hone]
  rfl

theorem value_sub_one_eq (x : Float) : ∃ h : 0 < 2 ^ 52, value (x - 1) =
    unpackedValue (UnpackedFloat.unpack .binary64 (UnpackedFloat.pack .binary64
      (UnpackedFloat.sub .binary64 x.toModel.unpack (.finite .positive (2 ^ 52) (-52) h)))) := by
  obtain ⟨hpos, hone⟩ := unpack_one
  refine ⟨hpos, ?_⟩
  rw [← hone]
  rfl

/-- A mantissa written with a smaller exponent. -/
theorem scale_shiftLeft {m : Nat} {e e' : Int} (h : e' ≤ e) :
    ((m <<< (e - e').toNat : Nat) : ℚ) * (2 : ℚ) ^ e' = (m : ℚ) * (2 : ℚ) ^ e := by
  obtain ⟨n, rfl⟩ : ∃ n : Nat, e = e' + n := ⟨(e - e').toNat, by omega⟩
  have hamount : (e' + n - e').toNat = n := by omega
  rw [hamount, Nat.shiftLeft_eq, zpow_add₀ (by norm_num), zpow_natCast]
  push_cast
  ring

theorem apply_cast (s : Sign) (m : Int) : ((s.apply m : Int) : ℚ) = (s.apply 1 : Int) * m := by
  cases s <;> simp [Sign.apply]

/-- The sum of a float and a whole number over `2 ^ 52`, before rounding. -/
theorem sum_whole {s : Sign} {m : Nat} {e : Int} {n : Int}
    (h : (s.apply (m : Int) : ℚ) * (2 : ℚ) ^ e = n) (d : Int) :
    ∃ j : Nat, min e (-52) = -j ∧
      s.apply ((m <<< (e - min e (-52)).toNat : Nat) : Int) +
        d * ((2 ^ 52 <<< (-52 - min e (-52)).toNat : Nat) : Int) = (n + d) * 2 ^ j := by
  obtain ⟨j, hj⟩ : ∃ j : Nat, min e (-52) = -j := ⟨(-min e (-52)).toNat, by omega⟩
  refine ⟨j, hj, ?_⟩
  have hx := scale_shiftLeft (m := m) (min_le_left e (-52))
  have hone := scale_shiftLeft (m := 2 ^ 52) (min_le_right e (-52))
  rw [hj] at hx hone ⊢
  have hscale : (2 : ℚ) ^ (-(j : Int)) = ((2 : ℚ) ^ j)⁻¹ := by rw [zpow_neg, zpow_natCast]
  have hpow : (2 : ℚ) ^ j ≠ 0 := by positivity
  have hunit : ((2 ^ 52 : Nat) : ℚ) * (2 : ℚ) ^ (-52 : Int) = 1 := by norm_num
  rw [hscale] at hx hone
  rw [hunit] at hone
  generalize m <<< (e - -(j : Int)).toNat = a at hx ⊢
  generalize 2 ^ 52 <<< (-52 - -(j : Int)).toNat = b at hone ⊢
  have hx' : (s.apply (a : Int) : ℚ) = n * 2 ^ j := by
    rw [apply_cast] at h ⊢
    rw [mul_assoc] at h
    push_cast at h ⊢
    rw [← hx] at h
    rw [← h, mul_assoc, mul_assoc, inv_mul_cancel₀ hpow, mul_one]
  have hone' : (b : ℚ) = 2 ^ j := by
    rw [← mul_one (b : ℚ), ← inv_mul_cancel₀ hpow, ← mul_assoc, hone, one_mul]
  have hsum : ((s.apply (a : Int) + d * (b : Int) : Int) : ℚ) = (((n + d) * 2 ^ j : Int) : ℚ) := by
    push_cast
    rw [hx', hone']
    ring
  exact_mod_cast hsum

theorem value_add_one {x : Float} {n : Int} (h : value x = some (rational n)) :
    ∃ y, value (x + 1) = some y ∧ (-2 ^ 53 < n + 1 → n + 1 < 2 ^ 53 → y = rational (n + 1)) ∧
      (2 ^ 53 ≤ n + 1 → rational (2 ^ 52) ≤ y) ∧ (n + 1 ≤ -2 ^ 53 → y ≤ rational (-2 ^ 52)) := by
  obtain ⟨hpos, hsum⟩ := value_add_one_eq x
  rw [hsum]
  rw [value] at h
  cases hx : x.toModel.unpack with
  | notANumber => simp [hx, unpackedValue] at h
  | infinity s => cases s <;> simp [hx, unpackedValue, rational] at h
  | zero s =>
      have hn : n = 0 := by simpa [hx, unpackedValue, eq_comm] using h
      subst hn
      refine ⟨rational 1, ?_, fun _ _ => by simp, fun h => by omega, fun h => by omega⟩
      simp only [UnpackedFloat.add]
      rw [unpack_pack_normal le_rfl (by norm_num) (by norm_num) (by norm_num)]
      have hsign : Sign.positive.apply ((2 ^ 52 : Nat) : Int) = 2 ^ 52 := rfl
      rw [unpackedValue, hsign]
      norm_num
  | finite s m e hm =>
      have hn : (s.apply (m : Int) : ℚ) * (2 : ℚ) ^ e = n := by simpa [hx, unpackedValue] using h
      obtain ⟨j, hj, hexact⟩ := sum_whole hn 1
      obtain ⟨y, hy, hsmall, hlarge⟩ := value_normalize_whole (n := n + 1) (j := j) (z := .positive)
      refine ⟨y, ?_, fun hlow hhigh => by rw [hsmall hlow hhigh]; push_cast; rfl, hlarge⟩
      rw [← hy, ← hexact, ← hj]
      simp only [UnpackedFloat.add, decreaseExponent, one_mul]
      rfl

theorem value_sub_one {x : Float} {n : Int} (h : value x = some (rational n)) :
    ∃ y, value (x - 1) = some y ∧ (-2 ^ 53 < n - 1 → n - 1 < 2 ^ 53 → y = rational (n - 1)) ∧
      (2 ^ 53 ≤ n - 1 → rational (2 ^ 52) ≤ y) ∧ (n - 1 ≤ -2 ^ 53 → y ≤ rational (-2 ^ 52)) := by
  obtain ⟨hpos, hdiff⟩ := value_sub_one_eq x
  rw [hdiff]
  rw [value] at h
  cases hx : x.toModel.unpack with
  | notANumber => simp [hx, unpackedValue] at h
  | infinity s => cases s <;> simp [hx, unpackedValue, rational] at h
  | zero s =>
      have hn : n = 0 := by simpa [hx, unpackedValue, eq_comm] using h
      subst hn
      refine ⟨rational (-1), ?_, fun _ _ => by simp, fun h => by omega, fun h => by omega⟩
      simp only [UnpackedFloat.sub]
      rw [unpack_pack_normal le_rfl (by norm_num) (by norm_num) (by norm_num)]
      have hsign : (-Sign.positive).apply ((2 ^ 52 : Nat) : Int) = -2 ^ 52 := rfl
      rw [unpackedValue, hsign]
      norm_num
  | finite s m e hm =>
      have hn : (s.apply (m : Int) : ℚ) * (2 : ℚ) ^ e = n := by simpa [hx, unpackedValue] using h
      obtain ⟨j, hj, hexact⟩ := sum_whole hn (-1)
      obtain ⟨y, hy, hsmall, hlarge⟩ := value_normalize_whole (n := n - 1) (j := j) (z := .positive)
      refine ⟨y, ?_, fun hlow hhigh => by rw [hsmall hlow hhigh]; push_cast; rfl, hlarge⟩
      rw [← hy, sub_eq_add_neg, ← hexact, ← hj, neg_one_mul, ← sub_eq_add_neg]
      simp only [UnpackedFloat.sub, decreaseExponent]
      rfl

/-- A whole number of moderate size is above a whole float exactly when it is not below
the float plus one. -/
theorem add_one_le_iff {x : Float} {n k : Int} (h : value x = some (rational n)) (hk : -2 ^ 52 ≤ k)
    (hk' : k < 2 ^ 52) : ∃ y, value (x + 1) = some y ∧ (y ≤ rational k ↔ n < k) := by
  obtain ⟨y, hy, hsmall, hlarge, hlow⟩ := value_add_one h
  refine ⟨y, hy, ?_⟩
  by_cases hn : -2 ^ 53 < n + 1
  · by_cases hn' : n + 1 < 2 ^ 53
    · rw [hsmall hn hn', ← Int.cast_one, ← Int.cast_add, rational_le_rational, Int.cast_le]
      exact Int.add_one_le_iff
    · refine iff_of_false (fun hle => ?_) (by omega)
      have hcast : ((2 ^ 52 : Int) : ℚ) ≤ k :=
        rational_le_rational.mp (by exact_mod_cast (hlarge (by omega)).trans hle)
      exact absurd (Int.cast_le.mp hcast) (by omega)
  · refine iff_of_true ((hlow (by omega)).trans (rational_le_rational.mpr ?_)) (by omega)
    exact_mod_cast hk

/-- A whole number of moderate size is below a whole float exactly when it is not above
the float less one. -/
theorem le_sub_one_iff {x : Float} {n k : Int} (h : value x = some (rational n)) (hk : -2 ^ 52 < k)
    (hk' : k ≤ 2 ^ 52) : ∃ y, value (x - 1) = some y ∧ (rational k ≤ y ↔ k < n) := by
  obtain ⟨y, hy, hsmall, hlarge, hlow⟩ := value_sub_one h
  refine ⟨y, hy, ?_⟩
  by_cases hn : n - 1 < 2 ^ 53
  · by_cases hn' : -2 ^ 53 < n - 1
    · rw [hsmall hn' hn, ← Int.cast_one, ← Int.cast_sub, rational_le_rational, Int.cast_le]
      exact Int.le_sub_one_iff
    · refine iff_of_false (fun hle => ?_) (by omega)
      have hcast : (k : ℚ) ≤ ((-2 ^ 52 : Int) : ℚ) :=
        rational_le_rational.mp (by exact_mod_cast hle.trans (hlow (by omega)))
      exact absurd (Int.cast_le.mp hcast) (by omega)
  · refine iff_of_true (le_trans (rational_le_rational.mpr ?_) (hlarge (by omega))) (by omega)
    exact_mod_cast hk'

theorem unpack_of_top {x : Float} (h : value x = some ⊤) : x.toModel.unpack = .infinity .positive := by
  rw [value] at h
  cases hx : x.toModel.unpack with
  | notANumber => simp [hx, unpackedValue] at h
  | zero s =>
      rw [hx] at h
      exact absurd (Option.some.inj h) (rational_ne_top 0)
  | finite s m e hm =>
      rw [hx] at h
      exact absurd (Option.some.inj h) (rational_ne_top _)
  | infinity s =>
      cases s with
      | negative => simp [hx, unpackedValue] at h
      | positive => rfl

/-- Plus infinity stays what it is. -/
theorem value_top_add_one {x : Float} (h : value x = some ⊤) : value (x + 1) = some ⊤ := by
  obtain ⟨hpos, hsum⟩ := value_add_one_eq x
  rw [hsum, unpack_of_top h]
  exact congrArg unpackedValue (unpack_infinity .positive)

theorem value_top_sub_one {x : Float} (h : value x = some ⊤) : value (x - 1) = some ⊤ := by
  obtain ⟨hpos, hdiff⟩ := value_sub_one_eq x
  rw [hdiff, unpack_of_top h]
  exact congrArg unpackedValue (unpack_infinity .positive)

/-! ## Numbers stay numbers -/

theorem isSome_unpack_packComponents {s : Sign} {exponent : BitVec 11} {mantissa : BitVec 52}
    (h : exponent ≠ -1#_) :
    (unpackedValue (UnpackedFloat.unpack .binary64
      (packComponents .binary64 s exponent mantissa))).isSome := by
  rw [UnpackedFloat.unpack]
  simp only [unpackExponent_packComponents, unpackMantissa_packComponents, unpackSign_packComponents,
    ofBitVec_toBitVec]
  rw [if_neg h]
  split
  · split <;> rfl
  · rfl

theorem isSome_unpack_pack {u : UnpackedFloat} (h : (unpackedValue u).isSome) :
    (unpackedValue (UnpackedFloat.unpack .binary64 (UnpackedFloat.pack .binary64 u))).isSome := by
  cases u with
  | notANumber => simp [unpackedValue] at h
  | infinity s => rwa [unpack_infinity]
  | zero s => rwa [unpack_zero]
  | finite s m e hm =>
      simp only [UnpackedFloat.pack]
      split
      · exact (congrArg (fun u => (unpackedValue u).isSome) (unpack_infinity s)).trans (by cases s <;> rfl)
      · rename_i hbiased
        split
        · refine isSome_unpack_packComponents fun heq => hbiased ?_
          have hnat := congrArg BitVec.toNat heq
          rw [BitVec.toNat_ofNat] at hnat
          norm_num at hnat ⊢
          omega
        · exact isSome_unpack_packComponents (by decide)

theorem isSome_normalize {n e : Int} {z : Sign} :
    (unpackedValue (UnpackedFloat.normalize .binary64 n e z)).isSome := by
  have hround : ∀ (s : Sign) (m : Nat), (unpackedValue (UnpackedFloat.round .binary64 s m e)).isSome := by
    intro s m
    simp only [UnpackedFloat.round, UnpackedFloat.roundWithAccuracy]
    split <;> rfl
  simp only [UnpackedFloat.normalize]
  split
  · exact hround _ _
  · rfl
  · exact hround _ _

theorem isSome_value_add_one {x : Float} (h : (value x).isSome) : (value (x + 1)).isSome := by
  obtain ⟨hpos, hsum⟩ := value_add_one_eq x
  rw [hsum]
  refine isSome_unpack_pack ?_
  rw [value] at h
  cases hx : x.toModel.unpack with
  | notANumber => simp [hx, unpackedValue] at h
  | infinity s => cases s <;> rfl
  | zero s => rfl
  | finite s m e hm => exact isSome_normalize

theorem isSome_value_sub_one {x : Float} (h : (value x).isSome) : (value (x - 1)).isSome := by
  obtain ⟨hpos, hdiff⟩ := value_sub_one_eq x
  rw [hdiff]
  refine isSome_unpack_pack ?_
  rw [value] at h
  cases hx : x.toModel.unpack with
  | notANumber => simp [hx, unpackedValue] at h
  | infinity s => cases s <;> rfl
  | zero s => rfl
  | finite s m e hm => exact isSome_normalize

end Binary64
