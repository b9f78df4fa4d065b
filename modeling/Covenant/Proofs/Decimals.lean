import Covenant.Decimal.Layout
import Covenant.Decimal.Nearest
import Covenant.Proofs.Rounding

/-! Decimals and floats. The nearest float to a decimal is the one to which the decimal rounds;
the shortest digits of a float round to that float; and the text of a float is a numeral with
these digits. So the number that is read from the text of a float is that float. -/

namespace Covenant

/-! ### Reading -/

namespace Binary64

open Float.Model Float.Model.UnpackedFloat

theorem unpack_packComponents_ne {s : Sign} {e : BitVec 11} (he : e ≠ -1#11) (m : BitVec 52) :
    UnpackedFloat.unpack .binary64 (packComponents .binary64 s e m) ≠ .notANumber := by
  rw [UnpackedFloat.unpack]
  simp only [unpackMantissa_packComponents, unpackExponent_packComponents,
    unpackSign_packComponents, if_neg he]
  split_ifs <;> exact UnpackedFloat.noConfusion

/-- What is packed is a number again. -/
theorem unpack_pack_ne {u : UnpackedFloat} (h : u ≠ .notANumber) :
    (Float.Model.pack u).unpack ≠ .notANumber := by
  cases u with
  | notANumber => exact absurd rfl h
  | infinity s => rw [unpack_pack_infinity]; exact UnpackedFloat.noConfusion
  | zero s => rw [unpack_pack_zero]; exact UnpackedFloat.noConfusion
  | finite s m e hm =>
    change UnpackedFloat.unpack .binary64 (UnpackedFloat.pack .binary64 _) ≠ _
    rw [UnpackedFloat.pack]
    dsimp only
    split
    next =>
      intro hnan
      have hinfinity := (unpack_pack_infinity s).symm.trans hnan
      cases hinfinity
    next hexp =>
      split
      next =>
        refine unpack_packComponents_ne ?_ _
        intro hmax
        have hmax' := congrArg BitVec.toNat hmax
        rw [BitVec.toNat_ofNat] at hmax'
        change _ = 2047 at hmax'
        change ¬(2048 ≤ _ + 1) at hexp
        omega
      next => exact unpack_packComponents_ne (by decide) _

theorem roundWithAccuracy_ne (s : Sign) (k : Nat) (f : Int) (accuracy : Accuracy) :
    roundWithAccuracy .binary64 s k f accuracy ≠ .notANumber := by
  rw [roundWithAccuracy]
  dsimp only
  split <;> exact UnpackedFloat.noConfusion

section
variable {u : UnpackedFloat} (h : u ≠ .notANumber) (s : Sign) {k : Nat} (f : Int) (hk : 0 < k)
include h

theorem mul_finite_ne : UnpackedFloat.mul .binary64 u (.finite s k f hk) ≠ .notANumber := by
  cases u with
  | notANumber => exact absurd rfl h
  | finite => exact roundWithAccuracy_ne _ _ _ _
  | zero | infinity => exact UnpackedFloat.noConfusion

theorem div_finite_ne : UnpackedFloat.div .binary64 u (.finite s k f hk) ≠ .notANumber := by
  cases u with
  | notANumber => exact absurd rfl h
  | finite => exact roundWithAccuracy_ne _ _ _ _
  | zero | infinity => exact UnpackedFloat.noConfusion

end

theorem unpack_toFloat_ne (n : UInt64) : n.toFloat.toModel.unpack ≠ .notANumber := by
  refine unpack_pack_ne (u := UnpackedFloat.normalize .binary64 n.toNat 0 .positive) ?_
  rw [UnpackedFloat.normalize]
  split
  · exact roundWithAccuracy_ne _ _ _ _
  · exact UnpackedFloat.noConfusion
  · exact roundWithAccuracy_ne _ _ _ _

theorem model_ofScientific_ne (c : Nat) (k : Int) :
    UnpackedFloat.ofScientific .binary64 c k ≠ .notANumber := by
  rw [UnpackedFloat.ofScientific]
  split_ifs
  · exact UnpackedFloat.noConfusion
  · exact UnpackedFloat.noConfusion
  · exact UnpackedFloat.noConfusion
  · exact roundWithAccuracy_ne _ _ _ _
  · exact roundWithAccuracy_ne _ _ _ _

theorem ofScientific_ne (c : Nat) (negative : Bool) (k : Nat) :
    (Float.ofScientific c negative k).toModel.unpack ≠ .notANumber := by
  rw [Float.ofScientific]
  split
  next hfast =>
    have hsize : k < Float.exactlyRepresentablePowersOfTen.size := Nat.lt_succ_of_le hfast.2
    obtain ⟨b, g, hb, hpower, -⟩ := unpack_powerOfTen hsize
    cases negative with
    | true =>
      refine unpack_pack_ne (u := UnpackedFloat.div .binary64 _ _) ?_
      rw [hpower]
      exact div_finite_ne (unpack_toFloat_ne _) _ _ _
    | false =>
      refine unpack_pack_ne (u := UnpackedFloat.mul .binary64 _ _) ?_
      rw [hpower]
      exact mul_finite_ne (unpack_toFloat_ne _) _ _ _
  next => exact unpack_pack_ne (model_ofScientific_ne _ _)

theorem infinity_eq : (1.0 / 0.0 : Float) = .ofModel (.pack (.infinity .positive)) := by decide

end Binary64

namespace Decimal

open Float.Model

theorem lt_pow_length (c : Nat) : c < 10 ^ (Nat.toDigits 10 c).length :=
  (Nat.length_toDigits_le_iff (by decide) Nat.length_toDigits_pos).1 le_rfl

theorem pow_length_le {c : Nat} (hc : 0 < c) : 10 ^ ((Nat.toDigits 10 c).length - 1) ≤ c := by
  by_cases hone : (Nat.toDigits 10 c).length - 1 = 0
  · rw [hone]
    exact hc
  · by_contra hlt
    have hle := (Nat.length_toDigits_le_iff (by decide) (by omega)).2 (Nat.lt_of_not_le hlt)
    omega

/-- The place of the first digit of a decimal that is rounded to a float. -/
theorem length_bounds {c m : Nat} {k e : Int} (hpos : 0 < c) (hc : Binary64.Canonical m e)
    (h : Binary64.Rounds (c * 10 ^ k) m e) : -330 < (Nat.toDigits 10 c).length + k ∧
      ((Nat.toDigits 10 c).length - 1 : Nat) + k < 309 := by
  generalize hlen : (Nat.toDigits 10 c).length = len
  have hten : ∀ {a b : Int}, (10 : ℚ) ^ a < 10 ^ b → a < b :=
    fun hlt => (zpow_lt_zpow_iff_right₀ (by norm_num)).1 hlt
  have hpow : (0 : ℚ) < 10 ^ k := zpow_pos (by norm_num) k
  have hsplit : ∀ n : Nat, (10 : ℚ) ^ (n + k) = (10 ^ n : Nat) * 10 ^ k := by
    intro n
    rw [zpow_add₀ (by norm_num), zpow_natCast]
    push_cast
    rfl
  constructor
  · apply hten
    calc (10 : ℚ) ^ (-330 : Int) < 2 ^ (-1075 : Int) := by
          rw [zpow_neg, zpow_neg, inv_lt_inv₀ (by positivity) (by positivity)]
          exact_mod_cast (by decide +kernel : 2 ^ 1075 < 10 ^ 330)
      _ = 1 / 2 * 2 ^ (-1074 : Int) := by
          rw [show (-1075 : Int) = -1 + -1074 by norm_num, Binary64.two_zpow_add, zpow_neg_one,
            one_div]
      _ ≤ (m - Binary64.reach m e) * 2 ^ e := by
          have hm : (1 : ℚ) ≤ m := by exact_mod_cast hc.pos
          have hreach := Binary64.reach_le m e
          have hhalf : 1 / 2 ≤ m - Binary64.reach m e := by linarith
          have hexp : (2 : ℚ) ^ (-1074 : Int) ≤ 2 ^ e :=
            zpow_le_zpow_right₀ (by norm_num) hc.least
          gcongr
      _ ≤ c * 10 ^ k := h.low
      _ < (10 ^ len : Nat) * 10 ^ k := by
          have hlt : (c : ℚ) < (10 ^ len : Nat) := by exact_mod_cast hlen ▸ lt_pow_length c
          gcongr
      _ = 10 ^ (len + k) := (hsplit len).symm
  · apply hten
    calc (10 : ℚ) ^ ((len - 1 : Nat) + k) = (10 ^ (len - 1) : Nat) * 10 ^ k := hsplit _
      _ ≤ c * 10 ^ k := by
          have hle : ((10 ^ (len - 1) : Nat) : ℚ) ≤ c := by exact_mod_cast hlen ▸ pow_length_le hpos
          gcongr
      _ < 2 ^ (e + 53) := h.lt_two_zpow hc.lt
      _ ≤ 2 ^ (1024 : Int) := zpow_le_zpow_right₀ (by norm_num) (by have := hc.greatest; omega)
      _ < 10 ^ (309 : Int) := by exact_mod_cast (by decide +kernel : 2 ^ 1024 < 10 ^ 309)

/-- A decimal is read as the float that it is rounded to. -/
theorem nearest_eq {c m : Nat} {k e : Int} (hpos : 0 < c) (hc : Binary64.Canonical m e)
    (h : Binary64.Rounds (c * 10 ^ k) m e) :
    nearest c k = .ofModel (.pack (.finite .positive m e hc.pos)) := by
  obtain ⟨hlow, hhigh⟩ := length_bounds hpos hc h
  have hlog : (Nat.toDigits 10 c).length - 1 ≤ c.log2 := by
    rw [Nat.le_log2 hpos.ne']
    exact (Nat.pow_le_pow_left (by norm_num) _).trans (pow_length_le hpos)
  have hlenpos : 0 < (Nat.toDigits 10 c).length := Nat.length_toDigits_pos
  rw [nearest]
  generalize (Nat.toDigits 10 c).length = len at hlow hhigh hlog hlenpos ⊢
  have hguard : ¬((c = 0 || decide ((len : Int) + k < -330)) = true) := by
    simp only [Bool.or_eq_true, decide_eq_true_eq]
    omega
  have hguard' : ¬((310 : Int) < len + k) := by omega
  simp only [hguard, hguard', if_false, Bool.false_eq_true]
  exact Binary64.ofScientific_eq hc hpos (by omega) (by omega) h

/-- What is read is a number, though it may be infinite. -/
theorem nearest_ne (c : Nat) (k : Int) : (nearest c k).toModel.unpack ≠ .notANumber := by
  rw [nearest]
  split_ifs
  · rw [Binary64.zero_eq, Binary64.unpack_pack_zero]
    exact UnpackedFloat.noConfusion
  · rw [Binary64.infinity_eq, Binary64.unpack_pack_infinity]
    exact UnpackedFloat.noConfusion
  · exact Binary64.ofScientific_ne _ _ _

/-! ### Shortest digits -/

namespace Magnitude

/-- The mantissa and the exponent are those of a float, and its neighbour below is known. -/
structure Proper (m : Magnitude) : Prop where
  canonical : Binary64.Canonical m.mantissa m.exponent
  narrow : m.narrow = decide (m.mantissa = 2 ^ 52 ∧ -1074 < m.exponent)

section
variable (m : Magnitude)

/-- The two units are to one another as the things of which they are units. -/
theorem exists_scale (k : Int) : ∃ r : ℚ, 0 < r ∧
    ((m.units k).1 : ℚ) = 2 ^ (m.exponent - 2) * r ∧ ((m.units k).2 : ℚ) = 10 ^ k * r := by
  have hexp : 2 - m.exponent = -(m.exponent - 2) := by ring
  refine ⟨2 ^ (2 - m.exponent).toNat * 10 ^ (-k).toNat, by positivity, ?_, ?_⟩
  · rw [units, hexp, Binary64.zpow_eq_div (by norm_num) (m.exponent - 2)]
    simp only [Nat.pow_eq, Nat.cast_mul, Nat.cast_pow, Nat.cast_ofNat]
    field_simp
  · rw [units, Binary64.zpow_eq_div (by norm_num) k]
    simp only [Nat.pow_eq, Nat.cast_mul, Nat.cast_pow, Nat.cast_ofNat]
    field_simp

/-- Quarters and steps are compared as what they measure. -/
theorem quarters_le_steps_iff (k : Int) (a c : Nat) :
    a * (m.units k).1 ≤ c * (m.units k).2 ↔ (a : ℚ) * 2 ^ (m.exponent - 2) ≤ c * 10 ^ k := by
  obtain ⟨r, hr, hquarter, hstep⟩ := m.exists_scale k
  rw [← @Nat.cast_le ℚ]
  push_cast
  rw [hquarter, hstep, ← mul_assoc, ← mul_assoc, mul_le_mul_iff_left₀ hr]

theorem steps_le_quarters_iff (k : Int) (a c : Nat) :
    c * (m.units k).2 ≤ a * (m.units k).1 ↔ (c : ℚ) * 10 ^ k ≤ a * 2 ^ (m.exponent - 2) := by
  obtain ⟨r, hr, hquarter, hstep⟩ := m.exists_scale k
  rw [← @Nat.cast_le ℚ]
  push_cast
  rw [hquarter, hstep, ← mul_assoc, ← mul_assoc, mul_le_mul_iff_left₀ hr]

theorem quarters_eq : (m.quarters : ℚ) * 2 ^ (m.exponent - 2) = m.mantissa * 2 ^ m.exponent := by
  rw [quarters, zpow_sub₀ (by norm_num)]
  push_cast
  ring

theorem highEnd_eq : (m.highEnd : ℚ) * 2 ^ (m.exponent - 2) =
    (m.mantissa + 1 / 2) * 2 ^ m.exponent := by
  rw [highEnd, quarters, zpow_sub₀ (by norm_num)]
  push_cast
  ring

variable {m}

theorem Proper.lowEnd_eq (h : m.Proper) : (m.lowEnd : ℚ) * 2 ^ (m.exponent - 2) =
    (m.mantissa - Binary64.reach m.mantissa m.exponent) * 2 ^ m.exponent := by
  have hpos := h.canonical.pos
  rw [lowEnd, quarters, Binary64.reach, h.narrow, zpow_sub₀ (by norm_num)]
  by_cases hnarrow : m.mantissa = 2 ^ 52 ∧ -1074 < m.exponent
  · rw [decide_eq_true hnarrow, if_pos rfl, if_pos hnarrow, Nat.cast_sub (by omega)]
    push_cast
    ring
  · rw [decide_eq_false hnarrow, if_neg Bool.false_ne_true, if_neg hnarrow,
      Nat.cast_sub (by omega)]
    push_cast
    ring

/-- A decimal that is covered rounds to the float. -/
theorem Proper.rounds (h : m.Proper) {k : Int} {c : Nat} (hc : m.covers k c = true) :
    Binary64.Rounds (c * 10 ^ k) m.mantissa m.exponent := by
  rw [covers] at hc
  dsimp only at hc
  split at hc
  next hclosed =>
    rw [Bool.and_eq_true, decide_eq_true_eq, decide_eq_true_eq, quarters_le_steps_iff,
      steps_le_quarters_iff, h.lowEnd_eq, highEnd_eq] at hc
    refine ⟨hc.1, hc.2, fun hodd => ?_⟩
    rw [closed, decide_eq_true_eq] at hclosed
    omega
  next =>
    rw [Bool.and_eq_true, decide_eq_true_eq, decide_eq_true_eq, ← not_le, ← not_le,
      steps_le_quarters_iff, quarters_le_steps_iff, h.lowEnd_eq, highEnd_eq, not_le, not_le] at hc
    exact ⟨hc.1.le, hc.2.le, fun _ => hc⟩

/-- A decimal nearer than any end of the interval is covered. -/
theorem Proper.covers (h : m.Proper) {k : Int} {c : Nat}
    (hlow : (m.mantissa - Binary64.reach m.mantissa m.exponent) * 2 ^ m.exponent < c * 10 ^ k)
    (hhigh : c * 10 ^ k < ((m.mantissa : ℚ) + 1 / 2) * 2 ^ m.exponent) : m.covers k c = true := by
  rw [Magnitude.covers]
  dsimp only
  split
  · rw [Bool.and_eq_true, decide_eq_true_eq, decide_eq_true_eq, quarters_le_steps_iff,
      steps_le_quarters_iff, h.lowEnd_eq, highEnd_eq]
    exact ⟨hlow.le, hhigh.le⟩
  · rw [Bool.and_eq_true, decide_eq_true_eq, decide_eq_true_eq, ← not_le, ← not_le,
      steps_le_quarters_iff, quarters_le_steps_iff, h.lowEnd_eq, highEnd_eq, not_le, not_le]
    exact ⟨hlow, hhigh⟩

theorem Proper.pos_of_covers (h : m.Proper) {k : Int} {c : Nat} (hc : m.covers k c = true) :
    0 < c := by
  have hlow := (h.rounds hc).low
  by_contra hzero
  obtain rfl : c = 0 := by omega
  have hm : (1 : ℚ) ≤ m.mantissa := by exact_mod_cast h.canonical.pos
  have hreach := Binary64.reach_le m.mantissa m.exponent
  have hpos : 0 < (m.mantissa - Binary64.reach m.mantissa m.exponent) * (2 : ℚ) ^ m.exponent :=
    mul_pos (by linarith) (Binary64.two_zpow_pos _)
  simp only [Nat.cast_zero, zero_mul] at hlow
  linarith

theorem covers_of_onGrid? {tie : Tie} {k : Int} {c : Nat} (h : m.onGrid? tie k = some c) :
    m.covers k c = true := by
  rw [onGrid?] at h
  dsimp only at h
  split at h
  next => cases h
  next hbelow _ =>
    cases h
    exact hbelow
  next _ habove =>
    cases h
    exact habove
  next hbelow habove =>
    split at h
    · cases h
      exact hbelow
    · cases h
      exact habove
    · split at h
      · cases h
        exact hbelow
      · cases h
        exact habove

/-- The float lies between the two decimals next to it. -/
theorem below_le (m : Magnitude) (k : Int) :
    ((m.quarters * (m.units k).1 / (m.units k).2 : Nat) : ℚ) * 10 ^ k ≤
        m.mantissa * 2 ^ m.exponent ∧
      m.mantissa * 2 ^ m.exponent <
        ((m.quarters * (m.units k).1 / (m.units k).2 + 1 : Nat) : ℚ) * 10 ^ k := by
  have hstep : 0 < (m.units k).2 := Nat.mul_pos (Nat.two_pow_pos _) (Nat.pow_pos (by decide))
  generalize hbelow : m.quarters * (m.units k).1 / (m.units k).2 = below
  have hle : below * (m.units k).2 ≤ m.quarters * (m.units k).1 := hbelow ▸ Nat.div_mul_le_self _ _
  have hlt : ¬(below + 1) * (m.units k).2 ≤ m.quarters * (m.units k).1 := by
    rw [not_le, ← Nat.div_lt_iff_lt_mul hstep]
    omega
  rw [steps_le_quarters_iff, quarters_eq] at hle hlt
  exact ⟨hle, not_le.1 hlt⟩

/-- A grid of seventeen digits has a decimal that stands for the float. -/
theorem Proper.exists_onGrid? (h : m.Proper) (tie : Tie) {k : Int}
    (hk : (10 : ℚ) ^ k * 10 ^ 16 ≤ m.mantissa * 2 ^ m.exponent) : ∃ c, m.onGrid? tie k = some c := by
  obtain ⟨hbelow, habove⟩ := m.below_le k
  have hor : m.covers k (m.quarters * (m.units k).1 / (m.units k).2) = true ∨
      m.covers k (m.quarters * (m.units k).1 / (m.units k).2 + 1) = true := by
    generalize m.quarters * (m.units k).1 / (m.units k).2 = below at hbelow habove ⊢
    push_cast at habove
    have hu := Binary64.two_zpow_pos m.exponent
    have hreach : Binary64.reach m.mantissa m.exponent = 1 / 4 ∧ m.mantissa = 2 ^ 52 ∨
        Binary64.reach m.mantissa m.exponent = 1 / 2 := by
      rw [Binary64.reach]
      split
      next hnarrow => exact .inl ⟨rfl, hnarrow.1⟩
      next => exact .inr rfl
    have hlt : (m.mantissa : ℚ) < 2 ^ 53 := by exact_mod_cast h.canonical.lt
    rcases hreach with ⟨hreach, hm⟩ | hreach
    · -- a power of two: the decimal above is near enough
      right
      rw [hm] at hk hbelow habove
      push_cast at hk hbelow habove
      refine h.covers ?_ ?_
      · rw [hreach, hm]
        push_cast
        linarith
      · rw [hm]
        push_cast
        linarith
    · by_cases hnear : m.mantissa * 2 ^ m.exponent - below * 10 ^ k < 1 / 2 * (2 : ℚ) ^ m.exponent
      · left
        refine h.covers ?_ ?_
        · rw [hreach]
          linarith
        · linarith
      · right
        have hstep : (10 : ℚ) ^ k * 10 ^ 16 < 2 ^ 53 * 2 ^ m.exponent := hk.trans_lt (by gcongr)
        refine h.covers ?_ ?_ <;> push_cast
        · rw [hreach]
          linarith
        · linarith
  rw [onGrid?]
  dsimp only
  split
  next hfalse hfalse' => simp_all
  next => exact ⟨_, rfl⟩
  next => exact ⟨_, rfl⟩
  next => split <;> exact ⟨_, rfl⟩

/-- The guess at the first digit, for every power of two that a float can have. -/
theorem guess_le : ∀ p ∈ Finset.Icc (-1074 : Int) 1023,
    10 ^ (p * 30103 / 100000).toNat * 2 ^ (-p).toNat ≤
      2 ^ p.toNat * 10 ^ (-(p * 30103 / 100000)).toNat := by
  decide +kernel

/-- The power of ten of the first digit is not larger than the float. -/
theorem Proper.firstExponent_le (h : m.Proper) :
    (10 : ℚ) ^ m.firstExponent ≤ m.mantissa * 2 ^ m.exponent := by
  obtain ⟨hpos, hlt, hleast, hgreatest, -⟩ := h.canonical
  rw [firstExponent]
  dsimp only
  generalize hguess : ((m.mantissa.log2 : Int) + m.exponent) * 30103 / 100000 = guess
  split
  next hstep =>
    have hone : 1 * (m.units (guess + 1)).2 ≤ m.quarters * (m.units (guess + 1)).1 := by
      rwa [one_mul]
    rw [steps_le_quarters_iff, quarters_eq] at hone
    simpa using hone
  next =>
    have hlog := (Nat.log2_lt hpos.ne').2 hlt
    have hpow := guess_le (m.mantissa.log2 + m.exponent) (Finset.mem_Icc.2 ⟨by omega, by omega⟩)
    rw [hguess] at hpow
    generalize hp : (m.mantissa.log2 : Int) + m.exponent = p at hpow
    have hcast : (10 : ℚ) ^ guess.toNat * 2 ^ (-p).toNat ≤ 2 ^ p.toNat * 10 ^ (-guess).toNat := by
      exact_mod_cast hpow
    have hmantissa : (2 : ℚ) ^ (m.mantissa.log2 : Int) ≤ m.mantissa := by
      exact_mod_cast Nat.log2_self_le hpos.ne'
    calc (10 : ℚ) ^ guess ≤ 2 ^ p := by
          rw [Binary64.zpow_eq_div (by norm_num), Binary64.zpow_eq_div (by norm_num) p,
            div_le_div_iff₀ (by positivity) (by positivity)]
          exact hcast
      _ = 2 ^ (m.mantissa.log2 : Int) * 2 ^ m.exponent := by rw [← hp, Binary64.two_zpow_add]
      _ ≤ m.mantissa * 2 ^ m.exponent := by gcongr

end

end Magnitude

/-- The number that digits write. -/
def Digits.value (d : Digits) : ℚ := d.coefficient * 10 ^ d.exponent

theorem Digits.trimmed_value (d : Digits) (hpos : 0 < d.coefficient) :
    d.trimmed.value = d.value ∧ 0 < d.trimmed.coefficient := by
  rw [trimmed]
  generalize d.coefficient.log2 + 1 = n
  induction n generalizing d with
  | zero => exact ⟨rfl, hpos⟩
  | succ n ih =>
    rw [trimmed.go]
    split
    next hzero =>
      rw [Bool.and_eq_true, decide_eq_true_eq] at hzero
      obtain ⟨hvalue, hpos'⟩ := ih ⟨d.coefficient / 10, d.exponent + 1⟩ (by
        have := hzero.1
        simp only
        omega)
      refine ⟨hvalue.trans ?_, hpos'⟩
      have hten : (d.coefficient : ℚ) = (d.coefficient / 10 : Nat) * 10 := by
        exact_mod_cast (Nat.div_mul_cancel (Nat.dvd_of_mod_eq_zero hzero.1)).symm
      rw [value, value, hten, zpow_add_one₀ (by norm_num)]
      ring
    next => exact ⟨rfl, hpos⟩

/-- The shortest digits round to the float. -/
theorem Magnitude.Proper.shortest {m : Magnitude} (h : m.Proper) (tie : Tie) :
    0 < (m.shortest tie).coefficient ∧
      Binary64.Rounds (m.shortest tie).value m.mantissa m.exponent := by
  have hsome : ∃ d, ((List.range 17).map fun n : Nat => m.firstExponent - n).findSome?
      (fun k => (m.onGrid? tie k).map (Digits.mk · k)) = some d := by
    rw [← Option.isSome_iff_exists, List.findSome?_isSome_iff]
    have hk : (10 : ℚ) ^ (m.firstExponent - 16) * 10 ^ 16 ≤ m.mantissa * 2 ^ m.exponent := by
      rw [zpow_sub₀ (by norm_num)]
      have hfirst := h.firstExponent_le
      norm_num
      linarith
    obtain ⟨c, hc⟩ := h.exists_onGrid? tie hk
    refine ⟨m.firstExponent - 16, List.mem_map.2 ⟨16, by decide, rfl⟩, ?_⟩
    rw [hc]
    rfl
  obtain ⟨d, hd⟩ := hsome
  obtain ⟨k, -, hk⟩ := List.exists_of_findSome?_eq_some hd
  obtain ⟨c, hc, rfl⟩ := Option.map_eq_some_iff.1 hk
  have hcovers := covers_of_onGrid? hc
  obtain ⟨hvalue, hpos⟩ := Digits.trimmed_value ⟨c, k⟩ (h.pos_of_covers hcovers)
  rw [Magnitude.shortest]
  simp only [hd]
  exact ⟨hpos, hvalue ▸ h.rounds hcovers⟩

/-! ### Bits -/

section
variable {s : UnpackedFloat.Sign} {e : BitVec 11} {m : BitVec 52} {bits : UInt64}

theorem toNat_of_packComponents
    (h : bits.toBitVec = UnpackedFloat.packComponents .binary64 s e m) :
    bits.toNat = s.toBitVec.toNat * 2 ^ 63 + e.toNat * 2 ^ 52 + m.toNat := by
  have happend : bits.toBitVec.toNat = ((s.toBitVec ++ e) ++ m).toNat := congrArg BitVec.toNat h
  rw [UInt64.toNat_toBitVec] at happend
  rw [happend, BitVec.toNat_append, BitVec.toNat_append, ← Nat.shiftLeft_add_eq_or_of_lt m.isLt,
    ← Nat.shiftLeft_add_eq_or_of_lt e.isLt, Nat.shiftLeft_eq, Nat.shiftLeft_eq]
  ring

theorem ofBits_of_packComponents
    (h : bits.toBitVec = UnpackedFloat.packComponents .binary64 s e m) :
    Magnitude.ofBits bits = if e.toNat = 0 then ⟨m.toNat, -1074, false⟩
      else ⟨m.toNat + 2 ^ 52, e.toNat - 1075, m.toNat = 0 && 1 < e.toNat⟩ := by
  have hbits := toNat_of_packComponents h
  have hm := m.isLt
  have he := e.isLt
  have hs := s.toBitVec.isLt
  have hfraction : (bits &&& 0x000fffffffffffff).toNat = m.toNat := by
    rw [UInt64.toNat_and]
    change bits.toNat &&& (2 ^ 52 - 1) = _
    rw [Nat.and_two_pow_sub_one_eq_mod, hbits]
    omega
  have hbiased : ((bits >>> 52) &&& 0x7ff).toNat = e.toNat := by
    rw [UInt64.toNat_and, UInt64.toNat_shiftRight]
    change bits.toNat >>> 52 &&& (2 ^ 11 - 1) = _
    rw [Nat.and_two_pow_sub_one_eq_mod, Nat.shiftRight_eq_div_pow, hbits]
    omega
  rw [Magnitude.ofBits, hfraction, hbiased]
  rfl

theorem sign_of_packComponents
    (h : bits.toBitVec = UnpackedFloat.packComponents .binary64 s e m) :
    bits >>> 63 = 1 ↔ s = .negative := by
  have hbits := toNat_of_packComponents h
  have hm := m.isLt
  have he := e.isLt
  rw [← UInt64.toNat_inj, UInt64.toNat_shiftRight]
  change bits.toNat >>> 63 = 1 ↔ _
  rw [Nat.shiftRight_eq_div_pow, hbits]
  cases s with
  | negative =>
    change (1 * 2 ^ 63 + _ + _) / 2 ^ 63 = 1 ↔ _
    simp only [iff_true]
    omega
  | positive =>
    change (0 * 2 ^ 63 + _ + _) / 2 ^ 63 = 1 ↔ _
    simp only [reduceCtorEq, iff_false]
    omega

end

/-- The bits of a float say what it is. -/
theorem ofBits_finite {s : UnpackedFloat.Sign} {m : Nat} {e : Int} (h : Binary64.Canonical m e) :
    (Magnitude.ofBits (Float.Model.pack (.finite s m e h.pos)).toBits =
      ⟨m, e, decide (m = 2 ^ 52 ∧ -1074 < e)⟩) ∧
    ((Float.Model.pack (.finite s m e h.pos)).toBits >>> 63 = 1 ↔ s = .negative) := by
  obtain ⟨hpos, hlt, hleast, hgreatest, hnormal⟩ := h
  by_cases hm : 2 ^ 52 ≤ m
  · have hpack : (Float.Model.pack (.finite s m e hpos)).toBits.toBitVec = _ :=
      Binary64.pack_normal hm hlt hleast hgreatest hpos
    have hexp : (BitVec.ofNat 11 (e + 1075).toNat).toNat = (e + 1075).toNat := by
      rw [BitVec.toNat_ofNat, Nat.mod_eq_of_lt (by omega)]
    have hmantissa : (BitVec.ofNat 52 m).toNat = m - 2 ^ 52 := by
      rw [BitVec.toNat_ofNat]
      omega
    refine ⟨?_, sign_of_packComponents hpack⟩
    have hwhole : m - 2 ^ 52 + 2 ^ 52 = m := by omega
    have hexp' : ((e + 1075).toNat : Int) - 1075 = e := by omega
    have hnarrow : (decide (m - 2 ^ 52 = 0) && decide (1 < (e + 1075).toNat)) =
        decide (m = 2 ^ 52 ∧ -1074 < e) := by
      rw [← Bool.decide_and, decide_eq_decide]
      omega
    rw [ofBits_of_packComponents hpack, hexp, hmantissa, if_neg (by omega), hwhole, hexp', hnarrow]
  · obtain rfl : e = -1074 := by omega
    have hpack : (Float.Model.pack (.finite s m (-1074) hpos)).toBits.toBitVec = _ :=
      Binary64.pack_subnormal (by omega) hpos
    have hmantissa : (BitVec.ofNat 52 m).toNat = m := by
      rw [BitVec.toNat_ofNat, Nat.mod_eq_of_lt (by omega)]
    refine ⟨?_, sign_of_packComponents hpack⟩
    have hnarrow : decide (m = 2 ^ 52 ∧ (-1074 : Int) < -1074) = false := by simp
    rw [ofBits_of_packComponents hpack, hmantissa, hnarrow]
    rfl

end Decimal

end Covenant
