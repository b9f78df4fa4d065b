import Covenant.Proofs.Binary64

/-! Rounding to floats. A mantissa with two residual bits stands for a number or for the numbers
between two neighbours of a half; shifting it to the right halves what it stands for. So a number
that is nearer to a float than to any other is rounded to that float, whether it comes as a
product or as a quotient. -/

namespace Covenant.Binary64

open Float.Model Float.Model.UnpackedFloat

/-! ### Residual bits -/

/-- The mantissa and its residual bits stand for the number. -/
def Represents (em : ExtendedMantissa) (x : ℚ) : Prop :=
  match em.roundBit, em.stickyBit with
  | false, false => x = em.mantissa
  | false, true => em.mantissa < x ∧ x < em.mantissa + 1 / 2
  | true, false => x = em.mantissa + 1 / 2
  | true, true => em.mantissa + 1 / 2 < x ∧ x < em.mantissa + 1

theorem represents_exact (m : Nat) :
    Represents (ExtendedMantissa.ofMantissaAndAccuracy m .exact) m := rfl

section
variable {em : ExtendedMantissa} {x : ℚ}

theorem Represents.bounds (h : Represents em x) : (em.mantissa : ℚ) ≤ x ∧ x < em.mantissa + 1 := by
  obtain ⟨m, r, s⟩ := em
  cases r <;> cases s <;> simp only [Represents] at h <;> constructor <;> linarith

theorem Represents.shiftRightOne (h : Represents em x) : Represents em.shiftRightOne (x / 2) := by
  obtain ⟨m, r, s⟩ := em
  have hm : (m : ℚ) = 2 * (m / 2 : Nat) + (m % 2 : Nat) := by
    exact_mod_cast (Nat.div_add_mod m 2).symm
  rcases Nat.mod_two_eq_zero_or_one m with hmod | hmod <;> rw [hmod] at hm <;> cases r <;> cases s <;>
    simp only [Represents, ExtendedMantissa.shiftRightOne, hmod, bne_self_eq_false,
      Nat.reduceBNe, Bool.or_self, Bool.or_true, Bool.true_or, Nat.cast_zero, Nat.cast_one] at h hm ⊢ <;>
    first
    | linarith
    | exact ⟨by linarith, by linarith⟩

theorem Represents.shiftRight (h : Represents em x) (n : Nat) :
    Represents (em >>> n) (x / 2 ^ n) := by
  change Represents (n.repeat ExtendedMantissa.shiftRightOne em) _
  induction n with
  | zero => simpa [Nat.repeat] using h
  | succ n ih =>
    have hstep := ih.shiftRightOne
    rwa [div_div, ← pow_succ] at hstep

/-- A number next to no natural number but one is rounded to that; half way between two it is
rounded to the even one. -/
theorem Represents.roundedMantissa_eq (h : Represents em x) {m : Nat} (hlow : (m : ℚ) - 1 / 2 ≤ x)
    (hhigh : x ≤ m + 1 / 2) (htie : m % 2 = 1 → (m : ℚ) - 1 / 2 < x ∧ x < m + 1 / 2) :
    em.roundedMantissa = m := by
  obtain ⟨k, r, s⟩ := em
  cases r <;> cases s <;>
    simp only [Represents, ExtendedMantissa.roundedMantissa, ExtendedMantissa.accuracy,
      Accuracy.roundToNearestEven] at h ⊢
  · have hle : (2 * m : ℚ) ≤ 2 * k + 1 := by linarith
    have hge : (2 * k : ℚ) ≤ 2 * m + 1 := by linarith
    norm_cast at hle hge
    omega
  · have hle : (m : ℚ) < k + 1 := by linarith
    have hge : (k : ℚ) < m + 1 := by linarith
    norm_cast at hle hge
    omega
  · have hle : (m : ℚ) ≤ k + 1 := by linarith
    have hge : (k : ℚ) ≤ m := by linarith
    norm_cast at hle hge
    by_cases hodd : m % 2 = 1
    · obtain ⟨hlt, hgt⟩ := htie hodd
      have hle' : (m : ℚ) < k + 1 := by linarith
      have hge' : (k : ℚ) < m := by linarith
      norm_cast at hle' hge'
      omega
    · omega
  · have hle : (m : ℚ) < k + 2 := by linarith
    have hge : (k : ℚ) < m := by linarith
    norm_cast at hle hge
    omega

end

/-! ### Exponents -/

theorem targetExponent_eq (t : Int) :
    Format.binary64.targetExponent t = max (t - 53) (-1074) := rfl

theorem Canonical.targetExponent {m : Nat} {e : Int} (h : Canonical m e) :
    Format.binary64.targetExponent (totalExponent m e) = e := by
  obtain ⟨hpos, hlt, hleast, hgreatest, hnormal⟩ := h
  rw [targetExponent_eq, totalExponent]
  rcases hnormal with hm | he
  · rw [log2_of_normal hm hlt]
    omega
  · have hlog := (Nat.log2_lt hpos.ne').2 hlt
    omega

theorem two_zpow_pos (e : Int) : (0 : ℚ) < 2 ^ e := zpow_pos (by norm_num) e

theorem two_zpow_add (a b : Int) : (2 : ℚ) ^ (a + b) = 2 ^ a * 2 ^ b :=
  zpow_add₀ (by norm_num) a b

theorem zpow_eq_div {b : ℚ} (hb : b ≠ 0) (e : Int) : b ^ e = b ^ e.toNat / b ^ (-e).toNat := by
  have hexp : e = e.toNat - (-e).toNat := by omega
  conv_lhs => rw [hexp, zpow_sub₀ hb, zpow_natCast, zpow_natCast]

theorem lt_of_two_zpow_lt {a b : Int} (h : (2 : ℚ) ^ a < 2 ^ b) : a < b :=
  (zpow_lt_zpow_iff_right₀ (by norm_num)).1 h

section
variable {k : Nat} {f : Int} {x : ℚ}

theorem lt_two_zpow_totalExponent (h : x < (k + 1) * 2 ^ f) : x < 2 ^ totalExponent k f := by
  have hlog : k + 1 ≤ 2 ^ (k.log2 + 1) := Nat.lt_log2_self
  have hcast : (k + 1 : ℚ) ≤ 2 ^ ((k.log2 : Int) + 1) := by exact_mod_cast hlog
  calc x < (k + 1) * 2 ^ f := h
    _ ≤ 2 ^ ((k.log2 : Int) + 1) * 2 ^ f := by gcongr
    _ = 2 ^ totalExponent k f := (two_zpow_add _ _).symm

theorem two_zpow_totalExponent_le (hk : 0 < k) (h : k * 2 ^ f ≤ x) :
    2 ^ (totalExponent k f - 1) ≤ x := by
  have hlog : 2 ^ k.log2 ≤ k := Nat.log2_self_le hk.ne'
  have hcast : (2 : ℚ) ^ (k.log2 : Int) ≤ k := by exact_mod_cast hlog
  have hexp : totalExponent k f - 1 = k.log2 + f := by
    rw [totalExponent]
    omega
  rw [hexp, two_zpow_add]
  calc (2 : ℚ) ^ (k.log2 : Int) * 2 ^ f ≤ k * 2 ^ f := by gcongr
    _ ≤ x := h

theorem shiftToTargetExponent_eq {accuracy : Accuracy} {e : Int}
    (h : Format.binary64.targetExponent (totalExponent k f) = e) (hle : f ≤ e) :
    shiftToTargetExponent .binary64 k f accuracy =
      (ExtendedMantissa.ofMantissaAndAccuracy k accuracy >>> (e - f).toNat, e) := by
  have hexp : f + (e - f).toNat = e := by omega
  rw [shiftToTargetExponent, h, shiftToExponent, hexp]

end

/-! ### The numbers that round to a float -/

/-- How far the numbers that round to a float go below it, in units of its last place. Below a
power of two the next float is half as far away. -/
def reach (m : Nat) (e : Int) : ℚ := if m = 2 ^ 52 ∧ -1074 < e then 1 / 4 else 1 / 2

theorem reach_le (m : Nat) (e : Int) : reach m e ≤ 1 / 2 := by
  rw [reach]
  split <;> norm_num

/-- No float is nearer to the number, and if there is another as near, the mantissa is even. -/
structure Rounds (x : ℚ) (m : Nat) (e : Int) : Prop where
  low : (m - reach m e) * 2 ^ e ≤ x
  high : x ≤ (m + 1 / 2) * 2 ^ e
  tie : m % 2 = 1 → (m - reach m e) * 2 ^ e < x ∧ x < (m + 1 / 2) * 2 ^ e

section
variable {x : ℚ} {m : Nat} {e : Int}

theorem Rounds.lt_two_zpow (h : Rounds x m e) (hm : m < 2 ^ 53) : x < 2 ^ (e + 53) := by
  have hcast : (m : ℚ) + 1 / 2 < 2 ^ (53 : Int) := by
    have hle : (m : ℚ) + 1 ≤ 2 ^ 53 := by exact_mod_cast hm
    norm_num at hle ⊢
    linarith
  calc x ≤ (m + 1 / 2) * 2 ^ e := h.high
    _ < 2 ^ (53 : Int) * 2 ^ e := by gcongr
    _ = 2 ^ (e + 53) := by rw [two_zpow_add, mul_comm]

theorem Rounds.two_zpow_lt (h : Rounds x m e) (hm : 2 ^ 52 ≤ m) : 2 ^ (e + 51) < x := by
  have hcast : (2 : ℚ) ^ (51 : Int) < m - reach m e := by
    have hle : (2 ^ 52 : ℚ) ≤ m := by exact_mod_cast hm
    have hreach := reach_le m e
    norm_num
    linarith
  calc (2 : ℚ) ^ (e + 51) = 2 ^ (51 : Int) * 2 ^ e := by rw [two_zpow_add, mul_comm]
    _ < (m - reach m e) * 2 ^ e := by gcongr
    _ ≤ x := h.low

theorem Rounds.eq_of_lt (h : Rounds x m e) (hm : 2 ^ 52 ≤ m) (hx : x < 2 ^ (e + 52)) :
    m = 2 ^ 52 := by
  by_contra hne
  have hlt : 2 ^ 52 + 1 ≤ m := by omega
  have hcast : (2 : ℚ) ^ (52 : Int) < m - reach m e := by
    have hle : (2 ^ 52 + 1 : ℚ) ≤ m := by exact_mod_cast hlt
    have hreach := reach_le m e
    norm_num
    linarith
  have hgt : (2 : ℚ) ^ (e + 52) < x := by
    calc (2 : ℚ) ^ (e + 52) = 2 ^ (52 : Int) * 2 ^ e := by rw [two_zpow_add, mul_comm]
      _ < (m - reach m e) * 2 ^ e := by gcongr
      _ ≤ x := h.low
  linarith

/-- The exponent to which a number is brought before it is rounded is that of the float, or one
less where the number is below the float and the float is a power of two. -/
theorem Rounds.exponent_cases (h : Rounds x m e) (hc : Canonical m e) {t : Int} (hlt : x < 2 ^ t)
    (hle : 2 ^ (t - 1) ≤ x ∨ t ≤ -1073) :
    Format.binary64.targetExponent t = e ∨ m = 2 ^ 52 ∧ -1074 < e ∧ x < 2 ^ (e + 52) ∧
      Format.binary64.targetExponent t = e - 1 := by
  have hleast := hc.least
  have hupper : t ≤ e + 53 := by
    rcases hle with hle | hle
    · have hlt' := lt_of_two_zpow_lt (lt_of_le_of_lt hle (h.lt_two_zpow hc.lt))
      omega
    · omega
  rw [targetExponent_eq]
  by_cases he : e = -1074
  · exact .inl (by omega)
  · have hm := hc.normal.resolve_right he
    have hlower := lt_of_two_zpow_lt ((h.two_zpow_lt hm).trans hlt)
    by_cases ht : t = e + 52
    · have hx : x < 2 ^ (e + 52) := ht ▸ hlt
      exact .inr ⟨h.eq_of_lt hm hx, by omega, hx, by omega⟩
    · exact .inl (by omega)

theorem Rounds.div_bounds (h : Rounds x m e) : m - reach m e ≤ x / 2 ^ e ∧ x / 2 ^ e ≤ m + 1 / 2 ∧
    (m % 2 = 1 → m - reach m e < x / 2 ^ e ∧ x / 2 ^ e < m + 1 / 2) := by
  have hpos := two_zpow_pos e
  exact ⟨(le_div_iff₀ hpos).2 h.low, (div_le_iff₀ hpos).2 h.high,
    fun hodd => ⟨(lt_div_iff₀ hpos).2 (h.tie hodd).1, (div_lt_iff₀ hpos).2 (h.tie hodd).2⟩⟩

theorem roundWithAccuracy_of_shifts {s : Sign} {k : Nat} {f e₁ : Int} {accuracy : Accuracy}
    {em : ExtendedMantissa} (hfirst : shiftToTargetExponent .binary64 k f accuracy = (em, e₁))
    (hm : 0 < m) (hsecond : ∃ em', shiftToTargetExponent .binary64 em.roundedMantissa e₁ .exact =
      (em', e) ∧ em'.mantissa = m) :
    roundWithAccuracy .binary64 s k f accuracy = .finite s m e hm := by
  obtain ⟨em', hsecond, rfl⟩ := hsecond
  simp only [roundWithAccuracy, hfirst, hsecond, dif_neg hm.ne']

theorem Represents.shiftTo {em : ExtendedMantissa} {f e₁ : Int} (h : Represents em (x / 2 ^ f))
    (hle : f ≤ e₁) : Represents (em >>> (e₁ - f).toNat) (x / 2 ^ e₁) := by
  have hexp : (2 : ℚ) ^ e₁ = 2 ^ f * 2 ^ (e₁ - f).toNat := by
    rw [← zpow_natCast, ← two_zpow_add]
    congr 1
    omega
  have hshifted := h.shiftRight (e₁ - f).toNat
  rwa [div_div, ← hexp] at hshifted

/-- Just below a power of two the mantissa is rounded up to one that is too long. -/
theorem Rounds.roundedMantissa_below (h : Rounds x (2 ^ 52) e) (hleast : -1074 < e)
    (hx : x < 2 ^ (e + 52)) {em : ExtendedMantissa} (hrep : Represents em (x / 2 ^ (e - 1))) :
    em.roundedMantissa = 2 ^ 53 := by
  have hlow := h.div_bounds.1
  have hdouble : x / 2 ^ (e - 1) = 2 * (x / 2 ^ e) := by
    rw [zpow_sub_one₀ (by norm_num)]
    ring
  have hquarter : reach (2 ^ 52) e = 1 / 4 := if_pos ⟨rfl, hleast⟩
  have hless : x / 2 ^ e < 2 ^ 52 := by
    rw [div_lt_iff₀ (two_zpow_pos e)]
    rwa [add_comm, two_zpow_add] at hx
  refine hrep.roundedMantissa_eq ?_ ?_ fun hodd => absurd hodd (by decide)
  · rw [hdouble]
    norm_num [hquarter] at hlow ⊢
    linarith
  · rw [hdouble]
    norm_num at hless ⊢
    linarith

/-- A number that is known to the last place of what it is rounded to is rounded to the float next
to it. -/
theorem roundWithAccuracy_eq {s : Sign} {k : Nat} {f : Int} {accuracy : Accuracy}
    (hrep : Represents (ExtendedMantissa.ofMantissaAndAccuracy k accuracy) (x / 2 ^ f))
    (hfine : f ≤ Format.binary64.targetExponent (totalExponent k f)) (h : Rounds x m e)
    (hc : Canonical m e) :
    roundWithAccuracy .binary64 s k f accuracy = .finite s m e hc.pos := by
  have hbounds := hrep.bounds
  have hmantissa : (ExtendedMantissa.ofMantissaAndAccuracy k accuracy).mantissa = k := by
    rcases accuracy with _ | (_ | _ | _) <;> rfl
  rw [hmantissa, le_div_iff₀ (two_zpow_pos f), div_lt_iff₀ (two_zpow_pos f)] at hbounds
  generalize ht : totalExponent k f = t at hfine
  -- a number below the first place of `f` is known to the last place only where that is the least
  have hle : 2 ^ (t - 1) ≤ x ∨ t ≤ -1073 := by
    rcases Nat.eq_zero_or_pos k with rfl | hk
    · right
      rw [targetExponent_eq] at hfine
      rw [totalExponent] at ht
      simp only [Nat.log2_zero] at ht
      omega
    · exact .inl (ht ▸ two_zpow_totalExponent_le hk hbounds.1)
  have hcases := h.exponent_cases hc (ht ▸ lt_two_zpow_totalExponent hbounds.2) hle
  generalize he₁ : Format.binary64.targetExponent t = e₁ at hfine hcases
  have hshift := hrep.shiftTo hfine
  refine roundWithAccuracy_of_shifts (shiftToTargetExponent_eq (ht ▸ he₁) hfine) hc.pos ?_
  have hreach := reach_le m e
  obtain ⟨hlow, hhigh, htie⟩ := h.div_bounds
  rcases hcases with rfl | ⟨rfl, hleast, hx, rfl⟩
  · have hround := hshift.roundedMantissa_eq (by linarith) hhigh
      fun hodd => ⟨by linarith [(htie hodd).1], (htie hodd).2⟩
    rw [hround, shiftToTargetExponent_eq hc.targetExponent le_rfl, Int.sub_self]
    exact ⟨_, rfl, rfl⟩
  · have hround := h.roundedMantissa_below hleast hx hshift
    have htarget : Format.binary64.targetExponent (totalExponent (2 ^ 53) (e - 1)) = e := by
      rw [targetExponent_eq, totalExponent, Nat.log2_two_pow]
      omega
    have hone : (e - (e - 1)).toNat = 1 := by omega
    rw [hround, shiftToTargetExponent_eq htarget (by omega), hone]
    exact ⟨_, rfl, rfl⟩

end

/-! ### Products and quotients -/

theorem log2_mul_two_pow {k : Nat} (hk : 0 < k) (n : Nat) : (k * 2 ^ n).log2 = k.log2 + n := by
  induction n with
  | zero => simp
  | succ n ih =>
    have hne : k * 2 ^ n ≠ 0 := by positivity
    have hdouble : k * 2 ^ (n + 1) = 2 * (k * 2 ^ n) := by ring
    rw [hdouble, Nat.log2_two_mul hne, ih]
    omega

section
variable {s s₁ s₂ : Sign} {k₁ k₂ m : Nat} {f₁ f₂ e : Int} (h₁ : 0 < k₁) (h₂ : 0 < k₂)
  (hc : Canonical m e)

theorem mul_eq (hfine : f₁ + f₂ ≤ Format.binary64.targetExponent (totalExponent (k₁ * k₂) (f₁ + f₂)))
    (h : Rounds (k₁ * k₂ * 2 ^ (f₁ + f₂)) m e) :
    UnpackedFloat.mul .binary64 (.finite s₁ k₁ f₁ h₁) (.finite s₂ k₂ f₂ h₂) =
      .finite (s₁ * s₂) m e hc.pos := by
  refine roundWithAccuracy_eq ?_ hfine h hc
  rw [mul_div_cancel_right₀ _ (two_zpow_pos _).ne', ← Nat.cast_mul]
  exact represents_exact _

theorem represents_quotient (n : Nat) {d : Nat} (hd : 0 < d) :
    Represents (ExtendedMantissa.ofMantissaAndAccuracy (n / d) (accuracyOfFraction (n % d) d))
      (n / d) := by
  have hd' : (0 : ℚ) < d := by exact_mod_cast hd
  have hlt : n % d < d := Nat.mod_lt n hd
  have hsum : (n : ℚ) / d = (n / d : Nat) + (n % d : Nat) / d := by
    have hcast : (n : ℚ) = d * (n / d : Nat) + (n % d : Nat) := by
      exact_mod_cast (Nat.div_add_mod n d).symm
    field_simp
    linarith
  generalize n % d = r at hlt hsum ⊢
  rw [hsum, accuracyOfFraction]
  have hless : (r : ℚ) / d < 1 := by
    rw [div_lt_one hd']
    exact_mod_cast hlt
  by_cases hr : r = 0
  · simp [hr, Represents, ExtendedMantissa.ofMantissaAndAccuracy]
  · have hpos : (0 : ℚ) < r / d := by positivity
    rw [if_neg hr]
    rcases Nat.lt_trichotomy (2 * r) d with h | h | h
    · have hhalf : (r : ℚ) / d < 1 / 2 := by
        rw [div_lt_div_iff₀ hd' (by norm_num)]
        have hcast : (2 * r : ℚ) < d := by exact_mod_cast h
        linarith
      rw [Nat.compare_eq_lt.2 h]
      simp only [Represents, ExtendedMantissa.ofMantissaAndAccuracy]
      exact ⟨by linarith, by linarith⟩
    · have hhalf : (r : ℚ) / d = 1 / 2 := by
        rw [div_eq_div_iff hd'.ne' (by norm_num)]
        have hcast : (2 * r : ℚ) = d := by exact_mod_cast h
        linarith
      rw [Nat.compare_eq_eq.2 h]
      exact congrArg _ hhalf
    · have hhalf : 1 / 2 < (r : ℚ) / d := by
        rw [div_lt_div_iff₀ (by norm_num) hd']
        have hcast : (d : ℚ) < 2 * r := by exact_mod_cast h
        linarith
      rw [Nat.compare_eq_gt.2 h]
      simp only [Represents, ExtendedMantissa.ofMantissaAndAccuracy]
      exact ⟨by linarith, by linarith⟩

/-- The quotient of the mantissas is brought to as many places as a float has. -/
theorem divCore_fine (h₁ : 0 < k₁) (h₂ : 0 < k₂) : ∃ (t : Int) (n : Nat), f₁ - f₂ = n + t ∧
    divCore .binary64 k₁ f₁ k₂ f₂ =
      (k₁ * 2 ^ n / k₂, t, accuracyOfFraction (k₁ * 2 ^ n % k₂) k₂) ∧
    t ≤ Format.binary64.targetExponent (totalExponent (k₁ * 2 ^ n / k₂) t) := by
  generalize ht : min (f₁ - f₂) (Format.binary64.targetExponent
    (totalExponent k₁ f₁ - totalExponent k₂ f₂)) = t
  generalize hn : (f₁ - f₂ - t).toNat = n
  refine ⟨t, n, by omega, ?_, ?_⟩
  · simp only [divCore, ht, hn, Nat.shiftLeft_eq]
  · rw [targetExponent_eq] at ht ⊢
    by_cases hleast : t ≤ -1074
    · omega
    · have hlong : 2 ^ 52 ≤ k₁ * 2 ^ n / k₂ := by
        rw [Nat.le_div_iff_mul_le h₂]
        simp only [totalExponent] at ht
        have hexp : 52 + (k₂.log2 + 1) ≤ k₁.log2 + n := by omega
        calc 2 ^ 52 * k₂ ≤ 2 ^ 52 * 2 ^ (k₂.log2 + 1) := by gcongr; exact Nat.lt_log2_self.le
          _ = 2 ^ (52 + (k₂.log2 + 1)) := (pow_add _ _ _).symm
          _ ≤ 2 ^ (k₁.log2 + n) := Nat.pow_le_pow_right (by norm_num) hexp
          _ = 2 ^ k₁.log2 * 2 ^ n := pow_add _ _ _
          _ ≤ k₁ * 2 ^ n := by gcongr; exact Nat.log2_self_le h₁.ne'
      have hlog := (Nat.le_log2 (by omega)).2 hlong
      rw [totalExponent]
      omega

theorem div_eq (h : Rounds (k₁ / k₂ * 2 ^ (f₁ - f₂)) m e) :
    UnpackedFloat.div .binary64 (.finite s₁ k₁ f₁ h₁) (.finite s₂ k₂ f₂ h₂) =
      .finite (s₁ / s₂) m e hc.pos := by
  obtain ⟨t, n, hexp, hcore, hfine⟩ := @divCore_fine k₁ k₂ f₁ f₂ h₁ h₂
  rw [UnpackedFloat.div, hcore]
  refine roundWithAccuracy_eq ?_ hfine h hc
  have hscale : (k₁ : ℚ) / k₂ * 2 ^ (f₁ - f₂) / 2 ^ t = (k₁ * 2 ^ n : Nat) / k₂ := by
    rw [hexp, two_zpow_add, zpow_natCast, ← mul_assoc, mul_div_cancel_right₀ _ (two_zpow_pos t).ne']
    push_cast
    ring
  rw [hscale]
  exact represents_quotient (k₁ * 2 ^ n) h₂

include h₁ in
theorem round_eq (h : Rounds (k₁ * 2 ^ f₁) m e) :
    UnpackedFloat.round .binary64 s k₁ f₁ = .finite s m e hc.pos := by
  rw [UnpackedFloat.round]
  generalize ht : Format.binary64.targetExponent (totalExponent k₁ f₁) = t
  generalize hn : (f₁ - t).toNat = n
  have hshift : decreaseExponent k₁ f₁ t = (k₁ * 2 ^ n, f₁ - n) := by
    rw [decreaseExponent, hn, Nat.shiftLeft_eq]
  rw [hshift]
  refine roundWithAccuracy_eq ?_ ?_ h hc
  · have hscale : (k₁ : ℚ) * 2 ^ f₁ / 2 ^ (f₁ - n) = (k₁ * 2 ^ n : Nat) := by
      have hexp : f₁ = n + (f₁ - n) := by omega
      rw [hexp, two_zpow_add, zpow_natCast, ← hexp, ← mul_assoc,
        mul_div_cancel_right₀ _ (two_zpow_pos _).ne']
      push_cast
      ring
    rw [hscale]
    exact represents_exact _
  · have htotal : totalExponent (k₁ * 2 ^ n) (f₁ - n) = totalExponent k₁ f₁ := by
      rw [totalExponent, totalExponent, log2_mul_two_pow h₁]
      push_cast
      ring
    rw [htotal, ht]
    omega

end

/-! ### Decimals -/

section
variable {c m : Nat} {k e : Int} (hc : Canonical m e)

theorem model_ofScientific_eq (hpos : 0 < c) (hk : k ≤ 2048) (hk' : -(2048 + c.log2) ≤ k)
    (h : Rounds (c * 10 ^ k) m e) :
    UnpackedFloat.ofScientific .binary64 c k = .finite .positive m e hc.pos := by
  have hlarge : ¬(k > 2 ^ Format.binary64.exponentBits) := by
    change ¬(k > 2048)
    omega
  have hsmall : ¬(k < -((2 ^ Format.binary64.exponentBits : Int) + c.log2)) := by
    change ¬(k < -(2048 + c.log2))
    omega
  rw [UnpackedFloat.ofScientific, dif_neg hpos.ne', if_neg hlarge, if_neg hsmall]
  split
  next hsign =>
    obtain ⟨n, rfl⟩ := Int.eq_ofNat_of_zero_le hsign
    have hbits : c <<< Format.binary64.mantissaBits = c * 2 ^ 53 := Nat.shiftLeft_eq _ _
    have hvalue : ((c * 2 ^ 53 : Nat) : ℚ) * (10 ^ n : Nat) * 2 ^ (-53 + 0 : Int) =
        c * 10 ^ (n : Int) := by
      push_cast
      rw [zpow_natCast]
      norm_num
      ring
    have hlong : 2 ^ 53 ≤ c * 2 ^ 53 * 10 ^ n := by
      have hprod : 1 ≤ c * 10 ^ n := Nat.one_le_iff_ne_zero.2 (by positivity)
      calc 2 ^ 53 ≤ 2 ^ 53 * (c * 10 ^ n) := Nat.le_mul_of_pos_right _ hprod
        _ = c * 2 ^ 53 * 10 ^ n := by ring
    simp only [hbits]
    refine mul_eq _ _ hc ?_ (hvalue ▸ h)
    have hlog := (Nat.le_log2 (by omega)).2 hlong
    rw [targetExponent_eq, totalExponent, Int.toNat_natCast]
    omega
  next hsign =>
    obtain ⟨n, rfl⟩ : ∃ n : Nat, k = -n := ⟨k.natAbs, by omega⟩
    have hvalue : (c : ℚ) / (10 ^ (-(-(n : Int))).toNat : Nat) * 2 ^ (0 - 0 : Int) = c * 10 ^ (-n : Int) := by
      simp [div_eq_mul_inv]
    exact div_eq _ _ hc (hvalue ▸ h)

theorem rounds_self (m : Nat) (e : Int) : Rounds (m * 2 ^ e) m e := by
  have hpos := two_zpow_pos e
  have hreach : 0 < reach m e := by
    rw [reach]
    split <;> norm_num
  have hlow : (m - reach m e) * 2 ^ e < m * 2 ^ e := by gcongr; linarith
  have hhigh : (m : ℚ) * 2 ^ e < (m + 1 / 2) * 2 ^ e := by gcongr; linarith
  exact ⟨hlow.le, hhigh.le, fun _ => ⟨hlow, hhigh⟩⟩

/-- A natural number with no more places than a float has is that float. -/
theorem unpack_toFloat {c : Nat} (hpos : 0 < c) (hlt : c < 2 ^ 53) :
    ∃ m e, ∃ hm : 0 < m, c.toUInt64.toFloat.toModel.unpack = .finite .positive m e hm ∧
      (m : ℚ) * 2 ^ e = c ∧ 2 ^ 52 ≤ m := by
  have hlog : c.log2 < 53 := (Nat.log2_lt hpos.ne').2 hlt
  obtain ⟨n, hn⟩ : ∃ n, 52 = c.log2 + n := ⟨52 - c.log2, by omega⟩
  have hmantissa : (c * 2 ^ n).log2 = 52 := by rw [log2_mul_two_pow hpos, ← hn]
  have hpos' : 0 < c * 2 ^ n := by positivity
  have hnormal : 2 ^ 52 ≤ c * 2 ^ n := (Nat.le_log2 hpos'.ne').1 hmantissa.ge
  have hless : c * 2 ^ n < 2 ^ 53 := (Nat.log2_lt hpos'.ne').1 (by omega)
  have hc : Canonical (c * 2 ^ n) (-n) := ⟨hpos', hless, by omega, by omega, .inl hnormal⟩
  have hvalue : ((c * 2 ^ n : Nat) : ℚ) * 2 ^ (-n : Int) = c := by
    push_cast
    rw [zpow_neg, zpow_natCast, mul_assoc, mul_inv_cancel₀ (by positivity), mul_one]
  have hround : UnpackedFloat.round .binary64 .positive c 0 =
      .finite .positive (c * 2 ^ n) (-n) hc.pos := by
    refine round_eq hpos hc ?_
    rw [zpow_zero, mul_one, ← hvalue]
    exact rounds_self _ _
  have hword : c.toUInt64.toNat = c := Nat.mod_eq_of_lt (by omega)
  refine ⟨_, _, hc.pos, ?_, hvalue, hnormal⟩
  change (Float.Model.pack (UnpackedFloat.normalize .binary64 (c.toUInt64.toNat : Int) 0 .positive)).unpack = _
  have hgt : compare (c : Int) 0 = .gt := by
    rw [Std.compare_eq_gt]
    omega
  rw [hword, UnpackedFloat.normalize, hgt]
  simp only [Int.toNat_natCast, hround]
  exact unpack_pack hc

/-- The powers of ten that are floats. -/
theorem unpack_powerOfTen {n : Nat} (h : n < Float.exactlyRepresentablePowersOfTen.size) :
    ∃ m e, ∃ hm : 0 < m, Float.exactlyRepresentablePowersOfTen[n].toModel.unpack =
      .finite .positive m e hm ∧ (m : ℚ) * 2 ^ e = 10 ^ n := by
  have hall : ∀ i : Fin 23, ∃ m e, ∃ hm : 0 < m,
      (Float.exactlyRepresentablePowersOfTen.getInternal i.1 i.2).toModel.unpack =
        .finite .positive m e hm ∧ m * 2 ^ e.toNat = 10 ^ i.1 * 2 ^ (-e).toNat := by
    intro i
    fin_cases i <;> exact ⟨_, _, _, rfl, by decide⟩
  obtain ⟨m, e, hm, hunpack, heq⟩ := hall ⟨n, h⟩
  refine ⟨m, e, hm, hunpack, ?_⟩
  have hcast : (m : ℚ) * 2 ^ e.toNat = 10 ^ n * 2 ^ (-e).toNat := by exact_mod_cast heq
  rw [zpow_eq_div (by norm_num), ← mul_div_assoc, hcast, mul_div_cancel_right₀ _ (by positivity)]

theorem quotient_eq {a b : Nat} {f g : Int} (hvalue : (a : ℚ) * 2 ^ f = c)
    (hten : (b : ℚ) * 2 ^ g = 10 ^ k.natAbs) (hsign : k < 0) :
    (a : ℚ) / b * 2 ^ (f - g) = c * 10 ^ k := by
  have hinv : (10 : ℚ) ^ k = (10 ^ k.natAbs)⁻¹ := by
    rw [← zpow_natCast, ← zpow_neg]
    congr 1
    omega
  rw [hinv, ← hten, ← hvalue, zpow_sub₀ (by norm_num)]
  simp only [div_eq_mul_inv, mul_inv]
  ring

theorem product_eq {a b : Nat} {f g : Int} (hvalue : (a : ℚ) * 2 ^ f = c)
    (hten : (b : ℚ) * 2 ^ g = 10 ^ k.natAbs) (hsign : ¬k < 0) :
    (a : ℚ) * b * 2 ^ (f + g) = c * 10 ^ k := by
  have hpow : (10 : ℚ) ^ k = 10 ^ k.natAbs := by
    rw [← zpow_natCast]
    congr 1
    omega
  rw [hpow, ← hten, ← hvalue, two_zpow_add]
  ring

theorem product_fine {a b : Nat} (ha : 2 ^ 52 ≤ a) (hb : 0 < b) (f : Int) :
    f ≤ Format.binary64.targetExponent (totalExponent (a * b) f) := by
  have hprod : 2 ^ 52 ≤ a * b := ha.trans (Nat.le_mul_of_pos_right _ hb)
  have hlog := (Nat.le_log2 (by omega)).2 hprod
  rw [targetExponent_eq, totalExponent]
  omega

/-- A decimal of small size is multiplied or divided out, and any other is rounded at once. -/
theorem ofScientific_eq (hpos : 0 < c) (hk : k ≤ 2048) (hk' : -(2048 + c.log2) ≤ k)
    (h : Rounds (c * 10 ^ k) m e) :
    Float.ofScientific c (k < 0) k.natAbs = .ofModel (.pack (.finite .positive m e hc.pos)) := by
  rw [Float.ofScientific]
  split
  next hfast =>
    obtain ⟨a, f, ha, hunpack, hvalue, hlong⟩ := unpack_toFloat hpos hfast.1
    have hsize : k.natAbs < Float.exactlyRepresentablePowersOfTen.size :=
      Nat.lt_succ_of_le hfast.2
    obtain ⟨b, g, hb, hpower, hten⟩ := unpack_powerOfTen hsize
    by_cases hsign : k < 0
    · have hquotient := quotient_eq hvalue hten hsign
      have hdiv := @div_eq .positive .positive a b m f g e ha hb hc (hquotient ▸ h)
      simp only [hsign, decide_true, if_true]
      change Float.ofModel (.pack (UnpackedFloat.div .binary64 _ _)) = _
      rw [hunpack, hpower, hdiv]
      rfl
    · have hproduct := product_eq hvalue hten hsign
      have hfine := product_fine hlong hb (f + g)
      have hmul := @mul_eq .positive .positive a b m f g e ha hb hc hfine (hproduct ▸ h)
      simp only [hsign, decide_false, if_false, Bool.false_eq_true]
      change Float.ofModel (.pack (UnpackedFloat.mul .binary64 _ _)) = _
      rw [hunpack, hpower, hmul]
      rfl
  next =>
    have hexp : (if decide (k < 0) = true then Int.negOfNat k.natAbs else Int.ofNat k.natAbs) =
        k := by
      by_cases hsign : k < 0
      · rw [decide_eq_true hsign, if_pos rfl, Int.negOfNat_eq]
        change -(k.natAbs : Int) = k
        omega
      · rw [decide_eq_false hsign, if_neg Bool.false_ne_true]
        change (k.natAbs : Int) = k
        omega
    change Float.ofModel (.pack (UnpackedFloat.ofScientific .binary64 c (if decide (k < 0) = true then
      Int.negOfNat k.natAbs else Int.ofNat k.natAbs))) = _
    rw [hexp, model_ofScientific_eq hc hpos hk hk' h]

end

end Covenant.Binary64
