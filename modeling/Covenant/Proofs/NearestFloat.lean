import Covenant.Proofs.Rounding

/-! The float nearest to a number. A number rounds to a float that no other float is nearer than:
in units of the last place of the float, the floats beside it are whole numbers, but for those
below a power of two, and the number is at most half a unit away. Integers of 64 bits without a
sign, which are too large for 64 bits with one, become nearest floats. -/

namespace Covenant.Binary64

open Float.Model Float.Model.UnpackedFloat

/-- The number that an unpacked float is, if it is finite. -/
def unpacked? : UnpackedFloat → Option ℚ
  | .zero _ => some 0
  | .finite .positive m e _ => some (m * 2 ^ e)
  | .finite .negative m e _ => some (-(m * 2 ^ e))
  | .infinity _ | .notANumber => none

/-- The number that a finite float is. -/
def rational? (x : Float) : Option ℚ := unpacked? x.toModel.unpack

/-- The float is a number, and no float is nearer to `q`. -/
def Nearest (q : ℚ) (x : Float) : Prop :=
  ∃ r, rational? x = some r ∧ ∀ y s, rational? y = some s → |q - r| ≤ |q - s|

theorem rational?_positive {m : Nat} {e : Int} (h : Canonical m e) :
    rational? (.ofModel (.pack (.finite .positive m e h.pos))) = some ((m : ℚ) * 2 ^ e) :=
  congrArg unpacked? (unpack_pack h)

theorem isFinite_of_rational? {x : Float} {r : ℚ} (h : rational? x = some r) :
    x.isFinite = true := by
  change x.toModel.unpack.isFinite = true
  unfold rational? at h
  cases hx : x.toModel.unpack with
  | zero | finite => rfl
  | infinity | notANumber =>
    rw [hx] at h
    cases h

/-- A finite float is zero, or a mantissa and an exponent with a sign. -/
theorem cases_of_rational? {x : Float} {r : ℚ} (h : rational? x = some r) :
    r = 0 ∨ ∃ m e, Canonical m e ∧ (r = m * 2 ^ e ∨ r = -(m * 2 ^ e)) := by
  obtain ⟨f⟩ := x
  unfold rational? at h
  rcases cases f with ⟨s, rfl⟩ | rfl | ⟨s, rfl⟩ | ⟨s, m, e, hc, rfl⟩ <;> dsimp only at h
  · rw [unpack_pack_infinity] at h
    cases h
  · rw [unpack_pack_notANumber] at h
    cases h
  · rw [unpack_pack_zero] at h
    cases h
    exact .inl rfl
  · rw [unpack_pack hc] at h
    cases s with
    | positive => exact .inr ⟨m, e, hc, .inl (Option.some.inj h).symm⟩
    | negative => exact .inr ⟨m, e, hc, .inr (Option.some.inj h).symm⟩

/-! ### In units of the last place -/

section
variable {x : ℚ} {m m' : Nat} {e e' : Int}

/-- In units of another exponent a float is a whole number, or it is below the powers of two that
have this exponent. -/
theorem Canonical.whole_or_le (h : Canonical m' e') (e : Int) :
    (∃ k : Nat, (m' : ℚ) * 2 ^ e' = k * 2 ^ e) ∨
      e' < e ∧ (m' : ℚ) * 2 ^ e' ≤ (2 ^ 52 - 1 / 2) * 2 ^ e := by
  rcases Int.lt_or_le e' e with hlt | hle
  · refine .inr ⟨hlt, ?_⟩
    have hm : (m' : ℚ) ≤ 2 ^ 53 - 1 := by
      have hcast : (m' : ℚ) + 1 ≤ 2 ^ 53 := by exact_mod_cast h.lt
      linarith
    have hexp : (2 : ℚ) ^ e' ≤ 2 ^ (e - 1) := zpow_le_zpow_right₀ (by norm_num) (by omega)
    calc (m' : ℚ) * 2 ^ e' ≤ (2 ^ 53 - 1) * 2 ^ (e - 1) := by gcongr
      _ = (2 ^ 52 - 1 / 2) * 2 ^ e := by
        rw [zpow_sub₀ (by norm_num)]
        ring
  · refine .inl ⟨m' * 2 ^ (e' - e).toNat, ?_⟩
    have hexp : e' = (e' - e).toNat + e := by omega
    conv_lhs => rw [hexp, two_zpow_add, zpow_natCast]
    push_cast
    ring

theorem Rounds.abs_sub_le_half (h : Rounds x m e) : |x / 2 ^ e - m| ≤ 1 / 2 := by
  obtain ⟨hlow, hhigh, -⟩ := h.div_bounds
  have hreach := reach_le m e
  rw [abs_le]
  constructor <;> linarith

theorem Rounds.abs_sub_le_whole (h : Rounds x m e) (k : Int) :
    |x / 2 ^ e - m| ≤ |x / 2 ^ e - k| := by
  have hhalf := h.abs_sub_le_half
  by_cases hk : k = m
  · rw [hk, Int.cast_natCast]
  · have hstep : (1 : ℚ) ≤ |(k : ℚ) - m| := by
      exact_mod_cast Int.one_le_abs (show k - m ≠ 0 by omega)
    have hsum : 1 ≤ |x / 2 ^ e - k| + |x / 2 ^ e - m| := by
      calc (1 : ℚ) ≤ |(k : ℚ) - m| := hstep
        _ ≤ |(k : ℚ) - x / 2 ^ e| + |x / 2 ^ e - m| := abs_sub_le _ _ _
        _ = |x / 2 ^ e - k| + |x / 2 ^ e - m| := by rw [abs_sub_comm (k : ℚ)]
    linarith

/-- Floats with a smaller exponent are too small to be nearer. -/
theorem Rounds.abs_sub_le_small (h : Rounds x m e) (hm : 2 ^ 52 ≤ m) (he : -1074 < e) {t : ℚ}
    (ht : t ≤ 2 ^ 52 - 1 / 2) : |x / 2 ^ e - m| ≤ |x / 2 ^ e - t| := by
  obtain ⟨hlow, -, -⟩ := h.div_bounds
  have hcast : (2 ^ 52 : ℚ) ≤ m := by exact_mod_cast hm
  have hreach := reach_le m e
  refine le_trans ?_ (le_abs_self _)
  rw [abs_le]
  refine ⟨?_, by linarith⟩
  -- below a power of two the number is at most a quarter away
  by_cases hpower : m = 2 ^ 52
  · have hquarter : reach m e = 1 / 4 := if_pos ⟨hpower, he⟩
    rw [hquarter] at hlow
    have heq : (m : ℚ) = 2 ^ 52 := by exact_mod_cast hpower
    linarith
  · have hlarge : (2 ^ 52 + 1 : ℚ) ≤ m := by
      have hlt : 2 ^ 52 + 1 ≤ m := by omega
      exact_mod_cast hlt
    linarith

theorem Rounds.nearest (h : Rounds x m e) (hc : Canonical m e) :
    Nearest x (.ofModel (.pack (.finite .positive m e hc.pos))) := by
  refine ⟨_, rational?_positive hc, fun y s hs => ?_⟩
  have hpos := two_zpow_pos e
  have hunits : ∀ t : ℚ, |x - t| = |x / 2 ^ e - t / 2 ^ e| * 2 ^ e := by
    intro t
    rw [← sub_div, abs_div, abs_of_pos hpos, div_mul_cancel₀ _ hpos.ne']
  rw [hunits, hunits s, mul_div_cancel_right₀ _ hpos.ne']
  apply mul_le_mul_of_nonneg_right _ hpos.le
  have hwhole : ∀ k : Int, s = k * 2 ^ e → |x / 2 ^ e - m| ≤ |x / 2 ^ e - s / 2 ^ e| := by
    rintro k rfl
    rw [mul_div_cancel_right₀ _ hpos.ne']
    exact h.abs_sub_le_whole k
  rcases cases_of_rational? hs with rfl | ⟨m', e', hc', hsign⟩
  · exact hwhole 0 (by simp)
  rcases hc'.whole_or_le e with ⟨k, hk⟩ | ⟨hlt, hle⟩
  · rcases hsign with rfl | rfl
    · exact hwhole k (by simpa using hk)
    · exact hwhole (-k) (by rw [hk]; push_cast; ring)
  · have hleast := hc'.least
    have hm := hc.normal.resolve_right (by omega)
    apply h.abs_sub_le_small hm (by omega)
    rw [div_le_iff₀ hpos]
    have hnonneg : 0 ≤ (m' : ℚ) * 2 ^ e' := by positivity
    rcases hsign with rfl | rfl <;> linarith

end

/-! ### Integers -/

/-- Between these powers of two the last place of a float is worth 2048. -/
theorem rounds_of_units {n m : Nat} (hn : 2 ^ 63 ≤ n) (hlow : m * 2048 ≤ n + 1024)
    (hhigh : n ≤ m * 2048 + 1024)
    (htie : m % 2 = 1 → m * 2048 < n + 1024 ∧ n < m * 2048 + 1024) : Rounds n m 11 := by
  have hunit : (2 : ℚ) ^ (11 : Int) = 2048 := by norm_num
  have hhigh' : (n : ℚ) ≤ m * 2048 + 1024 := by exact_mod_cast hhigh
  by_cases hpower : m = 2 ^ 52
  · have hreach : reach m 11 = 1 / 4 := if_pos ⟨hpower, by norm_num⟩
    have hm : (m : ℚ) = 2 ^ 52 := by exact_mod_cast hpower
    have hn' : (2 ^ 63 : ℚ) ≤ n := by exact_mod_cast hn
    refine ⟨?_, ?_, fun hodd => ?_⟩
    · rw [hreach, hunit]
      linarith
    · rw [hunit]
      linarith
    · omega
  · have hreach : reach m 11 = 1 / 2 := if_neg fun h => hpower h.1
    have hlow' : (m : ℚ) * 2048 ≤ n + 1024 := by exact_mod_cast hlow
    refine ⟨?_, ?_, fun hodd => ?_⟩
    · rw [hreach, hunit]
      linarith
    · rw [hunit]
      linarith
    · obtain ⟨hlow, hhigh⟩ := htie hodd
      have hlow' : (m : ℚ) * 2048 < n + 1024 := by exact_mod_cast hlow
      have hhigh' : (n : ℚ) < m * 2048 + 1024 := by exact_mod_cast hhigh
      rw [hreach, hunit]
      constructor <;> linarith

theorem exists_rounds {n : Nat} (hn : 2 ^ 63 ≤ n) (hn' : n < 2 ^ 64) :
    ∃ m e, Canonical m e ∧ Rounds n m e := by
  have hcanonical : ∀ {m}, 2 ^ 52 ≤ m → m < 2 ^ 53 → Canonical m 11 := fun hm hm' =>
    ⟨by omega, hm', by norm_num, by norm_num, .inl hm⟩
  by_cases hdown : n % 2048 < 1024 ∨ n % 2048 = 1024 ∧ n / 2048 % 2 = 0
  · exact ⟨n / 2048, 11, hcanonical (by omega) (by omega),
      rounds_of_units hn (by omega) (by omega) (by omega)⟩
  by_cases hup : n / 2048 + 1 < 2 ^ 53
  · exact ⟨n / 2048 + 1, 11, hcanonical (by omega) hup,
      rounds_of_units hn (by omega) (by omega) (by omega)⟩
  -- up to the next power of two
  refine ⟨2 ^ 52, 12, ⟨by norm_num, by norm_num, by norm_num, by norm_num, .inl le_rfl⟩, ?_⟩
  have hreach : reach (2 ^ 52) 12 = 1 / 4 := if_pos ⟨rfl, by norm_num⟩
  have hunit : (2 : ℚ) ^ (12 : Int) = 4096 := by norm_num
  have hlow : (2 ^ 64 : ℚ) ≤ n + 1024 := by
    have hle : 2 ^ 64 ≤ n + 1024 := by omega
    exact_mod_cast hle
  have hhigh : (n : ℚ) < 2 ^ 64 := by exact_mod_cast hn'
  refine ⟨?_, ?_, fun hodd => by omega⟩
  · rw [hreach, hunit]
    push_cast
    linarith
  · rw [hunit]
    push_cast
    linarith

/-- An integer that needs all 64 bits becomes a nearest float. -/
theorem nearest_ofInt {n : Int} (hn : 2 ^ 63 ≤ n) (hn' : n < 2 ^ 64) :
    Nearest n (Float.ofInt n) := by
  obtain ⟨n, rfl⟩ := Int.eq_ofNat_of_zero_le (show 0 ≤ n by omega)
  obtain ⟨m, e, hc, hrounds⟩ := exists_rounds (show 2 ^ 63 ≤ n by omega) (by omega)
  have hfloat := ofScientific_eq hc (c := n) (k := 0) (by omega) (by omega) (by omega)
    (by simpa using hrounds)
  change Float.ofScientific n false 0 = _ at hfloat
  change Nearest _ (Float.ofScientific n false 0)
  rw [hfloat]
  exact hrounds.nearest hc

end Covenant.Binary64
