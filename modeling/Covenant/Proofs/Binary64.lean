import Mathlib

/-! The bits of floats. A float is an infinity, no number, a zero, or a sign with a mantissa and
an exponent, and the bits say which: taking them apart and putting them together again comes
back to the same float. So two floats that compare as equal are the same float, or both zero. -/

namespace Covenant.Binary64

open Float.Model Float.Model.UnpackedFloat

/-! ### Packed parts -/

theorem toBitVec_ofBitVec (v : BitVec 1) : (Sign.ofBitVec v).toBitVec = v := by
  revert v
  decide

theorem ofBitVec_toBitVec (s : Sign) : Sign.ofBitVec s.toBitVec = s := by
  cases s <;> rfl

theorem unpackSign_packComponents {spec : Format} (s : Sign) (e : BitVec spec.exponentBits)
    (m : BitVec spec.mantissaBitsWithoutImplicit) :
    unpackSign (packComponents spec s e m) = s.toBitVec := by
  apply BitVec.eq_of_getLsbD_eq
  intro i hi
  have hi0 : i = 0 := by omega
  subst hi0
  simp [unpackSign, packComponents, BitVec.getLsbD_append, BitVec.getElem_append]

theorem packComponents_unpack {spec : Format} (b : BitVec spec.numBits) :
    packComponents spec (.ofBitVec (unpackSign b)) (unpackExponent b) (unpackMantissa b) = b := by
  have hm := spec.hm
  have he := spec.he
  rw [packComponents, toBitVec_ofBitVec]
  apply BitVec.eq_of_getLsbD_eq
  intro i hi
  simp only [unpackSign, unpackExponent, unpackMantissa, BitVec.getLsbD_append, BitVec.getLsbD_cast,
    BitVec.getLsbD_extractLsb]
  grind

theorem toNat_implicit (m : BitVec 52) : (1#1 ++ m).toNat = 2 ^ 52 + m.toNat := by
  rw [BitVec.toNat_append, ← Nat.shiftLeft_add_eq_or_of_lt m.isLt]
  simp [Nat.shiftLeft_eq]

section
variable (s : Sign)

theorem unpack_subnormal {m : BitVec 52} (hm : 0 < m.toNat) :
    UnpackedFloat.unpack .binary64 (packComponents .binary64 s 0#11 m) =
      .finite s m.toNat (-1074) hm := by
  have hne : m ≠ 0#52 := by
    rintro rfl
    simp at hm
  rw [UnpackedFloat.unpack]
  simp only [unpackMantissa_packComponents, unpackExponent_packComponents,
    unpackSign_packComponents, ofBitVec_toBitVec]
  simp [Format.exponentBias, hne]

theorem unpack_normal {e : BitVec 11} (m : BitVec 52) (he : e ≠ -1#11) (he' : e ≠ 0#11) :
    UnpackedFloat.unpack .binary64 (packComponents .binary64 s e m) =
      .finite s (2 ^ 52 + m.toNat) (e.toNat - 1075) (by omega) := by
  rw [UnpackedFloat.unpack]
  simp only [unpackMantissa_packComponents, unpackExponent_packComponents,
    unpackSign_packComponents, ofBitVec_toBitVec, toNat_implicit]
  have hmax : e ≠ 2047#11 := he
  simp [Format.exponentBias, hmax, he']

end

/-- The mantissa and the exponent of a finite float other than zero. -/
structure Canonical (m : Nat) (e : Int) : Prop where
  pos : 0 < m
  lt : m < 2 ^ 53
  least : -1074 ≤ e
  greatest : e ≤ 971
  normal : 2 ^ 52 ≤ m ∨ e = -1074

theorem log2_of_normal {m : Nat} (h : 2 ^ 52 ≤ m) (h' : m < 2 ^ 53) : m.log2 = 52 := by
  have hne : m ≠ 0 := by omega
  have hle := (Nat.le_log2 hne).2 h
  have hlt := (Nat.log2_lt hne).2 h'
  omega

section
variable {s : Sign} {m : Nat} {e : Int}

theorem pack_normal (h : 2 ^ 52 ≤ m) (h' : m < 2 ^ 53) (he : -1074 ≤ e) (he' : e ≤ 971)
    (hm : 0 < m) : UnpackedFloat.pack .binary64 (.finite s m e hm) =
      packComponents .binary64 s (BitVec.ofNat 11 (e + 1075).toNat) (BitVec.ofNat 52 m) := by
  have hlog := log2_of_normal h h'
  have hexp : (e + 1023 + 52).toNat = (e + 1075).toNat := by omega
  have hlt : ¬2048 ≤ (e + 1075).toNat + 1 := by omega
  simp [UnpackedFloat.pack, Format.exponentBias, Format.mantissaBits, hlog, hexp, hlt]

theorem pack_subnormal (h : m < 2 ^ 52) (hm : 0 < m) :
    UnpackedFloat.pack .binary64 (.finite s m (-1074) hm) =
      packComponents .binary64 s 0#11 (BitVec.ofNat 52 m) := by
  have hlog : m.log2 + 1 ≠ 53 := by
    have hlt := (Nat.log2_lt (by omega)).2 h
    omega
  simp [UnpackedFloat.pack, Format.exponentBias, Format.mantissaBits, hlog]

theorem unpack_pack (h : Canonical m e) : (Float.Model.pack (.finite s m e h.pos)).unpack =
    .finite s m e h.pos := by
  obtain ⟨hpos, hlt, hleast, hgreatest, hnormal⟩ := h
  change UnpackedFloat.unpack .binary64 (UnpackedFloat.pack .binary64 (.finite s m e hpos)) = _
  by_cases hm : 2 ^ 52 ≤ m
  · have hexp : (BitVec.ofNat 11 (e + 1075).toNat).toNat = (e + 1075).toNat := by
      rw [BitVec.toNat_ofNat, Nat.mod_eq_of_lt (by omega)]
    have hmantissa : (BitVec.ofNat 52 m).toNat = m - 2 ^ 52 := by
      rw [BitVec.toNat_ofNat]
      omega
    rw [pack_normal hm hlt hleast hgreatest, unpack_normal]
    · have hm' : 2 ^ 52 + (m - 2 ^ 52) = m := by omega
      have he' : ((e + 1075).toNat : Int) - 1075 = e := by omega
      simp only [hexp, hmantissa, hm', he']
    · intro h0
      have h0' := congrArg BitVec.toNat h0
      rw [hexp] at h0'
      change _ = 2047 at h0'
      omega
    · intro h0
      have h0' := congrArg BitVec.toNat h0
      rw [hexp] at h0'
      change _ = 0 at h0'
      omega
  · obtain rfl : e = -1074 := by omega
    have hmantissa : (BitVec.ofNat 52 m).toNat = m := by
      rw [BitVec.toNat_ofNat, Nat.mod_eq_of_lt (by omega)]
    rw [pack_subnormal (by omega) hpos, unpack_subnormal s (by omega)]
    simp only [hmantissa]

end

/-- What a float is: an infinity, no number, a zero, or a mantissa and an exponent. -/
theorem cases (f : Float.Model) :
    (∃ s, f = .pack (.infinity s)) ∨ f = .pack .notANumber ∨ (∃ s, f = .pack (.zero s)) ∨
      ∃ s m e, ∃ h : Canonical m e, f = .pack (.finite s m e h.pos) := by
  obtain ⟨⟨b⟩, hvalid⟩ := f
  change Format.binary64.Valid b at hvalid
  have hpack : ∀ u, UnpackedFloat.pack .binary64 u = b →
      (⟨⟨b⟩, hvalid⟩ : Float.Model) = .pack u := by
    rintro u rfl
    rfl
  have hnan := hvalid.eq_packedNaN
  have hb := @packComponents_unpack .binary64 b
  generalize Sign.ofBitVec (@unpackSign .binary64 b) = s at hb
  generalize (@unpackExponent .binary64 b : BitVec 11) = e at hb hnan
  generalize (@unpackMantissa .binary64 b : BitVec 52) = m at hb hnan
  have hm : m.toNat < 2 ^ 52 := m.isLt
  by_cases he : e = -1#11
  · by_cases hm0 : m = 0#52
    · exact .inl ⟨s, hpack _ (by rw [← hb, he, hm0]; rfl)⟩
    · exact .inr (.inl (hpack _ (hnan he hm0).symm))
  by_cases he0 : e = 0#11
  · by_cases hm0 : m = 0#52
    · exact .inr (.inr (.inl ⟨s, hpack _ (by rw [← hb, he0, hm0]; rfl)⟩))
    · have hpos : 0 < m.toNat := by
        rw [Nat.pos_iff_ne_zero]
        exact fun h0 => hm0 (BitVec.eq_of_toNat_eq h0)
      refine .inr (.inr (.inr ⟨s, m.toNat, -1074, ⟨hpos, by omega, by omega, by omega, .inr rfl⟩,
        hpack _ ?_⟩))
      rw [pack_subnormal hm, BitVec.ofNat_toNat, BitVec.setWidth_eq, ← hb, he0]
  · have hne : e.toNat ≠ 2047 := fun h0 => he (BitVec.eq_of_toNat_eq h0)
    have hne0 : e.toNat ≠ 0 := fun h0 => he0 (BitVec.eq_of_toNat_eq h0)
    have hlt : e.toNat < 2 ^ 11 := e.isLt
    refine .inr (.inr (.inr ⟨s, 2 ^ 52 + m.toNat, e.toNat - 1075,
      ⟨by omega, by omega, by omega, by omega, .inl (by omega)⟩, hpack _ ?_⟩))
    rw [pack_normal (by omega) (by omega) (by omega) (by omega), ← hb]
    congr 1
    · apply BitVec.eq_of_toNat_eq
      rw [BitVec.toNat_ofNat]
      omega
    · apply BitVec.eq_of_toNat_eq
      rw [BitVec.toNat_ofNat]
      omega

theorem unpack_pack_infinity (s : Sign) :
    (Float.Model.pack (.infinity s)).unpack = .infinity s := by
  cases s <;> rfl

theorem unpack_pack_notANumber : (Float.Model.pack .notANumber).unpack = .notANumber := rfl

theorem unpack_pack_zero (s : Sign) : (Float.Model.pack (.zero s)).unpack = .zero s := by
  cases s <;> rfl

theorem pack_unpack (f : Float.Model) : Float.Model.pack f.unpack = f := by
  rcases cases f with ⟨s, rfl⟩ | rfl | ⟨s, rfl⟩ | ⟨s, m, e, h, rfl⟩
  · rw [unpack_pack_infinity]
  · rfl
  · rw [unpack_pack_zero]
  · rw [unpack_pack h]

/-! ### Equality -/

theorem eq_of_compare {u v : UnpackedFloat} (h : u.compare v = some .eq) :
    u = v ∨ (∃ s, u = .zero s) ∧ ∃ s, v = .zero s := by
  have hthen : ∀ {m m' : Nat} {e e' : Int}, (compare e e').then (compare m m') = .eq →
      e = e' ∧ m = m' := by
    intro m m' e e' heq
    rw [Ordering.then_eq_eq] at heq
    exact ⟨Std.LawfulEqOrd.eq_of_compare heq.1, Nat.compare_eq_eq.1 heq.2⟩
  rcases u with (_ | _) | _ | _ | ⟨_ | _, m, e, hm⟩ <;>
    rcases v with (_ | _) | _ | _ | ⟨_ | _, m', e', hm'⟩ <;>
    simp_all [UnpackedFloat.compare]

theorem zero_eq : (0.0 : Float) = .ofModel (.pack (.zero .positive)) := by decide

theorem neg_zero_eq : (-0.0 : Float) = .ofModel (.pack (.zero .negative)) := by decide

/-- Floats that compare as equal are the same, but for the two zeros. -/
theorem eq_of_beq {x y : Float} (h : (x == y) = true) :
    x = y ∨ (x = 0.0 ∨ x = -0.0) ∧ (y = 0.0 ∨ y = -0.0) := by
  have hzero : ∀ {z : Float} {s}, z.toModel.unpack = .zero s → z = 0.0 ∨ z = -0.0 := by
    intro z s hz
    have hz' := pack_unpack z.toModel
    rw [hz] at hz'
    rw [neg_zero_eq, zero_eq]
    cases s
    · exact .inr (congrArg Float.ofModel hz'.symm)
    · exact .inl (congrArg Float.ofModel hz'.symm)
  have hcompare : x.toModel.unpack.compare y.toModel.unpack = some .eq :=
    LawfulBEq.eq_of_beq h
  rcases eq_of_compare hcompare with heq | ⟨⟨s, hx⟩, t, hy⟩
  · have hmodel := congrArg Float.Model.pack heq
    rw [pack_unpack, pack_unpack] at hmodel
    exact .inl (congrArg Float.ofModel hmodel)
  · exact .inr ⟨hzero hx, hzero hy⟩

end Covenant.Binary64
