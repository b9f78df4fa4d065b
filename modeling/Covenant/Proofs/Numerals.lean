import Covenant.Json.Printer
import Covenant.Json.Token
import Covenant.Proofs.Decimals

/-! Numbers in JSON texts. A numeral is read as it is written. The text of a float is a numeral
with a fraction or an exponent, and the text of an integer is one without; each is read back as
the number that was written. -/

namespace Covenant

namespace Decimal

theorem isDigit_of_mem_toDigits {n : Nat} {c : Char} (h : c ∈ Nat.toDigits 10 n) :
    Text.isDigit c = true := by
  have hdigit := Nat.isDigit_of_mem_toDigits (by decide) (by decide) h
  simpa [Text.isDigit, Char.isDigit, Char.le_def] using hdigit

theorem ofDigits_eq (ds : List Char) : ofDigits ds = Nat.ofDigitChars 10 ds 0 := by
  rw [Nat.ofDigitChars_eq_foldl]
  rfl

theorem ofDigits_toDigits (n : Nat) : ofDigits (Nat.toDigits 10 n) = n := by
  rw [ofDigits_eq, Nat.ofDigitChars_ten_toDigits]

theorem ofDigits_append (a b : List Char) :
    ofDigits (a ++ b) = 10 ^ b.length * ofDigits a + ofDigits b := by
  rw [ofDigits_eq, ofDigits_eq, ofDigits_eq, Nat.ofDigitChars_append,
    Nat.ofDigitChars_eq_ofDigitChars_zero]

theorem ofDigits_zeros (n : Nat) : ofDigits (List.replicate n '0') = 0 := by
  rw [ofDigits_eq, Nat.ofDigitChars_replicate_zero, Nat.mul_zero]

theorem ofDigits_lt {ds : List Char} (h : ∀ c ∈ ds, Text.isDigit c = true) :
    ofDigits ds < 10 ^ ds.length := by
  induction ds with
  | nil => decide
  | cons c ds ih =>
    have hc : digitValue c ≤ 9 := by
      have hdigit := h c List.mem_cons_self
      rw [Text.isDigit, Bool.and_eq_true, decide_eq_true_eq, decide_eq_true_eq] at hdigit
      have hle : c.toNat ≤ 57 := hdigit.2
      change c.toNat - 48 ≤ 9
      omega
    have hrest := ih fun c hc => h c (List.mem_cons_of_mem _ hc)
    have hcons : ofDigits (c :: ds) = 10 ^ ds.length * digitValue c + ofDigits ds :=
      (ofDigits_append [c] ds).trans (by simp [ofDigits])
    rw [hcons, List.length_cons, pow_succ]
    calc 10 ^ ds.length * digitValue c + ofDigits ds
        < 10 ^ ds.length * digitValue c + 10 ^ ds.length := by gcongr
      _ ≤ 10 ^ ds.length * 9 + 10 ^ ds.length := by gcongr
      _ = 10 ^ ds.length * 10 := by ring

/-- The digits of a number that is not zero do not start with a zero. -/
theorem head?_toDigits {n : Nat} (hn : 0 < n) : (Nat.toDigits 10 n).head? ≠ some '0' := by
  intro h
  obtain ⟨ds, hds⟩ := List.head?_eq_some_iff.1 h
  have hvalue := ofDigits_toDigits n
  have hle := pow_length_le hn
  rw [hds] at hvalue hle
  have hcons : ofDigits ('0' :: ds) = ofDigits ds :=
    (ofDigits_append ['0'] ds).trans (by simp [ofDigits, digitValue])
  have hlt := @ofDigits_lt ds fun c hc =>
    isDigit_of_mem_toDigits (n := n) (hds ▸ List.mem_cons_of_mem _ hc)
  simp only [List.length_cons, Nat.add_sub_cancel] at hle
  omega

theorem head?_toDigits_append {n : Nat} (hn : 0 < n) (rest : List Char) :
    (Nat.toDigits 10 n ++ rest).head? ≠ some '0' := by
  rw [List.head?_append_of_ne_nil _ Nat.toDigits_ne_nil]
  exact head?_toDigits hn

end Decimal

namespace Json

open Decimal Float.Model

theorem digits?_append {ds rest : List Char} (hne : ds ≠ [])
    (hall : ∀ c ∈ ds, Text.isDigit c = true) (hrest : ∀ c ∈ rest.head?, Text.isDigit c = false) :
    digits? (ds ++ rest) = some (ds, rest) := by
  have htake : (ds ++ rest).takeWhile Text.isDigit = ds := by
    rw [List.takeWhile_append_of_pos hall]
    cases rest with
    | nil => simp
    | cons c rest => simp [hrest c rfl]
  have hdrop : (ds ++ rest).dropWhile Text.isDigit = rest := by
    rw [List.dropWhile_append_of_pos hall]
    cases rest with
    | nil => simp
    | cons c rest => simp [hrest c rfl]
  rw [digits?, htake, hdrop]
  cases ds with
  | nil => exact absurd rfl hne
  | cons => rfl

namespace Numeral

def exponentText (k : Int) : List Char :=
  'e' :: (if k < 0 then '-' else '+') :: Nat.toDigits 10 k.natAbs

/-- The text of a numeral after its sign. -/
def magnitudeText (n : Numeral) : List Char :=
  n.whole ++ (n.fraction.elim [] ('.' :: ·) ++ n.exponent.elim [] exponentText)

/-- The text of a numeral. -/
def text (n : Numeral) : List Char :=
  (if n.negative then ['-'] else []) ++ n.magnitudeText

/-- The parts of the numeral are digits, and there is no needless zero before them. -/
structure Plain (n : Numeral) : Prop where
  whole_ne : n.whole ≠ []
  whole : ∀ c ∈ n.whole, Text.isDigit c = true
  short : n.whole.head? = some '0' → n.whole.length ≤ 1
  fraction : ∀ ds, n.fraction = some ds → ds ≠ [] ∧ ∀ c ∈ ds, Text.isDigit c = true

section
variable {n : Numeral}

theorem exponent?_text (k : Option Int) : exponent? (k.elim [] exponentText) = some (k, []) := by
  cases k with
  | none => rfl
  | some k =>
    have hdigits : digits? (Nat.toDigits 10 k.natAbs) = some (Nat.toDigits 10 k.natAbs, []) := by
      have happend := @digits?_append (Nat.toDigits 10 k.natAbs) [] Nat.toDigits_ne_nil
        (fun c hc => isDigit_of_mem_toDigits hc) (by simp)
      rwa [List.append_nil] at happend
    rw [Option.elim_some, exponentText]
    by_cases hneg : k < 0
    · simp [exponent?, hneg, exponentSign, sign, hdigits, ofDigits_toDigits, abs_of_neg hneg]
    · simp [exponent?, hneg, exponentSign, hdigits, ofDigits_toDigits, abs_of_nonneg (not_lt.1 hneg)]

/-- No digit follows the whole part, and none follows the fraction. -/
theorem head?_exponent (k : Option Int) :
    ∀ c ∈ (k.elim [] exponentText).head?, Text.isDigit c = false := by
  cases k with
  | none => simp
  | some k =>
    intro c hc
    obtain rfl : 'e' = c := Option.some.inj hc
    rfl

theorem head?_fraction (n : Numeral) :
    ∀ c ∈ (n.fraction.elim [] ('.' :: ·) ++ n.exponent.elim [] exponentText).head?,
      Text.isDigit c = false := by
  cases n.fraction with
  | none => exact head?_exponent n.exponent
  | some ds =>
    intro c hc
    obtain rfl : '.' = c := Option.some.inj hc
    rfl

theorem Plain.fraction?_text (h : n.Plain) :
    fraction? (n.fraction.elim [] ('.' :: ·) ++ n.exponent.elim [] exponentText) =
      some (n.fraction, n.exponent.elim [] exponentText) := by
  have hfraction := h.fraction
  cases hn : n.fraction with
  | none =>
    cases n.exponent <;> rfl
  | some ds =>
    obtain ⟨hne, hall⟩ := hfraction ds hn
    rw [Option.elim_some, List.cons_append, fraction?,
      digits?_append hne hall (head?_exponent n.exponent)]
    rfl

/-- A numeral is read as it is written. -/
theorem Plain.numeral?_text (h : n.Plain) : numeral? n.text = some n := by
  have hsign : sign n.text = (n.negative, n.magnitudeText) := by
    rw [text, magnitudeText]
    cases n.negative with
    | true => rfl
    | false =>
      obtain ⟨c, ds, hwhole⟩ := List.exists_cons_of_ne_nil h.whole_ne
      have hc := h.whole c (hwhole ▸ List.mem_cons_self)
      rw [hwhole]
      change sign (c :: _) = _
      unfold sign
      split
      next heq =>
        obtain rfl : c = '-' := by simpa using congrArg List.head? heq
        cases hc
      next => rfl
  have hwhole : whole? n.magnitudeText = some (n.whole, n.fraction.elim [] ('.' :: ·) ++
      n.exponent.elim [] exponentText) := by
    rw [magnitudeText, whole?, digits?_append h.whole_ne h.whole n.head?_fraction]
    have hshort : ¬((n.whole.head? = some '0' && 1 < n.whole.length) = true) := by
      simp only [Bool.and_eq_true, decide_eq_true_eq]
      intro hzero
      have hle := h.short hzero.1
      omega
    exact if_neg hshort
  rw [numeral?, hsign]
  simp [hwhole, h.fraction?_text, exponent?_text]

theorem inNumeral_of_isDigit {c : Char} (h : Text.isDigit c = true) : inNumeral c = true := by
  simp [inNumeral, h]

theorem Plain.inNumeral (h : n.Plain) : ∀ c ∈ n.text, Json.inNumeral c = true := by
  intro c hc
  rw [text, magnitudeText, List.mem_append, List.mem_append, List.mem_append] at hc
  rcases hc with hc | hc | hc | hc
  · cases hn : n.negative with
    | true =>
      rw [hn, if_pos rfl, List.mem_singleton] at hc
      exact hc ▸ rfl
    | false =>
      rw [hn, if_neg Bool.false_ne_true] at hc
      cases hc
  · exact inNumeral_of_isDigit (h.whole c hc)
  · cases hf : n.fraction with
    | none =>
      rw [hf] at hc
      cases hc
    | some ds =>
      rw [hf, Option.elim_some] at hc
      rcases List.mem_cons.1 hc with rfl | hc
      · rfl
      · exact inNumeral_of_isDigit ((h.fraction ds hf).2 c hc)
  · cases hk : n.exponent with
    | none =>
      rw [hk] at hc
      cases hc
    | some k =>
      rw [hk, Option.elim_some, exponentText] at hc
      rcases List.mem_cons.1 hc with rfl | hc
      · rfl
      · rcases List.mem_cons.1 hc with rfl | hc
        · split <;> rfl
        · exact inNumeral_of_isDigit (isDigit_of_mem_toDigits hc)

/-! ### Floats -/

/-- The number that a numeral writes, but for its sign. -/
def value (n : Numeral) : ℚ :=
  ofDigits (n.whole ++ n.fraction.getD []) *
    10 ^ (n.exponent.getD 0 - (n.fraction.getD []).length : Int)

/-- A numeral that can only be a float. -/
def Marked (n : Numeral) : Prop := n.fraction.isSome ∨ n.exponent.isSome

theorem Marked.toDocument_eq (h : n.Marked) :
    n.toDocument = if (nearestOfDigits n.whole (n.fraction.getD []) (n.exponent.getD 0)).isInf then
      .void else .float (if n.negative then
        -nearestOfDigits n.whole (n.fraction.getD []) (n.exponent.getD 0)
        else nearestOfDigits n.whole (n.fraction.getD []) (n.exponent.getD 0)) := by
  obtain ⟨negative, whole, fraction, exponent⟩ := n
  rw [Marked] at h
  cases fraction with
  | some ds => rfl
  | none =>
    cases exponent with
    | some k => rfl
    | none => simp at h

theorem Marked.toDocument_of_rounds (h : n.Marked) {m : Nat} {e : Int}
    (hc : Binary64.Canonical m e) (hpos : 0 < n.value) (hr : Binary64.Rounds n.value m e) :
    n.toDocument = .float (.ofModel (.pack
      (.finite (if n.negative then .negative else .positive) m e hc.pos))) := by
  have hcoefficient : 0 < ofDigits (n.whole ++ n.fraction.getD []) := by
    by_contra hzero
    rw [value, Nat.eq_zero_of_not_pos hzero] at hpos
    simp at hpos
  have hnearest : nearestOfDigits n.whole (n.fraction.getD []) (n.exponent.getD 0) =
      .ofModel (.pack (.finite .positive m e hc.pos)) := nearest_eq hcoefficient hc hr
  have hinf : (Float.ofModel (.pack (.finite .positive m e hc.pos))).isInf = false := by
    change (Float.Model.pack (.finite .positive m e hc.pos)).unpack.isInf = false
    rw [Binary64.unpack_pack hc]
    rfl
  rw [h.toDocument_eq, hnearest, hinf]
  cases n.negative with
  | false => rfl
  | true =>
    have hneg : -Float.ofModel (.pack (.finite .positive m e hc.pos)) =
        .ofModel (.pack (.finite .negative m e hc.pos)) := by
      change Float.ofModel (.pack (Float.Model.pack (.finite .positive m e hc.pos)).unpack.neg) = _
      rw [Binary64.unpack_pack hc]
      rfl
    simp only [Bool.false_eq_true, if_false, if_true, hneg]

/-- The numeral is a float's, and writes the digits by the text. -/
structure Writes (n : Numeral) (d : Digits) (cs : List Char) : Prop where
  plain : n.Plain
  marked : n.Marked
  value : n.value = d.value
  text : n.magnitudeText = cs

section
variable (negative : Bool) {d : Digits} (hd : 0 < d.coefficient) {first : Int}
  (hfirst : first = d.exponent + (Nat.toDigits 10 d.coefficient).length - 1)
include hfirst

/-- A point with zeros between it and the digits. -/
theorem exists_of_small (hneg : first < 0) : ∃ n : Numeral, n.negative = negative ∧
    n.Writes d (positionalText true (Nat.toDigits 10 d.coefficient) first) := by
  have hne : Nat.toDigits 10 d.coefficient ≠ [] := Nat.toDigits_ne_nil
  refine ⟨⟨negative, ['0'],
    some (List.replicate (-first - 1).toNat '0' ++ Nat.toDigits 10 d.coefficient), none⟩, rfl,
    ⟨by simp, by simp [Text.isDigit], by simp, ?_⟩, .inl rfl, ?_, ?_⟩
  · rintro _ ⟨⟩
    refine ⟨by simp [hne], fun c hc => ?_⟩
    rcases List.mem_append.1 hc with hc | hc
    · exact List.eq_of_mem_replicate hc ▸ rfl
    · exact isDigit_of_mem_toDigits hc
  · have hexp : (0 : Int) - (List.replicate (-first - 1).toNat '0' ++
        Nat.toDigits 10 d.coefficient).length = d.exponent := by
      rw [List.length_append, List.length_replicate]
      omega
    have hdigits : ofDigits (['0'] ++ (List.replicate (-first - 1).toNat '0' ++
        Nat.toDigits 10 d.coefficient)) = d.coefficient := by
      rw [ofDigits_append, ofDigits_append, ofDigits_zeros, ofDigits_toDigits]
      simp [ofDigits, digitValue]
    simp only [Numeral.value, Digits.value, Option.getD_some, Option.getD_none, hexp, hdigits]
  · rw [positionalText, if_pos hneg]
    simp [magnitudeText]

include hd in
/-- Digits with zeros up to the point. -/
theorem exists_of_whole (hneg : ¬first < 0)
    (hwhole : (Nat.toDigits 10 d.coefficient).length ≤ first.toNat + 1) :
    ∃ n : Numeral, n.negative = negative ∧
      n.Writes d (positionalText true (Nat.toDigits 10 d.coefficient) first) := by
  have hne : Nat.toDigits 10 d.coefficient ≠ [] := Nat.toDigits_ne_nil
  refine ⟨⟨negative, Nat.toDigits 10 d.coefficient ++
    List.replicate (first.toNat + 1 - (Nat.toDigits 10 d.coefficient).length) '0', some ['0'],
    none⟩, rfl, ⟨by simp [hne], ?_, ?_, ?_⟩, .inl rfl, ?_, ?_⟩
  · intro c hc
    rcases List.mem_append.1 hc with hc | hc
    · exact isDigit_of_mem_toDigits hc
    · exact List.eq_of_mem_replicate hc ▸ rfl
  · exact fun hzero => absurd hzero (head?_toDigits_append hd _)
  · rintro _ ⟨⟩
    simp [Text.isDigit]
  · have hexp : d.exponent = (first.toNat + 1 - (Nat.toDigits 10 d.coefficient).length : Nat) := by
      omega
    rw [Numeral.value, Digits.value, hexp]
    generalize first.toNat + 1 - (Nat.toDigits 10 d.coefficient).length = z
    simp only [Option.getD_some, Option.getD_none]
    rw [ofDigits_append, ofDigits_append, ofDigits_zeros, ofDigits_toDigits, zpow_natCast]
    simp [ofDigits, digitValue]
    ring
  · rw [positionalText, if_neg hneg]
    simp [magnitudeText, hwhole]

include hd in
/-- Digits with the point among them. -/
theorem exists_of_point (hneg : ¬first < 0)
    (hlong : first.toNat + 1 < (Nat.toDigits 10 d.coefficient).length) :
    ∃ n : Numeral, n.negative = negative ∧
      n.Writes d (positionalText true (Nat.toDigits 10 d.coefficient) first) := by
  have hne : Nat.toDigits 10 d.coefficient ≠ [] := Nat.toDigits_ne_nil
  refine ⟨⟨negative, (Nat.toDigits 10 d.coefficient).take (first.toNat + 1),
    some ((Nat.toDigits 10 d.coefficient).drop (first.toNat + 1)), none⟩, rfl,
    ⟨by simp, fun c hc => isDigit_of_mem_toDigits (List.mem_of_mem_take hc), ?_, ?_⟩, .inl rfl, ?_,
    ?_⟩
  · intro hzero
    refine absurd ?_ (head?_toDigits_append hd [])
    rwa [List.append_nil, ← List.take_append_drop (first.toNat + 1) (Nat.toDigits 10 d.coefficient),
      List.head?_append_of_ne_nil _ (by simp)]
  · rintro _ ⟨⟩
    exact ⟨by simp; omega, fun c hc => isDigit_of_mem_toDigits (List.mem_of_mem_drop hc)⟩
  · have hexp : (0 : Int) - ((Nat.toDigits 10 d.coefficient).drop (first.toNat + 1)).length =
        d.exponent := by
      rw [List.length_drop]
      omega
    simp only [Numeral.value, Digits.value, Option.getD_some, Option.getD_none, hexp,
      List.take_append_drop, ofDigits_toDigits]
  · have hlong' : ¬(Nat.toDigits 10 d.coefficient).length ≤ first.toNat + 1 := by omega
    rw [positionalText, if_neg hneg]
    simp only [hlong', if_false]
    simp [magnitudeText]

/-- Digits with a point after the first of them, and an exponent. -/
theorem exists_of_exponentText : ∃ n : Numeral, n.negative = negative ∧
    n.Writes d (Decimal.exponentText true (Nat.toDigits 10 d.coefficient) first) := by
  have hdigit : ∀ c ∈ Nat.toDigits 10 d.coefficient, Text.isDigit c = true :=
    fun c hc => isDigit_of_mem_toDigits hc
  have hvalue := ofDigits_toDigits d.coefficient
  obtain ⟨c, rest, hdigits⟩ := List.exists_cons_of_ne_nil
    (Nat.toDigits_ne_nil : Nat.toDigits 10 d.coefficient ≠ [])
  rw [hdigits] at hdigit hvalue hfirst ⊢
  refine ⟨⟨negative, [c], if rest = [] then none else some rest, some first⟩, rfl,
    ⟨by simp, ?_, by simp, ?_⟩, .inr rfl, ?_, ?_⟩
  · exact fun a ha => hdigit a (List.mem_singleton.1 ha ▸ List.mem_cons_self)
  · intro ds hds
    split at hds
    · cases hds
    next hrest =>
      cases hds
      exact ⟨hrest, fun a ha => hdigit a (List.mem_cons_of_mem _ ha)⟩
  · have hfraction : (if rest = [] then none else some rest : Option (List Char)).getD [] = rest := by
      split <;> simp_all
    have hexp : first - rest.length = d.exponent := by
      rw [List.length_cons] at hfirst
      omega
    simp only [Numeral.value, Digits.value, Option.getD_some, hfraction, List.singleton_append,
      hvalue, hexp]
  · cases rest <;> simp [Decimal.exponentText, magnitudeText, Numeral.exponentText] <;>
      split <;> rfl

include hd in
/-- Digits as numbers are laid out in JSON. -/
theorem exists_of_digitsText : ∃ n : Numeral, n.negative = negative ∧
    n.Writes d (Document.layout.digitsText (Nat.toDigits 10 d.coefficient) first) := by
  rw [Layout.digitsText]
  split
  · by_cases hneg : first < 0
    · exact exists_of_small negative hfirst hneg
    · rcases Nat.lt_or_ge (first.toNat + 1) (Nat.toDigits 10 d.coefficient).length with hlong | hwhole
      · exact exists_of_point negative hd hfirst hneg hlong
      · exact exists_of_whole negative hd hfirst hneg hwhole
  · exact exists_of_exponentText negative hfirst

end

end

end Numeral

section
variable {s : UnpackedFloat.Sign} {m : Nat} {e : Int} (hc : Binary64.Canonical m e)

theorem write_finite (l : Layout) : (l.write (.ofModel (.pack (.finite s m e hc.pos)))).toList =
    (if s == .negative then ['-'] else []) ++
      l.magnitudeText (Float.Model.pack (.finite s m e hc.pos)).toBits := by
  have hunpack := @Binary64.unpack_pack s m e hc
  have hnan : (Float.ofModel (.pack (.finite s m e hc.pos))).isNaN = false := by
    change (Float.Model.pack (.finite s m e hc.pos)).unpack.isNaN = false
    rw [hunpack]
    rfl
  have hinf : (Float.ofModel (.pack (.finite s m e hc.pos))).isInf = false := by
    change (Float.Model.pack (.finite s m e hc.pos)).unpack.isInf = false
    rw [hunpack]
    rfl
  have hminus : (Float.ofModel (.pack (.finite s m e hc.pos))).toBits >>> 63 = 1 ↔ s = .negative :=
    (ofBits_finite hc).2
  simp only [Layout.write, hnan, hinf, Bool.false_eq_true, if_false, String.toList_append,
    String.toList_ofList]
  cases s with
  | negative =>
    rw [if_pos (hminus.2 rfl)]
    rfl
  | positive =>
    rw [if_neg fun h => UnpackedFloat.Sign.noConfusion (hminus.1 h)]
    rfl

theorem exists_magnitudeText (l : Layout) : ∃ d : Digits, 0 < d.coefficient ∧
    Binary64.Rounds d.value m e ∧
    l.magnitudeText (Float.Model.pack (.finite s m e hc.pos)).toBits =
      l.digitsText (Nat.toDigits 10 d.coefficient)
        (d.exponent + (Nat.toDigits 10 d.coefficient).length - 1) := by
  have hproper : Magnitude.Proper ⟨m, e, decide (m = 2 ^ 52 ∧ -1074 < e)⟩ := ⟨hc, rfl⟩
  obtain ⟨hpos, hrounds⟩ := hproper.shortest l.tie
  refine ⟨_, hpos, hrounds, ?_⟩
  rw [Layout.magnitudeText, (ofBits_finite hc).1]
  exact if_neg hc.pos.ne'

end

/-- The text of a finite float is a numeral with a fraction or an exponent, and is read as the
float. -/
theorem exists_numeral_of_float {x : Float} (hx : x.isFinite = true) : ∃ n : Numeral, n.Plain ∧
    n.text = (Document.floatText x).toList ∧ n.toDocument = .float x := by
  rw [Document.floatText, if_pos hx]
  obtain ⟨f⟩ := x
  rcases Binary64.cases f with ⟨s, rfl⟩ | rfl | ⟨s, rfl⟩ | ⟨s, m, e, hc, rfl⟩
  · cases s <;> exact absurd hx (by decide)
  · exact absurd hx (by decide)
  · refine ⟨⟨s == .negative, ['0'], some ['0'], none⟩, ⟨by simp, by simp [Text.isDigit], by simp, ?_⟩,
      ?_, ?_⟩
    · rintro _ ⟨⟩
      simp [Text.isDigit]
    · cases s <;> decide
    · cases s <;> rfl
  · obtain ⟨d, hpos, hrounds, hdigits⟩ := @exists_magnitudeText s m e hc Document.layout
    obtain ⟨n, hnegative, hplain, hmarked, hvalue, htext⟩ :=
      Numeral.exists_of_digitsText (s == .negative) hpos rfl
    refine ⟨n, hplain, ?_, ?_⟩
    · rw [Numeral.text, write_finite hc, hnegative, htext, hdigits]
    · have hpos' : 0 < n.value := by
        rw [hvalue, Digits.value]
        positivity
      rw [hmarked.toDocument_of_rounds hc hpos' (hvalue ▸ hrounds), hnegative]
      cases s <;> rfl

/-! ### Integers -/

/-- An integer that a numeral can denote. -/
def Fits (k : Int) : Prop := -2 ^ 63 ≤ k ∧ k < 2 ^ 64

theorem fits_of_lt {n : Nat} (h : n < 2 ^ 64) : Fits n := ⟨by omega, by omega⟩

theorem plain_toDigits (negative : Bool) (m : Nat) :
    Numeral.Plain ⟨negative, Nat.toDigits 10 m, none, none⟩ := by
  refine ⟨Nat.toDigits_ne_nil, fun c hc => isDigit_of_mem_toDigits hc, fun hzero => ?_, by simp⟩
  rcases Nat.eq_zero_or_pos m with rfl | hpos
  · exact le_rfl
  · exact absurd hzero (head?_toDigits hpos)

/-- The text of an integer is a numeral without fraction and exponent, and is read as it. -/
theorem exists_numeral_of_integer {k : Int} (hk : Fits k) : ∃ n : Numeral, n.Plain ∧
    n.text = (toString k).toList ∧ n.toDocument = .integer k := by
  obtain ⟨hlow, hhigh⟩ := hk
  cases k with
  | ofNat m =>
    refine ⟨_, plain_toDigits false m, ?_, ?_⟩
    · rw [Int.toString_eq_repr, Int.repr, Nat.toList_repr]
      simp [Numeral.text, Numeral.magnitudeText]
    · have hsize : m < Nat.pow 2 64 := by
        change (m : Int) < 2 ^ 64 at hhigh
        change m < 2 ^ 64
        omega
      simp only [Numeral.toDocument, ofDigits_toDigits]
      exact if_pos hsize
  | negSucc m =>
    refine ⟨_, plain_toDigits true (m + 1), ?_, ?_⟩
    · rw [Int.toString_eq_repr, Int.repr, String.toList_append, Nat.toList_repr]
      simp [Numeral.text, Numeral.magnitudeText]
    · have hsize : (decide (0 < m + 1) && decide (m + 1 ≤ Nat.pow 2 63)) = true := by
        rw [Bool.and_eq_true, decide_eq_true_eq, decide_eq_true_eq]
        change 0 < m + 1 ∧ m + 1 ≤ 2 ^ 63
        omega
      simp only [Numeral.toDocument, ofDigits_toDigits]
      exact if_pos hsize

theorem isFinite_of_isInf {x : Float} (hnan : x.toModel.unpack ≠ .notANumber)
    (hinf : x.isInf = false) : x.isFinite = true ∧ (-x).isFinite = true := by
  obtain ⟨f⟩ := x
  rcases Binary64.cases f with ⟨s, rfl⟩ | rfl | ⟨s, rfl⟩ | ⟨s, m, e, hc, rfl⟩
  · cases s <;> exact absurd hinf (by decide)
  · exact absurd Binary64.unpack_pack_notANumber hnan
  · cases s <;> decide
  · have hfinite : ∀ s, (Float.ofModel (.pack (.finite s m e hc.pos))).isFinite = true := by
      intro s
      change (Float.Model.pack (.finite s m e hc.pos)).unpack.isFinite = true
      rw [Binary64.unpack_pack hc]
      rfl
    refine ⟨hfinite s, ?_⟩
    change (Float.ofModel (.pack (Float.Model.pack (.finite s m e hc.pos)).unpack.neg)).isFinite = _
    rw [Binary64.unpack_pack hc]
    exact hfinite _

/-- What a numeral denotes: an integer in its range, a finite float, or nothing. -/
theorem Numeral.toDocument_cases (n : Numeral) : n.toDocument = .void ∨
    (∃ k, Fits k ∧ n.toDocument = .integer k) ∨
      ∃ x : Float, x.isFinite = true ∧ n.toDocument = .float x := by
  have hfloat : ∀ d : Document, d =
      (if (nearestOfDigits n.whole (n.fraction.getD []) (n.exponent.getD 0)).isInf then .void
        else .float (if n.negative then
          -nearestOfDigits n.whole (n.fraction.getD []) (n.exponent.getD 0)
          else nearestOfDigits n.whole (n.fraction.getD []) (n.exponent.getD 0))) →
      d = .void ∨ (∃ k, Fits k ∧ d = .integer k) ∨
        ∃ x : Float, x.isFinite = true ∧ d = .float x := by
    rintro _ rfl
    cases hinf : (nearestOfDigits n.whole (n.fraction.getD []) (n.exponent.getD 0)).isInf with
    | true => exact .inl rfl
    | false =>
      have hfinite := isFinite_of_isInf (nearest_ne _ _) hinf
      refine .inr (.inr ⟨_, ?_, rfl⟩)
      split
      · exact hfinite.2
      · exact hfinite.1
  rw [toDocument]
  split
  · split
    next hsize =>
      have hsize' : ofDigits n.whole < 2 ^ 64 := hsize
      exact .inr (.inl ⟨_, ⟨by omega, by omega⟩, rfl⟩)
    next => exact hfloat _ rfl
  · split
    next hsize =>
      rw [Bool.and_eq_true, decide_eq_true_eq, decide_eq_true_eq] at hsize
      have hsize' : ofDigits n.whole ≤ 2 ^ 63 := hsize.2
      exact .inr (.inl ⟨_, ⟨by omega, by omega⟩, rfl⟩)
    next hneg _ => exact hfloat _ (by rw [hneg]; rfl)
  · exact hfloat _ rfl

end Json

end Covenant
