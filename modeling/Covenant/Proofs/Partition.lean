import Covenant.Proofs.Lexing
import Mathlib.Data.List.TakeWhile
import Mathlib.Tactic.Common

/-! The tokens of a text partition it. From one token to the next there is the text of the one
and then blanks only. That text alone is read as the same token; it stays the same token with
any blanks around it; and no longer beginning of what follows is one token. -/

namespace Covenant.Expr

/-! ### Blanks -/

/-- The code points of the blanks. -/
def blankPoints : List Nat :=
  [0x9, 0xa, 0xb, 0xc, 0xd, 0x20, 0x85, 0xa0, 0x1680, 0x2000, 0x2001, 0x2002, 0x2003, 0x2004,
    0x2005, 0x2006, 0x2007, 0x2008, 0x2009, 0x200a, 0x2028, 0x2029, 0x202f, 0x205f, 0x3000]

theorem toNat_mem_blankPoints {c : Char} (h : Text.isBlank c = true) : c.toNat ∈ blankPoints := by
  obtain ⟨range, hrange, hlow, hhigh⟩ := Text.Ranges.contains_iff.1 h
  simp only [Text.blankRanges, List.mem_cons, List.not_mem_nil, or_false] at hrange
  simp only [blankPoints, List.mem_cons, List.not_mem_nil, or_false]
  rcases hrange with rfl | rfl | rfl | rfl | rfl | rfl | rfl | rfl | rfl | rfl <;>
    simp only at hlow hhigh <;> omega

/-- No token goes on with a blank. -/
theorem separates_of_isBlank {c : Char} (h : Text.isBlank c = true) : separates c = true := by
  have hall : ∀ n ∈ blankPoints, separates (Char.ofNat n) = true := by decide +kernel
  have hc := hall _ (toNat_mem_blankPoints h)
  rwa [Char.ofNat_toNat] at hc

/-- Blanks only. -/
def Blank (cs : List Char) : Prop := ∀ c ∈ cs, Text.isBlank c = true

theorem Blank.nil : Blank [] := by simp [Blank]

/-! ### A token alone -/

theorem Spells.unique {rest cs cs' : List Char} {width width' : Nat} (h : Spells rest cs width)
    (h' : Spells rest cs' width') : width = width' := by
  have heq := (stringTail_of_spells 0 h [] 0).symm.trans (stringTail_of_spells 0 h' [] 0)
  simpa using congrArg Prod.snd (Except.ok.inj heq)

theorem Spells.take {rest cs : List Char} {width : Nat} (h : Spells rest cs width) :
    Spells (rest.take width) cs width := by
  induction h with
  | close rest => exact .close _
  | escaped hc _ ih => exact .escaped hc ih
  | plain hquote hescape _ ih => exact .plain hquote hescape ih

theorem takeWhile_eq_of_all {p : Char → Bool} {whole : List Char}
    (hwhole : ∀ c ∈ whole, p c = true) (tail : List Char)
    (htail : ∀ c ∈ tail.head?, p c = false) :
    (whole ++ tail).takeWhile p = whole := by
  rw [List.takeWhile_append_of_pos hwhole]
  cases tail with
  | nil => simp
  | cons c tail => rw [List.takeWhile_cons, htail c rfl]; simp

theorem numberTail_of_digits {whole : List Char}
    (hwhole : ∀ c ∈ whole, Text.isDigit c = true) (tail : List Char)
    (htail : ∀ c ∈ tail.head?, Text.isDigit c = false) :
    numberTail (whole ++ tail) = (whole, fraction tail) := by
  rw [numberTail_eq, takeWhile_eq_of_all hwhole tail htail, List.drop_left]

/-- The characters that a number takes, and those after it. -/
theorem number_cases (rest : List Char) : ∃ whole more, (∀ c ∈ whole, Text.isDigit c = true) ∧
    ((rest = whole ++ more ∧ numberTail rest = (whole, [])) ∨
      ∃ digits, digits ≠ [] ∧ (∀ c ∈ digits, Text.isDigit c = true) ∧
        rest = whole ++ '.' :: (digits ++ more) ∧ numberTail rest = (whole, digits)) := by
  have hrest := List.takeWhile_append_dropWhile (p := Text.isDigit) (l := rest)
  have hwhole : ∀ c ∈ rest.takeWhile Text.isDigit, Text.isDigit c = true := fun c hc =>
    List.mem_takeWhile_imp hc
  have htail : ∀ c ∈ (rest.dropWhile Text.isDigit).head?, Text.isDigit c = false := by
    intro c hc
    have hnot := List.head?_dropWhile_not Text.isDigit rest
    rwa [Option.mem_def.1 hc] at hnot
  have hnumber := numberTail_of_digits hwhole _ htail
  rw [hrest] at hnumber
  generalize rest.takeWhile Text.isDigit = whole, rest.dropWhile Text.isDigit = tail at *
  refine ⟨whole, ?_⟩
  by_cases hfraction : fraction tail = []
  · exact ⟨tail, hwhole, .inl ⟨hrest.symm, hfraction ▸ hnumber⟩⟩
  · -- a fraction that is not empty comes after a point
    obtain ⟨after, rfl⟩ : ∃ after, tail = '.' :: after := by
      cases tail with
      | nil => exact absurd rfl hfraction
      | cons c after =>
        by_cases hc : c = '.'
        · exact ⟨after, by rw [hc]⟩
        · exact absurd (fraction_of_ne hc after) hfraction
    refine ⟨after.dropWhile Text.isDigit, hwhole, .inr ⟨fraction ('.' :: after), hfraction, ?_, ?_,
      hnumber⟩⟩
    · exact fun c hc => List.mem_takeWhile_imp hc
    · rw [← hrest]
      congr 2
      exact List.takeWhile_append_dropWhile.symm

theorem numberTail_take (rest : List Char) :
    numberTail (rest.take (numberWidth rest)) = numberTail rest := by
  unfold numberWidth
  obtain ⟨whole, more, hwhole, ⟨rfl, hnumber⟩ | ⟨digits, hne, hdigits, rfl, hnumber⟩⟩ :=
    number_cases rest
  · have halone := numberTail_of_digits hwhole [] nofun
    rw [List.append_nil] at halone
    simp [hnumber, halone, fraction]
  · have halone := numberTail_of_digits hwhole ('.' :: digits) (by simp; decide)
    have hlength : whole.length + 1 + digits.length = (whole ++ '.' :: digits).length := by
      simp; omega
    have hfraction : fraction ('.' :: digits) = digits := by
      have hall := takeWhile_eq_of_all hdigits [] nofun
      rwa [List.append_nil] at hall
    have hempty : digits.isEmpty = false := by simpa using hne
    simp only [hnumber, hempty]
    rw [show whole ++ '.' :: (digits ++ more) = (whole ++ '.' :: digits) ++ more by simp]
    simp only [Bool.false_eq_true, if_false, hlength, List.take_left, halone, hfraction]

/-- A token is read from its own characters alone. -/
theorem Lexeme.take {c : Char} {rest : List Char} {t : Token} {width : Nat}
    (h : Lexeme c rest t width) : Lexeme c (rest.take width) t width := by
  cases h with
  | symbol rest h => exact .symbol _ h
  | long rest h => exact .long _ h
  | short h hrest => exact .short h (by simp)
  | doubled rest h => exact .doubled _ h
  | string h => exact .string h.take
  | number hc h =>
    have hwidth : numberWidth (rest.take (numberWidth rest)) = numberWidth rest := by
      conv_lhs => rw [numberWidth, numberTail_take]
      rfl
    rw [← numberTail_take] at h
    have hnumber := Lexeme.number hc h
    rwa [hwidth] at hnumber
  | word rest hc hdigit =>
    have hword : (rest.take (rest.takeWhile Text.continuesWord).length).takeWhile
        Text.continuesWord = rest.takeWhile Text.continuesWord := by
      rw [← List.prefix_iff_eq_take.1 (List.takeWhile_prefix Text.continuesWord)]
      exact List.takeWhile_eq_self_iff.2 fun c hc => List.mem_takeWhile_imp hc
    have h := Lexeme.word (rest.take (rest.takeWhile Text.continuesWord).length) hc hdigit
    rwa [hword] at h

theorem takeWhile_isPrefix (p : Char → Bool) (rest more : List Char) :
    rest.takeWhile p <+: (rest ++ more).takeWhile p := by
  rw [List.takeWhile_append]
  split
  · exact List.IsPrefix.trans (List.takeWhile_prefix p) (List.prefix_append _ _)
  · exact List.prefix_rfl

/-- More characters do not make a number shorter. -/
theorem numberWidth_le_append (rest more : List Char) :
    numberWidth rest ≤ numberWidth (rest ++ more) := by
  obtain ⟨whole, after, hwhole, ⟨rfl, hnumber⟩ | ⟨digits, hne, hdigits, rfl, hnumber⟩⟩ :=
    number_cases rest
  · have hlong := (takeWhile_isPrefix Text.isDigit (whole ++ after) more).length_le
    have heq := numberTail_eq (whole ++ after)
    rw [hnumber] at heq
    rw [← (Prod.mk.inj heq).1] at hlong
    have hwidth : numberWidth (whole ++ after) = whole.length := by simp [numberWidth, hnumber]
    rw [hwidth, numberWidth, numberTail_eq]
    show whole.length ≤ _ + _ + _
    omega
  · have htail : fraction ('.' :: (digits ++ (after ++ more))) =
        digits ++ (after ++ more).takeWhile Text.isDigit :=
      List.takeWhile_append_of_pos hdigits
    have hlonger : numberTail (whole ++ '.' :: (digits ++ after) ++ more) =
        (whole, digits ++ (after ++ more).takeWhile Text.isDigit) := by
      rw [List.append_assoc, List.cons_append, List.append_assoc,
        numberTail_of_digits hwhole _ (by simp; decide), htail]
    simp only [numberWidth, hnumber, hlonger]
    simp [hne]

theorem Lexeme.of_quote {rest : List Char} {t : Token} {width : Nat}
    (h : Lexeme '"' rest t width) : ∃ cs, Spells rest cs width := by
  cases h with
  | symbol _ hc | long _ hc | short hc | doubled _ hc => cases hc
  | string h => exact ⟨_, h⟩
  | number hc => exact absurd hc (by decide)
  | word _ hc => exact absurd hc (by decide)

theorem Lexeme.of_digit {c : Char} {rest : List Char} {t : Token} {width : Nat}
    (h : Lexeme c rest t width) (hc : Text.isDigit c = true) : width = numberWidth rest := by
  cases h with
  | symbol _ hs | long _ hs | short hs | doubled _ hs => cases hs <;> exact absurd hc (by decide)
  | string => exact absurd hc (by decide)
  | number => rfl
  | word _ _ hdigit =>
    rw [hc] at hdigit
    cases hdigit

/-- More characters do not make a token shorter. -/
theorem Lexeme.width_le_append {c : Char} {rest more : List Char} {t t' : Token}
    {width width' : Nat} (h : Lexeme c rest t width) (h' : Lexeme c (rest ++ more) t' width') :
    width ≤ width' := by
  have hread : lexeme 0 c rest = .ok (t, width) := lexeme_eq_ok_iff.2 h
  generalize hlonger : rest ++ more = longer at h'
  cases h' with
  | symbol _ hc =>
    rw [lexeme_of_symbol _ _ hc] at hread
    cases hread
    exact Nat.le_refl 0
  | long _ hc =>
    rw [lexeme_of_extension _ _ hc, extended_eq] at hread
    split at hread <;> cases hread <;> simp
  | short hc hrest =>
    have hnone : rest.head? ≠ some '=' := by
      intro hhead
      obtain ⟨after, rfl⟩ := List.head?_eq_some_iff.1 hhead
      exact hrest (by rw [← hlonger]; rfl)
    rw [lexeme_of_extension _ _ hc, extended_eq, if_neg hnone] at hread
    cases hread
    exact Nat.le_refl 0
  | doubled _ hc =>
    rw [lexeme_of_doubled _ _ hc] at hread
    cases (of_doubled_eq_ok hread).2
    exact Nat.le_refl 1
  | string h' =>
    obtain ⟨cs, hspells⟩ := h.of_quote
    rw [← hlonger] at h'
    exact Nat.le_of_eq ((hspells.append more).unique h')
  | number hc h' =>
    rw [h.of_digit hc, ← hlonger]
    exact numberWidth_le_append rest more
  | word _ hc hdigit =>
    rw [lexeme_of_notMem _ _ (notMem_marks (by decide) hc),
      if_neg (Bool.eq_false_iff.1 hdigit), if_pos hc] at hread
    cases hread
    rw [← hlonger]
    exact (takeWhile_isPrefix Text.continuesWord rest more).length_le

/-- A character that may continue a token is not blank. -/
theorem isBlank_eq_false {p : Char → Bool} (hp : ∀ c, separates c = true → p c = false) {c : Char}
    (hc : p c = true) : Text.isBlank c = false := by
  by_contra hblank
  rw [hp c (separates_of_isBlank (Bool.of_not_eq_false hblank))] at hc
  cases hc

theorem isBlank_of_digit {c : Char} (hc : Text.isDigit c = true) : Text.isBlank c = false :=
  isBlank_eq_false (fun _ h => (of_separates h).2.1) hc

theorem Spells.getLast? {rest cs : List Char} {width : Nat} (h : Spells rest cs width)
    (hwidth : width = rest.length) : rest.getLast? = some '"' := by
  induction h with
  | close rest =>
    obtain rfl : rest = [] := by simpa using hwidth.symm
    rfl
  | escaped _ _ ih => simp [List.getLast?_cons, ih (by simpa using hwidth)]
  | plain _ _ _ ih => simp [List.getLast?_cons, ih (by simpa using hwidth)]

/-- A number has digits, and a point before some of them. -/
theorem not_blank_of_numberWidth {rest : List Char} (h : numberWidth rest = rest.length) :
    ∀ d ∈ rest, Text.isBlank d = false := by
  obtain ⟨whole, more, hwhole, ⟨rfl, hnumber⟩ | ⟨digits, hne, hdigits, rfl, hnumber⟩⟩ :=
    number_cases rest
  · obtain rfl : more = [] := by simpa [numberWidth, hnumber] using h
    exact fun d hd => isBlank_of_digit (hwhole d (by simpa using hd))
  · have hmore : more.length = 0 := by
      simp only [numberWidth, hnumber, List.isEmpty_iff, hne, if_false, List.length_append,
        List.length_cons] at h
      omega
    obtain rfl := List.length_eq_zero_iff.1 hmore
    intro d hd
    rw [List.append_nil, List.mem_append, List.mem_cons] at hd
    rcases hd with hd | rfl | hd
    · exact isBlank_of_digit (hwhole d hd)
    · decide
    · exact isBlank_of_digit (hdigits d hd)

/-- A token does not end with a blank. -/
theorem Lexeme.getLast_not_blank {c : Char} {rest : List Char} {t : Token} {width : Nat}
    (h : Lexeme c rest t width) (hwidth : width = rest.length) (hc : Text.isBlank c = false) :
    ∀ d ∈ (c :: rest).getLast?, Text.isBlank d = false := by
  have hall : (∀ d ∈ rest, Text.isBlank d = false) →
      ∀ d ∈ (c :: rest).getLast?, Text.isBlank d = false := by
    intro hrest d hd
    rcases List.mem_cons.1 (List.mem_of_getLast? hd) with rfl | hmem
    · exact hc
    · exact hrest d hmem
  cases h with
  | symbol _ _ | short _ _ =>
    obtain rfl := List.length_eq_zero_iff.1 hwidth.symm
    exact hall nofun
  | long rest _ =>
    obtain rfl : rest = [] := by simpa using hwidth.symm
    exact hall (List.forall_mem_singleton.2 (by decide))
  | doubled rest _ =>
    obtain rfl : rest = [] := by simpa using hwidth.symm
    exact hall (List.forall_mem_singleton.2 hc)
  | string h =>
    intro d hd
    rw [List.getLast?_cons, h.getLast? hwidth] at hd
    cases hd
    decide
  | number _ _ => exact hall (not_blank_of_numberWidth hwidth)
  | word rest _ _ =>
    have hprefix : rest.takeWhile Text.continuesWord <+: rest := List.takeWhile_prefix _
    refine hall fun d hd => isBlank_eq_false (fun _ h => (of_separates h).1) ?_
    rw [← hprefix.eq_of_length hwidth] at hd
    exact List.mem_takeWhile_imp hd

/-! ### A text cut at its tokens -/

theorem Lexes.blanks {start : Nat} {gap rest : List Char} {ts : List Located} (hgap : Blank gap)
    (h : Lexes (start + gap.length) rest ts) : Lexes start (gap ++ rest) ts := by
  induction gap generalizing start with
  | nil => exact h
  | cons c gap ih =>
    obtain ⟨hc, hgap⟩ := List.forall_mem_cons.1 hgap
    refine .blank hc (ih hgap ?_)
    rwa [Nat.add_assoc, Nat.add_comm 1, ← List.length_cons]

/-- A text that starts at an offset, cut before and after the text of each of its tokens. -/
inductive Divided : Nat → List Char → List Located → List (List Char) → Prop
  | finish (start : Nat) {gap : List Char} (hgap : Blank gap) : Divided start gap [] []
  | token {start : Nat} {gap tail rest : List Char} {c : Char} {t : Token} {ts : List Located}
    {lexemes : List (List Char)} (hgap : Blank gap) (hc : Text.isBlank c = false)
    (ht : Lexeme c (tail ++ rest) t tail.length)
    (h : Divided (start + gap.length + (c :: tail).length) rest ts lexemes) :
    Divided start (gap ++ (c :: tail ++ rest)) (⟨t, start + gap.length⟩ :: ts)
      ((c :: tail) :: lexemes)

namespace Divided

variable {start : Nat} {cs : List Char} {ts : List Located} {lexemes : List (List Char)}

theorem blank {c : Char} (hc : Text.isBlank c = true) (h : Divided (start + 1) cs ts lexemes) :
    Divided start (c :: cs) ts lexemes := by
  have hstart : ∀ gap : List Char, start + 1 + gap.length = start + (c :: gap).length := by
    intro gap
    rw [List.length_cons]
    omega
  cases h with
  | finish _ hgap => exact .finish start (List.forall_mem_cons.2 ⟨hc, hgap⟩)
  | token hgap hd ht h =>
    rw [hstart] at h ⊢
    exact .token (List.forall_mem_cons.2 ⟨hc, hgap⟩) hd ht h

theorem of_lexes (h : Lexes start cs ts) : ∃ lexemes, Divided start cs ts lexemes := by
  induction h with
  | nil start => exact ⟨[], .finish start nofun⟩
  | blank hc _ ih =>
    obtain ⟨lexemes, h⟩ := ih
    exact ⟨lexemes, h.blank hc⟩
  | @token start c rest t width ts hc ht _ ih =>
    obtain ⟨lexemes, h⟩ := ih
    have hlength : (rest.take width).length = width := List.length_take_of_le ht.width_le
    have hcut : rest.take width ++ rest.drop width = rest := List.take_append_drop _ _
    have hlexeme : Lexeme c (rest.take width ++ rest.drop width) t (rest.take width).length := by
      rwa [hcut, hlength]
    have hrest : Divided (start + 0 + (c :: rest.take width).length) (rest.drop width) ts
        lexemes := by
      rw [List.length_cons, hlength, Nat.add_comm width]
      rwa [Nat.add_assoc] at h
    have hdivided := token .nil hc hlexeme hrest
    rw [List.cons_append, hcut] at hdivided
    exact ⟨_, hdivided⟩

/-- The next token stands after blanks only, or the text ends there. -/
theorem exists_gap (h : Divided start cs ts lexemes) : ∃ gap tail, cs = gap ++ tail ∧ Blank gap ∧
    ∀ next ∈ (ts ++ [(⟨.eof, start + cs.length⟩ : Located)]).head?,
      next.offset = start + gap.length := by
  cases h with
  | finish _ hgap => exact ⟨cs, [], by simp, hgap, by simp⟩
  | token hgap => exact ⟨_, _, rfl, hgap, by simp⟩

theorem length_eq (h : Divided start cs ts lexemes) : ts.length = lexemes.length := by
  induction h with
  | finish => rfl
  | token _ _ _ _ ih => rw [List.length_cons, List.length_cons, ih]

theorem start_le (h : Divided start cs ts lexemes) : ∀ t ∈ ts, start ≤ t.offset := by
  induction h with
  | finish => nofun
  | token _ _ _ _ ih =>
    refine List.forall_mem_cons.2 ⟨Nat.le_add_right _ _, fun t ht => ?_⟩
    have hle := ih t ht
    omega

theorem offset_lt (h : Divided start cs ts lexemes) :
    (ts ++ [(⟨.eof, start + cs.length⟩ : Located)]).Pairwise (·.offset < ·.offset) := by
  induction h with
  | finish => simp
  | @token start gap tail rest c t ts lexemes _ _ _ h ih =>
    have hend : start + gap.length + (c :: tail).length + rest.length =
        start + (gap ++ (c :: tail ++ rest)).length := by
      simp only [List.length_append]
      omega
    rw [hend] at ih
    refine List.pairwise_cons.2 ⟨fun next hnext => ?_, ih⟩
    rcases List.mem_append.1 hnext with hnext | hnext
    · have hle := h.start_le next hnext
      simp only [List.length_cons] at hle
      show start + gap.length < _
      omega
    · rw [List.mem_singleton.1 hnext, ← hend]
      simp only [List.length_cons]
      omega

end Divided

/-- The text of one token, and of nothing else: no blanks stand before or after it. -/
structure Writes (cs : List Char) (t : Token) : Prop where
  tokenize_eq : tokenize (String.ofList cs) = .ok [⟨t, 0⟩, ⟨.eof, cs.length⟩]
  last : ∀ c ∈ cs.getLast?, Text.isBlank c = false

theorem Lexeme.alone {c : Char} {tail rest : List Char} {t : Token}
    (h : Lexeme c (tail ++ rest) t tail.length) : Lexeme c tail t tail.length := by
  have halone := h.take
  rwa [List.take_left] at halone

theorem Lexeme.lexes {c : Char} {tail rest : List Char} {t : Token}
    (h : Lexeme c (tail ++ rest) t tail.length) (hc : Text.isBlank c = false) (start : Nat) :
    Lexes start (c :: tail) [⟨t, start⟩] := by
  refine .token hc h.alone ?_
  rw [List.drop_length]
  exact .nil _

theorem Lexeme.writes {c : Char} {tail rest : List Char} {t : Token}
    (h : Lexeme c (tail ++ rest) t tail.length) (hc : Text.isBlank c = false) :
    Writes (c :: tail) t := by
  refine ⟨?_, h.alone.getLast_not_blank rfl hc⟩
  have hlexes := h.lexes hc 0
  rw [← String.toList_ofList (l := c :: tail)] at hlexes
  rw [tokenize_of_lexes hlexes, String.toList_ofList]
  rfl

theorem Divided.single {start : Nat} {cs : List Char} {t : Token} {lexemes : List (List Char)}
    (h : Divided start cs [⟨t, start⟩] lexemes) : ∃ c tail gap, cs = c :: tail ++ gap ∧
      Blank gap ∧ Lexeme c (tail ++ gap) t tail.length := by
  generalize hts : [(⟨t, start⟩ : Located)] = ts at h
  cases h with
  | finish => cases hts
  | token _ _ ht h =>
    obtain ⟨ht', rfl⟩ := List.cons.inj hts
    obtain ⟨rfl, hoffset⟩ := Located.mk.inj ht'
    obtain rfl := List.length_eq_zero_iff.1 (Nat.left_eq_add.1 hoffset)
    cases h with
    | finish _ hblanks => exact ⟨_, _, _, rfl, hblanks, ht⟩

theorem Writes.lexeme {c : Char} {rest : List Char} {t : Token} (h : Writes (c :: rest) t) :
    Lexeme c rest t rest.length := by
  obtain ⟨ts, hlexes, hts⟩ := exists_lexes_of_tokenize h.tokenize_eq
  rw [String.toList_ofList] at hlexes hts
  obtain ⟨lexemes, hdivided⟩ := Divided.of_lexes hlexes
  obtain rfl : ts = [⟨t, 0⟩] := List.append_cancel_right hts.symm
  obtain ⟨_, tail, gap, hcs, hgap, ht⟩ := hdivided.single
  obtain ⟨rfl, rfl⟩ := List.cons.inj hcs
  -- blanks after the token would be the last characters
  obtain rfl : gap = [] := by
    rcases List.eq_nil_or_concat gap with hnil | ⟨blanks, d, rfl⟩
    · exact hnil
    · have hnot := h.last d (by simp [List.getLast?_cons])
      rw [hgap d (by simp)] at hnot
      cases hnot
  simpa using ht

/-! ### The partition -/

/-- Texts joined by blanks, with at least one between each two of them. -/
inductive Joins : List (List Char) → List Char → Prop
  | nil : Joins [] []
  | single (lexeme : List Char) : Joins [lexeme] lexeme
  | cons (lexeme : List Char) {gap next joined : List Char} {lexemes : List (List Char)}
    (hgap : Blank gap) (hne : gap ≠ []) (h : Joins (next :: lexemes) joined) :
    Joins (lexeme :: next :: lexemes) (lexeme ++ gap ++ joined)

/-- The text of a token in a text, up to the token after it. -/
structure Cut (text : List Char) (t next : Located) (lexeme : List Char) : Prop where
  ne_nil : lexeme ≠ []
  between : ∃ gap, Blank gap ∧ (text.drop t.offset).take (next.offset - t.offset) = lexeme ++ gap
  writes : Writes lexeme t.token
  longest : ∀ more, more ≠ [] → more <+: text.drop (t.offset + lexeme.length) →
    ∀ t', ¬Writes (lexeme ++ more) t'

theorem Divided.cut {start : Nat} {cs : List Char} {ts : List Located}
    {lexemes : List (List Char)} (h : Divided start cs ts lexemes) (front : List Char)
    (hfront : front.length = start)
    {i : Nat} {t next : Located} {lexeme : List Char}
    (ht : (ts ++ [(⟨.eof, start + cs.length⟩ : Located)])[i]? = some t)
    (hnext : (ts ++ [(⟨.eof, start + cs.length⟩ : Located)])[i + 1]? = some next)
    (hlexeme : lexemes[i]? = some lexeme) : Cut (front ++ cs) t next lexeme := by
  induction h generalizing front i with
  | finish => cases hlexeme
  | @token start gap tail rest c _ ts lexemes hgap hc hread h ih =>
    subst hfront
    have hend : front.length + gap.length + (c :: tail).length + rest.length =
        front.length + (gap ++ (c :: tail ++ rest)).length := by
      simp only [List.length_append]
      omega
    rw [← hend] at ht hnext
    cases i with
    | zero =>
      obtain ⟨gap', after, rfl, hgap', hoffset⟩ := h.exists_gap
      cases ht
      cases hlexeme
      have hnext' := hoffset next (by simpa [List.head?_eq_getElem?] using hnext)
      have htext : front ++ (gap ++ (c :: tail ++ (gap' ++ after))) =
          (front ++ gap) ++ (c :: tail ++ (gap' ++ after)) := by rw [List.append_assoc]
      rw [htext]
      refine ⟨by simp, ⟨gap', hgap', ?_⟩, hread.writes hc, fun more hmore hprefix t' hwrites => ?_⟩
      · rw [hnext', ← List.length_append, List.drop_left, ← List.append_assoc (c :: tail),
          Nat.add_assoc, Nat.add_sub_cancel_left, ← List.length_append, List.take_left]
      · rw [← List.length_append, ← List.length_append, ← List.append_assoc (front ++ gap),
          List.drop_left] at hprefix
        obtain ⟨others, hothers⟩ := hprefix
        rw [← hothers, ← List.append_assoc] at hread
        -- the longer text would be read in the place of the token
        have hlonger : Lexeme c (tail ++ more) t' (tail ++ more).length := Writes.lexeme hwrites
        have hle := hlonger.width_le_append hread
        rw [List.length_append] at hle
        exact hmore (List.length_eq_zero_iff.1 (by omega))
    | succ i =>
      have hcut := ih (front ++ gap ++ (c :: tail)) (by simp; omega) ht hnext hlexeme
      simpa using hcut

/-- Texts of tokens with blanks between them are read as the same tokens. -/
theorem Divided.joined {start : Nat} {cs joined : List Char} {ts : List Located}
    {lexemes : List (List Char)} (h : Divided start cs ts lexemes) (hjoins : Joins lexemes joined)
    (place : Nat) : ∃ us, Lexes place joined us ∧ us.map Located.token = ts.map Located.token := by
  induction h generalizing joined place with
  | finish =>
    cases hjoins
    exact ⟨[], .nil _, rfl⟩
  | token _ hc ht h ih =>
    have halone := ht.lexes hc place
    cases hjoins with
    | single =>
      obtain rfl := List.length_eq_zero_iff.1 h.length_eq
      exact ⟨_, halone, rfl⟩
    | @cons _ gap _ joined _ hgap hne hjoins =>
      obtain ⟨us, hus, htokens⟩ := ih hjoins (place + (_ :: _).length + gap.length)
      have hapart : Apart (gap ++ joined) := by
        cases gap with
        | nil => exact absurd rfl hne
        | cons d gap => exact .cons (separates_of_isBlank (hgap d (by simp))) _
      refine ⟨_, List.append_assoc .. ▸ halone.append (.blanks hgap hus) hapart, ?_⟩
      simp [htokens]

/-- The tokens of a text partition it. Their offsets increase up to that of the only `eof`, at
the end; blanks alone stand before the first token, and from each token to the next its own
text and then blanks. The text of a token is read alone as that token, with any blanks between
them these texts are read as the same tokens, and none of them goes on to a longer token. -/
theorem tokens_partition {text : String} {tokens : List Located} (h : tokenize text = .ok tokens) :
    tokens.Pairwise (·.offset < ·.offset) ∧ (∀ t ∈ tokens, t.column = t.offset + 1) ∧
      (∃ ts, tokens = ts ++ [⟨.eof, text.toList.length⟩] ∧ ∀ t ∈ ts, t.token ≠ .eof) ∧
      (∀ first ∈ tokens.head?, Blank (text.toList.take first.offset)) ∧
      ∃ lexemes, tokens.length = lexemes.length + 1 ∧
        (∀ (i : Nat) t next lexeme, tokens[i]? = some t → tokens[i + 1]? = some next →
          lexemes[i]? = some lexeme → Cut text.toList t next lexeme) ∧
        ∀ joined, Joins lexemes joined → ∃ again, tokenize (String.ofList joined) = .ok again ∧
          again.map Located.token = tokens.map Located.token := by
  obtain ⟨ts, hlexes, rfl⟩ := exists_lexes_of_tokenize h
  obtain ⟨lexemes, hdivided⟩ := Divided.of_lexes hlexes
  have hend : text.toList.length = 0 + text.toList.length := (Nat.zero_add _).symm
  refine ⟨hend ▸ hdivided.offset_lt, fun _ _ => rfl, ⟨ts, rfl, hlexes.ne_eof⟩,
    fun first hfirst => ?_, lexemes, by simp [hdivided.length_eq], ?_, fun joined hjoins => ?_⟩
  · obtain ⟨gap, tail, htext, hgap, hoffset⟩ := hdivided.exists_gap
    rw [hoffset first (hend ▸ hfirst), htext, Nat.zero_add, List.take_left]
    exact hgap
  · intro i t next lexeme ht hnext hlexeme
    rw [hend] at ht hnext
    exact hdivided.cut [] rfl ht hnext hlexeme
  · obtain ⟨us, hus, htokens⟩ := hdivided.joined hjoins 0
    rw [← String.toList_ofList (l := joined)] at hus
    exact ⟨_, tokenize_of_lexes hus, by simp [htokens]⟩

theorem tokens_partition_comparison :
    tokenize "a >= b" =
        .ok [⟨.word "a", 0⟩, ⟨.greaterEqual, 2⟩, ⟨.word "b", 5⟩, ⟨.eof, 6⟩] ∧
      ∃ lexeme, Cut "a >= b".toList ⟨.greaterEqual, 2⟩ ⟨.word "b", 5⟩ lexeme := by
  have htokens : tokenize "a >= b" =
      .ok [⟨.word "a", 0⟩, ⟨.greaterEqual, 2⟩, ⟨.word "b", 5⟩, ⟨.eof, 6⟩] := by
    with_unfolding_all rfl
  obtain ⟨-, -, -, -, lexemes, hlength, hcut, -⟩ := tokens_partition htokens
  have hone : 1 < lexemes.length := by
    rw [← Nat.succ.inj hlength]
    decide
  exact ⟨htokens, lexemes[1], hcut 1 _ _ _ rfl rfl (List.getElem?_eq_getElem hone)⟩

end Covenant.Expr
