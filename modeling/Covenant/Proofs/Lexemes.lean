import Covenant.Json.Reader
import Mathlib.Data.List.TakeWhile

/-! Lexemes of JSON texts. A text is made of lexemes with blanks before, between and after them,
and its tokens are those of its lexemes. So blanks have no meaning: two texts with the same
lexemes write the same document. -/

namespace Covenant.Json

/-! ### Tokens at the start of a text -/

theorem pieces?_escape {read : List Piece} {width : Nat} {c e : Char} (h : escape? c = some e)
    (rest : List Char) : pieces? read width ('\\' :: c :: rest) =
      pieces? (.char e :: read) (width + 2) rest := by
  have hu : c ≠ 'u' := by
    rintro rfl
    cases h
  rw [pieces?, h]
  exact fun _ _ _ _ _ hc => absurd hc hu

theorem pieces?_unescaped {read : List Piece} {width : Nat} {c : Char} (hquote : c ≠ '"')
    (hescape : c ≠ '\\') (hc : ¬c.toNat < 0x20) (rest : List Char) :
    pieces? read width (c :: rest) = pieces? (.char c :: read) (width + 1) rest := by
  rw [pieces?, if_neg hc]
  · exact hquote
  · exact fun _ _ _ _ _ h => absurd h hescape
  · exact fun _ _ h => absurd h hescape

/-- What is found in the text is found in a start of it already, whatever follows. -/
def Closes (read : List Piece) (width : Nat) (cs : List Char) (found : List Piece × Nat) : Prop :=
  ∃ body rest, cs = body ++ rest ∧ found.2 = width + body.length ∧
    ∀ other, pieces? read width (body ++ other) = some found

theorem Closes.after {read read' : List Piece} {width : Nat} {unit tail : List Char}
    {found : List Piece × Nat} (h : Closes read' (width + unit.length) tail found)
    (hunit : ∀ other, pieces? read width (unit ++ other) =
      pieces? read' (width + unit.length) other) : Closes read width (unit ++ tail) found := by
  obtain ⟨body, rest, rfl, hwidth, hbody⟩ := h
  refine ⟨unit ++ body, rest, (List.append_assoc _ _ _).symm, ?_, fun other => ?_⟩
  · rw [hwidth, List.length_append, Nat.add_assoc]
  · rw [List.append_assoc, hunit, hbody]

/-- A string is read up to its closing quote. -/
theorem closes_of_pieces? {read : List Piece} {width : Nat} {cs : List Char}
    {found : List Piece × Nat} (h : pieces? read width cs = some found) :
    Closes read width cs found := by
  induction read, width, cs using pieces?.induct with
  | case1 read width tail =>
    rw [pieces?] at h
    cases h
    exact ⟨['"'], tail, rfl, rfl, fun _ => rfl⟩
  | case2 read width a b c d rest n hn ih =>
    have hunit : ∀ other, pieces? read width (['\\', 'u', a, b, c, d] ++ other) =
        pieces? (.ofUnit n :: read) (width + 6) other := by
      intro other
      simp only [List.cons_append, List.nil_append, pieces?, hn]
    exact (ih (hunit rest ▸ h)).after hunit
  | case3 read width a b c d rest hn =>
    rw [pieces?, hn] at h
    cases h
  | case4 read width c rest _ e he ih =>
    have hunit : ∀ other, pieces? read width (['\\', c] ++ other) =
        pieces? (.char e :: read) (width + 2) other := pieces?_escape he
    exact (ih (hunit rest ▸ h)).after hunit
  | case5 read width c rest hu he =>
    rw [pieces?, he] at h
    · cases h
    · exact hu
  | case6 read width c rest hquote hunit hescape hc =>
    rw [pieces?, if_pos hc] at h
    · cases h
    · exact hquote
    · exact hunit
    · exact hescape
  | case7 read width c rest hquote hhex hescape hc ih =>
    -- a lone backslash at the end closes nothing
    have hne : c ≠ '\\' := by
      rintro rfl
      cases rest with
      | nil => exact absurd h (by simp [pieces?])
      | cons a rest => exact hescape a rest rfl rfl
    have hunit : ∀ other, pieces? read width ([c] ++ other) =
        pieces? (.char c :: read) (width + 1) other :=
      pieces?_unescaped (fun e => hquote e) hne hc
    exact (ih (hunit rest ▸ h)).after hunit
  | case8 read width =>
    rw [pieces?] at h
    cases h

/-! ### Lexemes -/

/-- A piece of text that is one token. -/
structure Lexeme where
  first : Char
  rest : List Char
  token : Token
  solid : isBlank first = false
  reads : token? first rest = some (token, rest.length)

/-- The text does not go on with what numerals are made of. -/
def Stops (cs : List Char) : Prop := ∀ c ∈ cs.head?, inNumeral c = false

/-- The text can follow what starts with the character: anything, but not more of a numeral. -/
def Follows (first : Char) (cs : List Char) : Prop := inNumeral first = true → Stops cs

theorem numeral?_eq_none {c : Char} (h : inNumeral c = false) (cs : List Char) :
    numeral? (c :: cs) = none := by
  simp only [inNumeral, Bool.or_eq_false_iff] at h
  obtain ⟨⟨⟨⟨⟨hdigit, hminus⟩, -⟩, -⟩, -⟩, -⟩ := h
  have hsign : sign (c :: cs) = (false, c :: cs) := by
    unfold sign
    split
    next heq =>
      cases heq
      cases hminus
    next => rfl
  have hdigits : digits? (c :: cs) = none := by
    rw [digits?, List.takeWhile_cons_of_neg (by simp [hdigit])]
  rw [numeral?, hsign]
  simp [whole?, hdigits]

theorem token?_of_inNumeral {c : Char} (h : inNumeral c = true) (cs : List Char) :
    token? c cs = (numeral? (c :: cs.takeWhile inNumeral)).map fun n =>
      (.leaf n.toDocument, (cs.takeWhile inNumeral).length) := by
  unfold token?
  split <;> first | exact absurd h (by decide) | rfl

theorem takeWhile_append_of_stops {tail cs : List Char} (h : ∀ c ∈ tail, inNumeral c = true)
    (hcs : Stops cs) : (tail ++ cs).takeWhile inNumeral = tail := by
  rw [List.takeWhile_append_of_pos h]
  cases cs with
  | nil => simp
  | cons c cs => simp [hcs c rfl]

theorem stops_dropWhile (cs : List Char) : Stops (cs.dropWhile inNumeral) := by
  intro c hc
  have hnot := List.head?_dropWhile_not inNumeral cs
  rw [Option.mem_def.1 hc] at hnot
  simpa using hnot

/-- The token is read from a start of the text, whatever else follows it. -/
def Begins (c : Char) (cs : List Char) (token : Token) (width : Nat) : Prop :=
  ∃ body rest, cs = body ++ rest ∧ width = body.length ∧ Follows c rest ∧
    ∀ other, Follows c other → token? c (body ++ other) = some (token, width)

section
variable {c : Char} {cs : List Char} {token : Token} {width : Nat}

/-- A mark is read alone. -/
theorem begins_of_mark (hc : inNumeral c = false) {mark : Token}
    (hmark : ∀ other, token? c other = some (mark, 0))
    (h : token? c cs = some (token, width)) : Begins c cs token width := by
  cases (hmark cs).symm.trans h
  exact ⟨[], cs, rfl, rfl, fun hnum => absurd hnum (by simp [hc]), fun other _ => hmark other⟩

/-- A literal is read from its first character and the others. -/
theorem begins_of_literal (hc : inNumeral c = false) {literal : Token} (others : List Char)
    (hliteral : ∀ other, token? c other =
      if other.take others.length = others then some (literal, others.length) else none)
    (h : token? c cs = some (token, width)) : Begins c cs token width := by
  rw [hliteral] at h
  split at h
  next htake =>
    cases h
    refine ⟨others, cs.drop others.length, ?_, rfl, fun hnum => absurd hnum (by simp [hc]),
      fun other _ => ?_⟩
    · have hsplit := List.take_append_drop others.length cs
      rw [htake] at hsplit
      exact hsplit.symm
    · rw [hliteral, List.take_left, if_pos rfl]
  next => cases h

theorem begins_of_token? (h : token? c cs = some (token, width)) : Begins c cs token width := by
  cases hc : inNumeral c with
  | true =>
    rw [token?_of_inNumeral hc] at h
    obtain ⟨n, hn, heq⟩ := Option.map_eq_some_iff.1 h
    cases heq
    refine ⟨cs.takeWhile inNumeral, cs.dropWhile inNumeral,
      (List.takeWhile_append_dropWhile).symm, rfl, fun _ => stops_dropWhile cs,
      fun other hother => ?_⟩
    have htail : ∀ a ∈ cs.takeWhile inNumeral, inNumeral a = true :=
      fun a ha => List.mem_takeWhile_imp ha
    rw [token?_of_inNumeral hc, takeWhile_append_of_stops htail (hother hc), hn]
    rfl
  | false =>
    have htoken := h
    unfold token? at h
    split at h
    case h_7 =>
      obtain ⟨⟨ps, w⟩, hpieces, heq⟩ := Option.map_eq_some_iff.1 h
      cases heq
      obtain ⟨body, rest, hbody, hwidth, hother⟩ := closes_of_pieces? hpieces
      refine ⟨body, rest, hbody, by simpa using hwidth, fun hnum => absurd hnum (by simp [hc]),
        fun other _ => ?_⟩
      change (pieces? [] 0 (body ++ other)).map _ = _
      rw [hother]
      rfl
    case h_8 => exact begins_of_literal hc ['u', 'l', 'l'] (fun _ => rfl) htoken
    case h_9 => exact begins_of_literal hc ['r', 'u', 'e'] (fun _ => rfl) htoken
    case h_10 => exact begins_of_literal hc ['a', 'l', 's', 'e'] (fun _ => rfl) htoken
    case h_11 =>
      simp only [numeral?_eq_none hc, Option.map_none, reduceCtorEq] at h
    -- the brackets, the comma and the colon
    all_goals exact begins_of_mark hc (fun _ => rfl) htoken

end

namespace Lexeme

theorem token?_append (l : Lexeme) {cs : List Char} (h : Follows l.first cs) :
    token? l.first (l.rest ++ cs) = some (l.token, l.rest.length) := by
  obtain ⟨body, rest, hsplit, hwidth, -, hother⟩ := begins_of_token? l.reads
  have hrest : rest = [] := by
    have hlength := congrArg List.length hsplit
    rw [List.length_append] at hlength
    exact List.length_eq_zero_iff.1 (by omega)
  rw [hrest, List.append_nil] at hsplit
  rw [hsplit] at hother hwidth ⊢
  exact hother cs h

/-- The lexeme from which a token is read. -/
theorem exists_of_token? {c : Char} {cs : List Char} {token : Token} {width : Nat}
    (hc : isBlank c = false) (h : token? c cs = some (token, width)) : ∃ l : Lexeme,
      l.first = c ∧ l.token = token ∧ cs = l.rest ++ cs.drop width ∧
        Follows c (cs.drop width) := by
  obtain ⟨body, rest, rfl, rfl, hfollows, hother⟩ := begins_of_token? h
  have hnil := hother [] fun _ _ hc => by cases hc
  rw [List.append_nil] at hnil
  refine ⟨⟨c, body, token, hc, hnil⟩, rfl, rfl, ?_, ?_⟩
  · rw [List.drop_left]
  · rwa [List.drop_left]

end Lexeme

/-! ### Texts -/

/-- The text is the lexemes in their order, with blanks around them. -/
inductive Spells : List Lexeme → List Char → Prop
  | nil : Spells [] []
  | blank {ls : List Lexeme} {c : Char} {cs : List Char} (hc : isBlank c = true)
      (h : Spells ls cs) : Spells ls (c :: cs)
  | lexeme {ls : List Lexeme} {cs : List Char} (l : Lexeme) (hl : Follows l.first cs)
      (h : Spells ls cs) : Spells (l :: ls) (l.first :: (l.rest ++ cs))

theorem Spells.tokensAfter? {ls : List Lexeme} {cs : List Char} (h : Spells ls cs)
    (read : List Token) : tokensAfter? read cs = some (read.reverse ++ ls.map Lexeme.token) := by
  induction h generalizing read with
  | nil =>
    rw [Json.tokensAfter?]
    simp
  | blank hc _ ih => rw [Json.tokensAfter?, if_pos hc, ih]
  | lexeme l hl _ ih =>
    rw [Json.tokensAfter?, if_neg (by simp [l.solid])]
    simp only [l.token?_append hl, List.drop_left, ih]
    simp

theorem exists_spells {cs : List Char} {read ts : List Token}
    (h : tokensAfter? read cs = some ts) : ∃ ls, Spells ls cs := by
  induction read, cs using tokensAfter?.induct with
  | case1 read => exact ⟨[], .nil⟩
  | case2 read c rest hc ih =>
    rw [tokensAfter?, if_pos hc] at h
    obtain ⟨ls, hls⟩ := ih h
    exact ⟨ls, .blank hc hls⟩
  | case3 read c rest hc token width htoken ih =>
    rw [tokensAfter?, if_neg hc] at h
    simp only [htoken] at h
    obtain ⟨ls, hls⟩ := ih h
    obtain ⟨l, rfl, -, hrest, hfollows⟩ := Lexeme.exists_of_token? (by simpa using hc) htoken
    refine ⟨l :: ls, ?_⟩
    rw [hrest]
    exact .lexeme l hfollows hls
  | case4 read c rest hc htoken =>
    rw [tokensAfter?, if_neg hc] at h
    simp only [htoken] at h
    cases h

/-- The tokens of a text are those of its lexemes. -/
theorem tokens?_eq_some_iff {text : String} {ts : List Token} : tokens? text = some ts ↔
    ∃ ls, Spells ls text.toList ∧ ts = ls.map Lexeme.token := by
  constructor
  · intro h
    obtain ⟨ls, hls⟩ := exists_spells h
    refine ⟨ls, hls, ?_⟩
    rw [tokens?, hls.tokensAfter?] at h
    exact (Option.some.inj h).symm
  · rintro ⟨ls, hls, rfl⟩
    exact hls.tokensAfter? []

end Covenant.Json
