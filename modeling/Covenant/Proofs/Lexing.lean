import Covenant.Expr.Lexer

/-! How texts divide into tokens, stated without the lexer. The rules say which token starts
with a character, by the characters after it, and how many of these it takes. What follows a
token cannot become part of it if it begins with a character that extends no token; so the
tokens of two texts with such a character between them are those of the one and then those of
the other. -/

namespace Covenant.Expr

/-- The tokens of one character that no second one extends. -/
inductive Symbol : Char → Token → Prop
  | plus : Symbol '+' .plus
  | minus : Symbol '-' .minus
  | star : Symbol '*' .star
  | slash : Symbol '/' .slash
  | leftParen : Symbol '(' .leftParen
  | rightParen : Symbol ')' .rightParen
  | semicolon : Symbol ';' .semicolon

/-- The tokens of one character, with those that an `=` after it makes of them. -/
inductive Extension : Char → Token → Token → Prop
  | assign : Extension '=' .equal .assign
  | bang : Extension '!' .notEqual .bang
  | less : Extension '<' .lessEqual .less
  | greater : Extension '>' .greaterEqual .greater

/-- The tokens of one character written twice. -/
inductive Doubled : Char → Token → Prop
  | and : Doubled '&' .and
  | or : Doubled '|' .or

/-- The text of a string after its opening quote: what it spells, and how many characters it
takes with its closing quote. -/
inductive Spells : List Char → List Char → Nat → Prop
  | close (rest : List Char) : Spells ('"' :: rest) [] 1
  | escaped {c e : Char} {rest cs : List Char} {width : Nat} (hc : escape? c = some e)
    (h : Spells rest cs width) : Spells ('\\' :: c :: rest) (e :: cs) (width + 2)
  | plain {c : Char} {rest cs : List Char} {width : Nat} (hquote : c ≠ '"')
    (hescape : c ≠ '\\') (h : Spells rest cs width) : Spells (c :: rest) (c :: cs) (width + 1)

/-- The characters of a number after its first digit. -/
def numberWidth (rest : List Char) : Nat :=
  let (whole, fraction) := numberTail rest
  whole.length + (if fraction.isEmpty then 0 else 1) + fraction.length

/-- A token that starts with a character, and how many of the characters after it it takes. -/
inductive Lexeme : Char → List Char → Token → Nat → Prop
  | symbol {c : Char} {t : Token} (rest : List Char) (h : Symbol c t) : Lexeme c rest t 0
  | long {c : Char} {long short : Token} (rest : List Char) (h : Extension c long short) :
    Lexeme c ('=' :: rest) long 1
  | short {c : Char} {long short : Token} {rest : List Char} (h : Extension c long short)
    (hrest : rest.head? ≠ some '=') : Lexeme c rest short 0
  | doubled {c : Char} {t : Token} (rest : List Char) (h : Doubled c t) : Lexeme c (c :: rest) t 1
  | string {rest cs : List Char} {width : Nat} (h : Spells rest cs width) :
    Lexeme '"' rest (.string (String.ofList cs)) width
  | number {c : Char} {rest : List Char} {t : Token} (hc : Text.isDigit c = true)
    (h : number 0 (c :: (numberTail rest).1) (numberTail rest).2 = .ok t) :
    Lexeme c rest t (numberWidth rest)
  | word {c : Char} (rest : List Char) (hc : Text.startsWord c = true)
    (hdigit : Text.isDigit c = false) :
    Lexeme c rest (ofWord (c :: rest.takeWhile Text.continuesWord))
      (rest.takeWhile Text.continuesWord).length

/-! ### Strings and numbers -/

theorem spells_of_stringTail {start width n : Nat} {read rest : List Char} {s : String}
    (h : stringTail start read width rest = .ok (s, n)) :
    ∃ cs m, Spells rest cs m ∧ s = String.ofList (read.reverse ++ cs) ∧ n = width + m := by
  fun_induction stringTail start read width rest with
  | case1 | case3 | case5 => cases h
  | case2 read width rest =>
    cases h
    exact ⟨[], 1, .close rest, by rw [List.append_nil], rfl⟩
  | case4 read width c rest e hescape ih =>
    obtain ⟨cs, m, hspells, rfl, rfl⟩ := ih h
    exact ⟨e :: cs, m + 2, .escaped hescape hspells, by simp, by omega⟩
  | case6 read width c rest hquote hend hescape ih =>
    obtain ⟨cs, m, hspells, rfl, rfl⟩ := ih h
    have hplain : c ≠ '\\' := by
      cases rest with
      | nil => exact fun hc => hend hc rfl
      | cons d rest => exact fun hc => hescape d rest hc rfl
    exact ⟨c :: cs, m + 1, .plain hquote hplain hspells, by simp, by omega⟩

theorem stringTail_of_spells (start : Nat) {rest cs : List Char} {m : Nat} (h : Spells rest cs m)
    (read : List Char) (width : Nat) :
    stringTail start read width rest = .ok (String.ofList (read.reverse ++ cs), width + m) := by
  induction h generalizing read width with
  | close rest => rw [stringTail, List.append_nil]
  | escaped hc _ ih =>
    rw [stringTail, hc]
    simp only [ih, List.reverse_cons, List.append_assoc, List.singleton_append]
    congr 2
    omega
  | plain hquote hescape _ ih =>
    rw [stringTail, ih]
    · simp only [List.reverse_cons, List.append_assoc, List.singleton_append]
      congr 2
      omega
    · exact hquote
    · exact fun hc => absurd hc hescape
    · exact fun _ _ hc => absurd hc hescape

/-- Whether digits write a number does not depend on their place. -/
theorem number_eq_ok {start : Nat} {whole fraction : List Char} {t : Token}
    (h : number start whole fraction = .ok t) (start' : Nat) :
    number start' whole fraction = .ok t := by
  cases fraction with
  | nil =>
    simp only [number] at h ⊢
    split at h
    · rwa [if_pos ‹_›]
    · cases h
  | cons => exact h

/-! ### What the lexer takes for a token -/

/-- The characters that stand for themselves or for an operator, and the quote. -/
def marks : List Char :=
  ['+', '-', '*', '/', '(', ')', ';', '=', '!', '<', '>', '&', '|', '"']

theorem cases_of_mem_marks {c : Char} (h : c ∈ marks) :
    (∃ t, Symbol c t) ∨ (∃ long short, Extension c long short) ∨ (∃ t, Doubled c t) ∨ c = '"' := by
  simp only [marks, List.mem_cons, List.not_mem_nil, or_false] at h
  rcases h with rfl | rfl | rfl | rfl | rfl | rfl | rfl | rfl | rfl | rfl | rfl | rfl | rfl | rfl
  · exact .inl ⟨_, .plus⟩
  · exact .inl ⟨_, .minus⟩
  · exact .inl ⟨_, .star⟩
  · exact .inl ⟨_, .slash⟩
  · exact .inl ⟨_, .leftParen⟩
  · exact .inl ⟨_, .rightParen⟩
  · exact .inl ⟨_, .semicolon⟩
  · exact .inr (.inl ⟨_, _, .assign⟩)
  · exact .inr (.inl ⟨_, _, .bang⟩)
  · exact .inr (.inl ⟨_, _, .less⟩)
  · exact .inr (.inl ⟨_, _, .greater⟩)
  · exact .inr (.inr (.inl ⟨_, .and⟩))
  · exact .inr (.inr (.inl ⟨_, .or⟩))
  · exact .inr (.inr (.inr rfl))

/-- No character of a class is a mark if no mark is in the class. -/
theorem notMem_marks {p : Char → Bool} (hmarks : marks.all fun d => !p d) {c : Char}
    (hc : p c = true) : c ∉ marks := by
  intro hmem
  have hnot := List.all_eq_true.1 hmarks c hmem
  rw [hc] at hnot
  cases hnot

section
variable {c : Char} {t long short : Token} (start : Nat) (rest : List Char)

theorem lexeme_of_symbol (h : Symbol c t) : lexeme start c rest = .ok (t, 0) := by
  cases h <;> rfl

theorem lexeme_of_extension (h : Extension c long short) :
    lexeme start c rest = .ok (extended '=' long short rest) := by
  cases h <;> rfl

theorem lexeme_of_doubled (h : Doubled c t) : lexeme start c rest = doubled start c t rest := by
  cases h <;> rfl

theorem lexeme_of_notMem (h : c ∉ marks) :
    lexeme start c rest =
      if Text.isDigit c then
        (number start (c :: (numberTail rest).1) (numberTail rest).2).map (·, numberWidth rest)
      else if Text.startsWord c then
        .ok (ofWord (c :: rest.takeWhile Text.continuesWord),
          (rest.takeWhile Text.continuesWord).length)
      else .error (.unexpectedCharacter c (start + 1)) := by
  rw [lexeme]
  · rfl
  all_goals
    rintro rfl
    exact h (by decide)

end

theorem extended_eq (long short : Token) (rest : List Char) :
    extended '=' long short rest = if rest.head? = some '=' then (long, 1) else (short, 0) := by
  cases rest with
  | nil => rfl
  | cons d rest => simp [extended]

theorem Lexeme.of_extension {c : Char} {long short : Token} (h : Extension c long short)
    (rest : List Char) :
    Lexeme c rest (extended '=' long short rest).1 (extended '=' long short rest).2 := by
  rw [extended_eq]
  split
  next hrest =>
    obtain ⟨more, rfl⟩ := List.head?_eq_some_iff.1 hrest
    exact .long more h
  next hrest => exact .short h hrest

theorem of_doubled_eq_ok {start : Nat} {c : Char} {t : Token} {rest : List Char}
    {r : Token × Nat} (h : doubled start c t rest = .ok r) : rest.head? = some c ∧ r = (t, 1) := by
  cases rest with
  | nil => cases h
  | cons d rest =>
    rw [doubled] at h
    split at h
    next hd =>
      cases h
      exact ⟨congrArg some hd, rfl⟩
    next => cases h

/-- What the lexer takes for a token is what the rules say. -/
theorem lexeme_eq_ok_iff {start : Nat} {c : Char} {rest : List Char} {t : Token} {width : Nat} :
    lexeme start c rest = .ok (t, width) ↔ Lexeme c rest t width := by
  constructor
  · intro h
    by_cases hmark : c ∈ marks
    · rcases cases_of_mem_marks hmark with ⟨t', hc⟩ | ⟨long, short, hc⟩ | ⟨t', hc⟩ | rfl
      · rw [lexeme_of_symbol _ _ hc] at h
        cases h
        exact .symbol rest hc
      · have hlexeme := Lexeme.of_extension hc rest
        rw [lexeme_of_extension _ _ hc] at h
        rwa [Except.ok.inj h] at hlexeme
      · rw [lexeme_of_doubled _ _ hc] at h
        obtain ⟨hrest, hr⟩ := of_doubled_eq_ok h
        cases hr
        obtain ⟨more, rfl⟩ := List.head?_eq_some_iff.1 hrest
        exact .doubled more hc
      · rw [lexeme] at h
        cases hstring : stringTail start [] 0 rest with
        | error e =>
          rw [hstring] at h
          cases h
        | ok r =>
          obtain ⟨s, n⟩ := r
          obtain ⟨cs, m, hspells, hs, hn⟩ := spells_of_stringTail hstring
          rw [hstring] at h
          cases h
          rw [hs, hn, Nat.zero_add]
          exact .string hspells
    · rw [lexeme_of_notMem _ _ hmark] at h
      split at h
      next hc =>
        cases hnumber : number start (c :: (numberTail rest).1) (numberTail rest).2 with
        | error e =>
          rw [hnumber] at h
          cases h
        | ok t =>
          rw [hnumber] at h
          cases h
          exact .number hc (number_eq_ok hnumber 0)
      next hdigit =>
        split at h
        next hc =>
          cases h
          exact .word rest hc (Bool.eq_false_iff.2 hdigit)
        next => cases h
  · intro h
    cases h with
    | symbol _ h => exact lexeme_of_symbol _ _ h
    | long rest h =>
      rw [lexeme_of_extension _ _ h, extended_eq, List.head?_cons, if_pos rfl]
    | short h hrest => rw [lexeme_of_extension _ _ h, extended_eq, if_neg hrest]
    | doubled rest h =>
      rw [lexeme_of_doubled _ _ h, doubled, if_pos rfl]
    | string h =>
      rw [lexeme, stringTail_of_spells start h, Nat.zero_add]
      rfl
    | number hc h =>
      rw [lexeme_of_notMem _ _ (notMem_marks (by decide) hc), if_pos hc, number_eq_ok h]
      rfl
    | word _ hc hdigit =>
      rw [lexeme_of_notMem _ _ (notMem_marks (by decide) hc),
        if_neg (Bool.eq_false_iff.1 hdigit), if_pos hc]

/-! ### What may follow a token -/

/-- The characters that extend no token which could also end before them. -/
def separates (c : Char) : Bool :=
  !Text.continuesWord c && !Text.isDigit c && c != '.' && c != '='

/-- A text that begins with a character of this kind, if it is not empty. -/
def Apart (tail : List Char) : Prop := ∀ c ∈ tail.head?, separates c = true

theorem Apart.nil : Apart [] := by simp [Apart]

theorem Apart.cons {c : Char} (hc : separates c = true) (tail : List Char) :
    Apart (c :: tail) := by simpa [Apart] using hc

theorem takeWhile_append_of_apart {p : Char → Bool} (hp : ∀ c, separates c = true → p c = false)
    {tail : List Char} (h : Apart tail) (rest : List Char) :
    (rest ++ tail).takeWhile p = rest.takeWhile p := by
  have htail : tail.takeWhile p = [] := by
    cases tail with
    | nil => rfl
    | cons c tail => rw [List.takeWhile_cons, hp c (h c rfl)]; rfl
  rw [List.takeWhile_append]
  split
  next hlength =>
    rw [htail, List.append_nil, (List.takeWhile_prefix p).eq_of_length hlength]
  next => rfl

theorem of_separates {c : Char} (h : separates c = true) :
    Text.continuesWord c = false ∧ Text.isDigit c = false ∧ c ≠ '.' ∧ c ≠ '=' := by
  simpa [separates, and_assoc] using h

/-- The digits after a point. -/
def fraction : List Char → List Char
  | '.' :: after => after.takeWhile Text.isDigit
  | _ => []

theorem numberTail_eq (rest : List Char) :
    numberTail rest =
      (rest.takeWhile Text.isDigit, fraction (rest.drop (rest.takeWhile Text.isDigit).length)) := by
  rw [numberTail]
  split
  next after hafter => rw [hafter]; rfl
  next hnone =>
    congr 1
    symm
    rw [fraction]
    exact hnone

theorem fraction_of_ne {c : Char} (hc : c ≠ '.') (rest : List Char) : fraction (c :: rest) = [] := by
  rw [fraction]
  exact fun after h => hc (List.cons.inj h).1

theorem fraction_append {tail : List Char} (h : Apart tail) (rest : List Char) :
    fraction (rest ++ tail) = fraction rest := by
  cases rest with
  | nil =>
    cases tail with
    | nil => rfl
    | cons c tail => exact fraction_of_ne (of_separates (h c rfl)).2.2.1 tail
  | cons c rest =>
    by_cases hc : c = '.'
    · subst hc
      exact takeWhile_append_of_apart (fun _ h => (of_separates h).2.1) h rest
    · rw [List.cons_append, fraction_of_ne hc, fraction_of_ne hc]

theorem length_takeWhile_le {p : Char → Bool} (rest : List Char) :
    (rest.takeWhile p).length ≤ rest.length :=
  (List.takeWhile_prefix p).length_le

theorem numberTail_append {tail : List Char} (h : Apart tail) (rest : List Char) :
    numberTail (rest ++ tail) = numberTail rest := by
  rw [numberTail_eq, numberTail_eq,
    takeWhile_append_of_apart (fun _ h => (of_separates h).2.1) h,
    List.drop_append_of_le_length (length_takeWhile_le rest), fraction_append h]

theorem Spells.append {rest cs : List Char} {width : Nat} (h : Spells rest cs width)
    (tail : List Char) : Spells (rest ++ tail) cs width := by
  induction h with
  | close rest => exact .close _
  | escaped hc _ ih => exact .escaped hc ih
  | plain hquote hescape _ ih => exact .plain hquote hescape ih

/-- A token does not depend on a text after it that is apart from it. -/
theorem Lexeme.append {c : Char} {rest tail : List Char} {t : Token} {width : Nat}
    (h : Lexeme c rest t width) (htail : Apart tail) : Lexeme c (rest ++ tail) t width := by
  cases h with
  | symbol rest h => exact .symbol _ h
  | long rest h => exact .long _ h
  | short h hrest =>
    refine .short h ?_
    cases rest with
    | nil =>
      intro htail'
      exact (of_separates (htail _ htail')).2.2.2 rfl
    | cons => exact hrest
  | doubled rest h => exact .doubled _ h
  | string h => exact .string (h.append tail)
  | number hc h =>
    rw [← numberTail_append htail] at h
    have hnumber := Lexeme.number hc h
    rwa [numberWidth, numberTail_append htail] at hnumber
  | word rest hc hdigit =>
    rw [← takeWhile_append_of_apart (fun _ h => (of_separates h).1) htail]
    exact .word _ hc hdigit

theorem Spells.width_le {rest cs : List Char} {width : Nat} (h : Spells rest cs width) :
    width ≤ rest.length := by
  induction h with
  | close | escaped | plain => simp; try omega

theorem fraction_width_le (rest : List Char) :
    (if (fraction rest).isEmpty then 0 else 1) + (fraction rest).length ≤ rest.length := by
  cases rest with
  | nil => exact Nat.le_refl 0
  | cons c rest =>
    by_cases hc : c = '.'
    · subst hc
      have hle : (fraction ('.' :: rest)).length ≤ rest.length := length_takeWhile_le rest
      rw [List.length_cons]
      split <;> omega
    · rw [fraction_of_ne hc]
      exact Nat.zero_le _

theorem numberWidth_le (rest : List Char) : numberWidth rest ≤ rest.length := by
  have hwhole : (rest.takeWhile Text.isDigit).length ≤ rest.length := length_takeWhile_le rest
  have hfraction := fraction_width_le (rest.drop (rest.takeWhile Text.isDigit).length)
  rw [List.length_drop] at hfraction
  simp only [numberWidth, numberTail_eq]
  omega

theorem Lexeme.width_le {c : Char} {rest : List Char} {t : Token} {width : Nat}
    (h : Lexeme c rest t width) : width ≤ rest.length := by
  cases h with
  | symbol | short => exact Nat.zero_le _
  | long | doubled => exact Nat.le_add_left 1 _
  | string h => exact h.width_le
  | number => exact numberWidth_le rest
  | word => exact length_takeWhile_le rest

/-- A text ends where it ends after its first token. -/
theorem Lexeme.end_eq {c : Char} {rest : List Char} {t : Token} {width : Nat}
    (h : Lexeme c rest t width) (start : Nat) :
    start + 1 + width + (rest.drop width).length = start + (c :: rest).length := by
  have hwidth := h.width_le
  rw [List.length_drop, List.length_cons]
  omega

theorem ofWord_cases (cs : List Char) : (∃ b, ofWord cs = .boolean b) ∨ ofWord cs = .null ∨
    ∃ w, ofWord cs = .word w := by
  rw [ofWord]
  split
  · exact .inl ⟨true, rfl⟩
  · exact .inl ⟨false, rfl⟩
  · exact .inr (.inl rfl)
  · exact .inr (.inr ⟨_, rfl⟩)

theorem of_number_eq_ok {start : Nat} {whole fraction : List Char} {t : Token}
    (h : Covenant.Expr.number start whole fraction = .ok t) :
    (∃ n, t = .integer n) ∨ ∃ x, t = .float x := by
  cases fraction with
  | nil =>
    simp only [Covenant.Expr.number] at h
    split at h <;> cases h
    exact .inl ⟨_, rfl⟩
  | cons =>
    cases h
    exact .inr ⟨_, rfl⟩

theorem Lexeme.ne_eof {c : Char} {rest : List Char} {t : Token} {width : Nat}
    (h : Lexeme c rest t width) : t ≠ .eof := by
  cases h with
  | symbol _ h | doubled _ h | long _ h | short h => cases h <;> exact Token.noConfusion
  | string => exact Token.noConfusion
  | number _ h => obtain ⟨_, rfl⟩ | ⟨_, rfl⟩ := of_number_eq_ok h <;> exact Token.noConfusion
  | @word _ rest =>
    obtain ⟨_, h⟩ | h | ⟨_, h⟩ := ofWord_cases (c :: rest.takeWhile Text.continuesWord) <;>
      rw [h] <;> exact Token.noConfusion

/-! ### The tokens of a text -/

/-- The tokens of a text that starts at an offset, without the one at its end. -/
inductive Lexes : Nat → List Char → List Located → Prop
  | nil (start : Nat) : Lexes start [] []
  | blank {start : Nat} {c : Char} {rest : List Char} {ts : List Located}
    (hc : Text.isBlank c = true) (h : Lexes (start + 1) rest ts) : Lexes start (c :: rest) ts
  | token {start : Nat} {c : Char} {rest : List Char} {t : Token} {width : Nat}
    {ts : List Located} (hc : Text.isBlank c = false) (ht : Lexeme c rest t width)
    (h : Lexes (start + 1 + width) (rest.drop width) ts) :
    Lexes start (c :: rest) (⟨t, start⟩ :: ts)

theorem tokensFrom_of_lexes {start : Nat} {cs : List Char} {ts : List Located}
    (h : Lexes start cs ts) (read : List Located) :
    tokensFrom read start cs = .ok (read.reverse ++ ts ++ [⟨.eof, start + cs.length⟩]) := by
  induction h generalizing read with
  | nil start => simp [tokensFrom]
  | blank hc _ ih =>
    rw [tokensFrom, if_pos hc, ih, List.length_cons, Nat.add_assoc, Nat.add_comm 1]
  | token hc ht _ ih =>
    rw [tokensFrom, if_neg (Bool.eq_false_iff.1 hc), lexeme_eq_ok_iff.2 ht]
    simp only [ih, ht.end_eq, List.reverse_cons, List.append_assoc, List.cons_append,
      List.nil_append]

theorem lexes_of_tokensFrom {read tokens : List Located} {start : Nat} {cs : List Char}
    (h : tokensFrom read start cs = .ok tokens) : ∃ ts, Lexes start cs ts := by
  fun_induction tokensFrom read start cs with
  | case1 => exact ⟨[], .nil _⟩
  | case2 read start c rest hc ih =>
    obtain ⟨ts, hts⟩ := ih h
    exact ⟨ts, .blank hc hts⟩
  | case3 read start c rest hc t width ht ih =>
    obtain ⟨ts, hts⟩ := ih h
    exact ⟨_, .token (Bool.eq_false_iff.2 hc) (lexeme_eq_ok_iff.1 ht) hts⟩
  | case4 => cases h

theorem tokenize_of_lexes {text : String} {ts : List Located} (h : Lexes 0 text.toList ts) :
    tokenize text = .ok (ts ++ [⟨.eof, text.toList.length⟩]) := by
  rw [tokenize, tokensFrom_of_lexes h, Nat.zero_add]
  rfl

/-- The tokens that the lexer finds in a text, without the one at its end. -/
theorem exists_lexes_of_tokenize {text : String} {tokens : List Located}
    (h : tokenize text = .ok tokens) :
    ∃ ts, Lexes 0 text.toList ts ∧ tokens = ts ++ [⟨.eof, text.toList.length⟩] := by
  obtain ⟨ts, hts⟩ := lexes_of_tokensFrom h
  refine ⟨ts, hts, ?_⟩
  rw [tokenize_of_lexes hts] at h
  exact (Except.ok.inj h).symm

namespace Lexes

variable {start : Nat} {cs ds : List Char} {ts us : List Located}

theorem ne_eof (h : Lexes start cs ts) : ∀ t ∈ ts, t.token ≠ .eof := by
  induction h with
  | nil => simp
  | blank _ _ ih => exact ih
  | token _ ht _ ih => exact List.forall_mem_cons.2 ⟨ht.ne_eof, ih⟩

/-- The tokens of a text after another one, apart from it. -/
theorem append (h : Lexes start cs ts) (h' : Lexes (start + cs.length) ds us) (hds : Apart ds) :
    Lexes start (cs ++ ds) (ts ++ us) := by
  induction h with
  | nil => exact h'
  | blank hc _ ih =>
    refine .blank hc (ih ?_)
    rwa [Nat.add_assoc, Nat.add_comm 1]
  | @token start c rest t width ts hc ht _ ih =>
    rw [ht.end_eq] at ih
    have htail := ih h'
    rw [← List.drop_append_of_le_length ht.width_le] at htail
    exact .token hc (ht.append hds) htail

/-- The place of a text has no effect on its tokens but to place them. -/
theorem shift (h : Lexes start cs ts) (n : Nat) :
    Lexes (start + n) cs (ts.map fun t => ⟨t.token, t.offset + n⟩) := by
  induction h with
  | nil => exact .nil _
  | blank hc _ ih =>
    refine .blank hc ?_
    rwa [Nat.add_right_comm]
  | @token start c rest t width ts hc ht _ ih =>
    refine .token hc ht ?_
    rwa [show start + n + 1 + width = start + 1 + width + n by omega]

end Lexes

end Covenant.Expr
