import Covenant.Proofs.Literals

/-! Where a text goes wrong. A text without tokens has a first construct that is wrong: a character
that starts no token, half of an operator, a whole number that 64 bits do not hold, a string
without an end, or a backslash that escapes nothing. What comes before the token with this
construct divides into tokens. The error names the place of the construct, but after a backslash
it names the place after the characters that have been read. -/

namespace Covenant.Expr

/-! ### The text before a fault -/

/-- A token is the same when less comes after it. -/
theorem Lexeme.of_append {c : Char} {own mid more : List Char} {t : Token}
    (h : Lexeme c (own ++ mid ++ more) t own.length) : Lexeme c (own ++ mid) t own.length := by
  have hown : (own ++ mid ++ more).take own.length = own := by
    rw [List.append_assoc, List.take_left]
  generalize hrest : own ++ mid ++ more = rest at h hown
  generalize hwidth : own.length = width at h hown
  cases h with
  | symbol _ h => exact .symbol _ h
  | long rest h =>
    obtain rfl : own = ['='] := by simpa using hown.symm
    exact .long mid h
  | short h hne =>
    obtain rfl := List.length_eq_zero_iff.1 hwidth
    refine .short h fun hmid => hne ?_
    rw [← hrest, List.append_assoc, List.nil_append, List.head?_append, ← List.nil_append mid, hmid]
    rfl
  | doubled rest h =>
    obtain rfl : own = [c] := by simpa using hown.symm
    exact .doubled mid h
  | string h =>
    have halone := h.take
    rw [hown] at halone
    exact .string (halone.append mid)
  | number hc h =>
    -- the number is at least as long with the characters in the middle, and not longer
    have halone : numberTail own = numberTail rest := by rw [← numberTail_take rest, hown]
    have hlow := numberWidth_le_append own mid
    have hhigh := numberWidth_le_append (own ++ mid) more
    have hsame : numberWidth own = numberWidth rest := by rw [numberWidth, halone]; rfl
    rw [hrest, ← hsame] at hhigh
    have hmid : numberWidth (own ++ mid) = own.length := by omega
    have htail := numberTail_take (own ++ mid)
    rw [hmid, List.take_left, halone] at htail
    rw [htail] at h
    have hnumber := Lexeme.number hc h
    rwa [hmid, hwidth] at hnumber
  | word rest hc hdigit =>
    have hword : rest.takeWhile Text.continuesWord = own := by
      rw [← hown, ← List.prefix_iff_eq_take.1 (List.takeWhile_prefix _)]
    have hself : own.takeWhile Text.continuesWord = own :=
      List.takeWhile_eq_self_iff.2 fun d hd => List.mem_takeWhile_imp (hword ▸ hd)
    have hlow := takeWhile_isPrefix Text.continuesWord own mid
    have hhigh := takeWhile_isPrefix Text.continuesWord (own ++ mid) more
    rw [hself] at hlow
    rw [hrest, hword] at hhigh
    have hmid := hlow.eq_of_length (Nat.le_antisymm hlow.length_le hhigh.length_le)
    have halone := Lexeme.word (own ++ mid) hc hdigit
    rw [← hmid] at halone
    rwa [hword]

/-- The tokens of the beginning of a text, which are read with what comes after it in view. -/
inductive LexesBefore (after : List Char) : Nat → List Char → List Located → Prop
  | nil (start : Nat) : LexesBefore after start [] []
  | blank {start : Nat} {c : Char} {rest : List Char} {ts : List Located}
    (hc : Text.isBlank c = true) (h : LexesBefore after (start + 1) rest ts) :
    LexesBefore after start (c :: rest) ts
  | token {start : Nat} {c : Char} {own rest : List Char} {t : Token} {ts : List Located}
    (hc : Text.isBlank c = false) (ht : Lexeme c (own ++ rest ++ after) t own.length)
    (h : LexesBefore after (start + 1 + own.length) rest ts) :
    LexesBefore after start (c :: (own ++ rest)) (⟨t, start⟩ :: ts)

namespace LexesBefore

variable {after front : List Char} {start : Nat} {ts : List Located}

/-- The beginning alone has the same tokens. -/
theorem lexes (h : LexesBefore after start front ts) : Lexes start front ts := by
  induction h with
  | nil start => exact .nil start
  | blank hc _ ih => exact .blank hc ih
  | token hc ht _ ih =>
    refine .token hc ht.of_append ?_
    rwa [List.drop_left]

theorem tokensFrom (h : LexesBefore after start front ts) (read : List Located) :
    tokensFrom read start (front ++ after) =
      tokensFrom (ts.reverse ++ read) (start + front.length) after := by
  induction h generalizing read with
  | nil => rfl
  | blank hc _ ih =>
    rw [List.cons_append, Expr.tokensFrom, if_pos hc, ih, List.length_cons, Nat.add_assoc,
      Nat.add_comm 1]
  | @token start c own rest t ts hc ht _ ih =>
    rw [List.cons_append, Expr.tokensFrom, if_neg (Bool.eq_false_iff.1 hc),
      lexeme_eq_ok_iff.2 ht]
    have hdrop : (own ++ rest ++ after).drop own.length = rest ++ after := by
      rw [List.append_assoc, List.drop_left]
    have hend : start + 1 + own.length + rest.length = start + (c :: (own ++ rest)).length := by
      simp only [List.length_cons, List.length_append]
      omega
    simp only [hdrop, ih, hend]
    simp

end LexesBefore

/-- A text that is refused has tokens up to a character that starts none. -/
theorem exists_of_tokensFrom_eq_error {read : List Located} {start : Nat} {cs : List Char}
    {e : ParseError} (h : tokensFrom read start cs = .error e) : ∃ front c rest ts,
      cs = front ++ c :: rest ∧ LexesBefore (c :: rest) start front ts ∧
      Text.isBlank c = false ∧ lexeme (start + front.length) c rest = .error e := by
  fun_induction tokensFrom read start cs with
  | case1 => cases h
  | case2 read start c rest hc ih =>
    obtain ⟨front, d, after, ts, rfl, hfront, hd, hlexeme⟩ := ih h
    refine ⟨c :: front, d, after, ts, rfl, .blank hc hfront, hd, ?_⟩
    rwa [List.length_cons, Nat.add_comm front.length, ← Nat.add_assoc]
  | case3 read start c rest hc t width ht ih =>
    obtain ⟨front, d, after, ts, hdrop, hfront, hd, hlexeme⟩ := ih h
    have ht := lexeme_eq_ok_iff.1 ht
    have hlength : (rest.take width).length = width := List.length_take_of_le ht.width_le
    have hcut : rest.take width ++ front ++ d :: after = rest := by
      rw [List.append_assoc, ← hdrop, List.take_append_drop]
    refine ⟨c :: (rest.take width ++ front), d, after, ⟨t, start⟩ :: ts, by simp [hcut], ?_, hd, ?_⟩
    · refine .token (Bool.eq_false_iff.2 hc) ?_ ?_
      · rwa [hcut, hlength]
      · rwa [hlength]
    · rw [← hlexeme]
      congr 1
      simp only [List.length_cons, List.length_append, hlength]
      omega
  | case4 read start c rest hc e' he =>
    cases h
    exact ⟨[], c, rest, [], rfl, .nil start, Bool.eq_false_iff.2 hc, he⟩

/-! ### Faults -/

/-- What is wrong with a text from the start of a token on: the characters of the token before the
construct that is wrong, the text from the construct on, the number of its characters before the
place that is named, and the error that names a place by its column. -/
inductive Faulty : List Char → List Char → Nat → (Nat → ParseError) → Prop
  | unexpected {c : Char} (rest : List Char) (hmark : c ∉ marks)
    (hblank : Text.isBlank c = false) (hdigit : Text.isDigit c = false)
    (hword : Text.startsWord c = false) :
    Faulty [] (c :: rest) 0 (.unexpectedCharacter c)
  | lone {c : Char} {t : Token} {rest : List Char} (hc : Doubled c t)
    (hrest : rest.head? ≠ some c) : Faulty [] (c :: rest) 0 (.loneOperator c)
  | integer {c : Char} {digits more : List Char}
    (hdigits : ∀ d ∈ c :: digits, Text.isDigit d = true)
    (hmore : ∀ d ∈ more.head?, Text.isDigit d = false) (hpoint : fraction more = [])
    (hlarge : 2 ^ 63 ≤ Decimal.ofDigits (c :: digits)) :
    Faulty [] (c :: digits ++ more) 0 (.integerTooLarge (String.ofList (c :: digits)))
  | string {cs written : List Char} (h : Spelled cs written) :
    Faulty [] ('"' :: written) 0 .unterminatedString
  | escape {cs written : List Char} {c : Char} (h : Spelled cs written) (hc : escape? c = none)
    (rest : List Char) : Faulty ('"' :: written) ('\\' :: c :: rest) 2 (.invalidEscape c)
  | openEscape {cs written : List Char} (h : Spelled cs written) :
    Faulty ('"' :: written) ['\\'] 1 .unterminatedEscape

section
variable {c : Char} (start : Nat) (read : List Char) (width : Nat) (rest : List Char)

theorem stringTail_escaped {e : Char} (hc : escape? c = some e) :
    stringTail start read width ('\\' :: c :: rest) =
      stringTail start (e :: read) (width + 2) rest := by
  rw [stringTail, hc]

theorem stringTail_plain (hc : ¬IsMarked c) :
    stringTail start read width (c :: rest) = stringTail start (c :: read) (width + 1) rest := by
  rw [stringTail]
  · exact fun h => hc (.inl h)
  · exact fun h => absurd (.inr h) hc
  · exact fun _ _ h => absurd (.inr h) hc

end

/-- A string is read on after the part of it that is in order. -/
theorem Spelled.stringTail_append {cs written : List Char} (h : Spelled cs written) (start : Nat)
    (read : List Char) (width : Nat) (rest : List Char) :
    stringTail start read width (written ++ rest) =
      stringTail start (cs.reverse ++ read) (width + written.length) rest := by
  induction h generalizing read width with
  | nil => rfl
  | marked hc _ ih =>
    rw [List.cons_append, List.cons_append, stringTail_escaped _ _ _ _ (escape?_of_isMarked hc), ih]
    simp [Nat.add_assoc, Nat.add_comm 2]
  | plain hc _ ih =>
    rw [List.cons_append, stringTail_plain _ _ _ _ hc, ih]
    simp [Nat.add_assoc, Nat.add_comm 1]
  | newline _ ih | tab _ ih =>
    rw [List.cons_append, List.cons_append, stringTail_escaped _ _ _ _ rfl, ih]
    simp [Nat.add_assoc, Nat.add_comm 2]

/-- A string is refused at its end or at a backslash, after a part that is in order. -/
theorem exists_of_stringTail_eq_error {start width : Nat} {read rest : List Char} {e : ParseError}
    (h : stringTail start read width rest = .error e) : ∃ cs written left,
      rest = written ++ left ∧ Spelled cs written ∧
      (left = [] ∧ e = .unterminatedString (start + 1) ∨
        left = ['\\'] ∧ e = .unterminatedEscape (start + (width + written.length) + 3) ∨
        ∃ c more, left = '\\' :: c :: more ∧ escape? c = none ∧
          e = .invalidEscape c (start + (width + written.length) + 4)) := by
  fun_induction stringTail start read width rest with
  | case1 =>
    cases h
    exact ⟨[], [], [], rfl, .nil, .inl ⟨rfl, rfl⟩⟩
  | case2 => cases h
  | case3 read width =>
    cases h
    exact ⟨[], [], ['\\'], rfl, .nil, .inr (.inl ⟨rfl, rfl⟩)⟩
  | case4 read width c rest e hescape ih =>
    obtain ⟨cs, written, left, rfl, hspelled, hleft⟩ := ih h
    have hwidth : width + 2 + written.length = width + ('\\' :: c :: written).length := by
      simp only [List.length_cons]
      omega
    rw [hwidth] at hleft
    exact ⟨e :: cs, '\\' :: c :: written, left, rfl, .escaped hescape hspelled, hleft⟩
  | case5 read width c rest hescape =>
    cases h
    exact ⟨[], [], '\\' :: c :: rest, rfl, .nil, .inr (.inr ⟨c, rest, rfl, hescape, rfl⟩)⟩
  | case6 read width c rest hquote hend hescape ih =>
    obtain ⟨cs, written, left, rfl, hspelled, hleft⟩ := ih h
    have hplain : ¬IsMarked c := by
      rintro (rfl | rfl)
      · exact hquote rfl
      · cases hrest : written ++ left with
        | nil => exact hend rfl hrest
        | cons d rest => exact hescape d rest rfl hrest
    have hwidth : width + 1 + written.length = width + (c :: written).length := by
      simp only [List.length_cons]
      omega
    rw [hwidth] at hleft
    exact ⟨c :: cs, c :: written, left, rfl, .plain hplain hspelled, hleft⟩

theorem number_eq_error_iff {start : Nat} {whole fraction : List Char} {e : ParseError} :
    number start whole fraction = .error e ↔ fraction = [] ∧ 2 ^ 63 ≤ Decimal.ofDigits whole ∧
      e = .integerTooLarge (String.ofList whole) (start + 1) := by
  cases fraction with
  | nil =>
    rw [number]
    split
    next hlt => simp [Nat.not_le.2 hlt]
    next hle => simp [Nat.not_lt.1 hle, eq_comm]
  | cons => simp [number]

/-- The column that is reported, from the place of a token. -/
theorem Faulty.lexeme {lead wrong : List Char} {past : Nat} {error : Nat → ParseError}
    (h : Faulty lead wrong past error) : ∃ c rest, lead ++ wrong = c :: rest ∧
      Text.isBlank c = false ∧
      ∀ start, lexeme start c rest = .error (error (start + lead.length + past + 1)) := by
  have hquote : Text.isBlank '"' = false := by decide
  cases h with
  | unexpected rest hmark hblank hdigit hword =>
    refine ⟨_, rest, rfl, hblank, fun start => ?_⟩
    rw [lexeme_of_notMem _ _ hmark, if_neg (Bool.eq_false_iff.1 hdigit),
      if_neg (Bool.eq_false_iff.1 hword)]
    rfl
  | @lone c t rest hc hrest =>
    refine ⟨c, rest, rfl, by cases hc <;> decide, fun start => ?_⟩
    rw [lexeme_of_doubled _ _ hc]
    cases rest with
    | nil => rfl
    | cons d rest => exact if_neg fun hd => hrest (congrArg some hd)
  | @integer c digits more hdigits hmore hpoint hlarge =>
    obtain ⟨hc, hdigits⟩ := List.forall_mem_cons.1 hdigits
    refine ⟨c, digits ++ more, rfl, isBlank_of_digit hc, fun start => ?_⟩
    rw [lexeme_of_notMem _ _ (notMem_marks (by decide) hc), if_pos hc,
      numberTail_of_digits hdigits more hmore, number_eq_error_iff.2 ⟨hpoint, hlarge, rfl⟩]
    rfl
  | @string cs written h =>
    refine ⟨'"', written, rfl, hquote, fun start => ?_⟩
    have hrun := h.stringTail_append start [] 0 []
    rw [List.append_nil, stringTail] at hrun
    rw [Expr.lexeme, hrun]
    rfl
  | @escape cs written c h hc rest =>
    refine ⟨'"', written ++ '\\' :: c :: rest, rfl, hquote, fun start => ?_⟩
    have hrun := h.stringTail_append start [] 0 ('\\' :: c :: rest)
    rw [stringTail, hc] at hrun
    rw [Expr.lexeme, hrun]
    simp [Except.map]
    omega
  | @openEscape cs written h =>
    refine ⟨'"', written ++ ['\\'], rfl, hquote, fun start => ?_⟩
    have hrun := h.stringTail_append start [] 0 ['\\']
    rw [stringTail] at hrun
    rw [Expr.lexeme, hrun]
    simp [Except.map]
    omega

theorem faulty_of_string {start : Nat} {rest : List Char} {e : ParseError}
    (h : stringTail start [] 0 rest = .error e) : ∃ lead wrong past error,
      '"' :: rest = lead ++ wrong ∧ Faulty lead wrong past error ∧
      e = error (start + lead.length + past + 1) := by
  obtain ⟨cs, written, left, rfl, hspelled, ⟨rfl, rfl⟩ | ⟨rfl, rfl⟩ | ⟨c, more, rfl, hc, rfl⟩⟩ :=
    exists_of_stringTail_eq_error h
  · exact ⟨[], _, 0, _, by simp, .string hspelled, rfl⟩
  · exact ⟨'"' :: written, _, 1, _, rfl, .openEscape hspelled, by simp; omega⟩
  · exact ⟨'"' :: written, _, 2, _, rfl, .escape hspelled hc more, by simp; omega⟩

theorem faulty_of_number {start : Nat} {c : Char} {rest : List Char} {e : ParseError}
    (hc : Text.isDigit c = true)
    (h : number start (c :: (numberTail rest).1) (numberTail rest).2 = .error e) :
    ∃ error, Faulty [] (c :: rest) 0 error ∧ e = error (start + 1) := by
  obtain ⟨hpoint, hlarge, rfl⟩ := number_eq_error_iff.1 h
  have hcut := List.takeWhile_append_dropWhile (p := Text.isDigit) (l := rest)
  have hdigits : ∀ d ∈ rest.takeWhile Text.isDigit, Text.isDigit d = true := fun d hd =>
    List.mem_takeWhile_imp hd
  have hmore : ∀ d ∈ (rest.dropWhile Text.isDigit).head?, Text.isDigit d = false := by
    intro d hd
    have hnot := List.head?_dropWhile_not Text.isDigit rest
    rwa [Option.mem_def.1 hd] at hnot
  have htail := numberTail_of_digits hdigits _ hmore
  rw [hcut] at htail
  rw [htail] at hpoint hlarge ⊢
  have hfaulty := Faulty.integer (List.forall_mem_cons.2 ⟨hc, hdigits⟩) hmore hpoint hlarge
  rw [List.cons_append, hcut] at hfaulty
  exact ⟨_, hfaulty, rfl⟩

theorem of_doubled_eq_error {start : Nat} {c : Char} {t : Token} {rest : List Char}
    {e : ParseError} (h : doubled start c t rest = .error e) :
    rest.head? ≠ some c ∧ e = .loneOperator c (start + 1) := by
  cases rest with
  | nil =>
    cases h
    exact ⟨nofun, rfl⟩
  | cons d rest =>
    rw [doubled] at h
    split at h
    next => cases h
    next hd =>
      cases h
      exact ⟨fun hhead => hd (Option.some.inj hhead), rfl⟩

/-- What the lexer refuses as a token is faulty. -/
theorem faulty_of_lexeme {start : Nat} {c : Char} {rest : List Char} {e : ParseError}
    (hblank : Text.isBlank c = false) (h : lexeme start c rest = .error e) :
    ∃ lead wrong past error, c :: rest = lead ++ wrong ∧ Faulty lead wrong past error ∧
      e = error (start + lead.length + past + 1) := by
  by_cases hmark : c ∈ marks
  · rcases cases_of_mem_marks hmark with ⟨t, hc⟩ | ⟨long, short, hc⟩ | ⟨t, hc⟩ | rfl
    · rw [lexeme_of_symbol _ _ hc] at h
      cases h
    · rw [lexeme_of_extension _ _ hc] at h
      cases h
    · rw [lexeme_of_doubled _ _ hc] at h
      obtain ⟨hrest, rfl⟩ := of_doubled_eq_error h
      exact ⟨[], _, 0, _, rfl, .lone hc hrest, rfl⟩
    · rw [lexeme] at h
      cases hstring : stringTail start [] 0 rest with
      | ok r =>
        rw [hstring] at h
        cases h
      | error e' =>
        rw [hstring] at h
        cases h
        exact faulty_of_string hstring
  · rw [lexeme_of_notMem _ _ hmark] at h
    split at h
    next hc =>
      cases hnumber : number start (c :: (numberTail rest).1) (numberTail rest).2 with
      | ok t =>
        rw [hnumber] at h
        cases h
      | error e' =>
        rw [hnumber] at h
        cases h
        obtain ⟨error, hfaulty, rfl⟩ := faulty_of_number hc hnumber
        exact ⟨[], _, 0, error, rfl, hfaulty, rfl⟩
    next hdigit =>
      split at h
      next => cases h
      next hword =>
        cases h
        exact ⟨[], _, 0, _, rfl, .unexpected rest hmark hblank (Bool.eq_false_iff.2 hdigit)
          (Bool.eq_false_iff.2 hword), rfl⟩

/-! ### Refused texts -/

def ParseError.column : ParseError → Nat
  | unterminatedString column | invalidEscape _ column | unterminatedEscape column
  | loneOperator _ column | integerTooLarge _ column | unexpectedCharacter _ column
  | unexpectedToken _ _ column | tooDeep _ column => column

/-- Whether an error is about a backslash in a string. -/
def ParseError.isEscape : ParseError → Bool
  | invalidEscape _ _ | unterminatedEscape _ => true
  | _ => false

section
variable {lead wrong : List Char} {past : Nat} {error : Nat → ParseError}

theorem Faulty.column_eq (h : Faulty lead wrong past error) (column : Nat) :
    (error column).column = column := by
  cases h <;> rfl

theorem Faulty.isEscape_eq (h : Faulty lead wrong past error) (column : Nat) :
    (error column).isEscape = false ↔ past = 0 := by
  cases h <;> simp [ParseError.isEscape]

end

/-- What the lexer refuses has tokens up to one in which there is a fault. -/
theorem tokenize_eq_error_iff {text : String} {e : ParseError} :
    tokenize text = .error e ↔ ∃ front lead wrong ts past error,
      text.toList = front ++ (lead ++ wrong) ∧ LexesBefore (lead ++ wrong) 0 front ts ∧
      Faulty lead wrong past error ∧ e = error ((front ++ lead).length + past + 1) := by
  constructor
  · intro h
    obtain ⟨front, c, rest, ts, htext, hfront, hblank, hlexeme⟩ := exists_of_tokensFrom_eq_error h
    obtain ⟨lead, wrong, past, error, hcut, hfaulty, he⟩ := faulty_of_lexeme hblank hlexeme
    rw [hcut] at htext hfront
    rw [Nat.zero_add, ← List.length_append] at he
    exact ⟨front, lead, wrong, ts, past, error, htext, hfront, hfaulty, he⟩
  · rintro ⟨front, lead, wrong, ts, past, error, htext, hfront, hfaulty, rfl⟩
    obtain ⟨c, rest, hcut, hblank, hlexeme⟩ := hfaulty.lexeme
    rw [tokenize, htext, hfront.tokensFrom, hcut, tokensFrom, if_neg (Bool.eq_false_iff.1 hblank),
      hlexeme]
    simp

/-- A text is refused for its first fault: the text before the token with the fault has tokens,
and the error names what is wrong. It names the place of the first wrong character, unless that is
a backslash; then it names the place after the characters that have been read. -/
theorem refused_at_fault (text : String) (e : ParseError) : tokenize text = .error e ↔
    ∃ front lead wrong ts past error, text.toList = front ++ lead ++ wrong ∧
      tokenize (String.ofList front) = .ok (ts ++ [⟨.eof, front.length⟩]) ∧
      LexesBefore (lead ++ wrong) 0 front ts ∧ Faulty lead wrong past error ∧
      e = error ((front ++ lead).length + past + 1) ∧
      (e.column = (front ++ lead).length + 1 ↔ e.isEscape = false) := by
  rw [tokenize_eq_error_iff]
  constructor
  · rintro ⟨front, lead, wrong, ts, past, error, htext, hfront, hfaulty, rfl⟩
    have hlexes := hfront.lexes
    rw [← String.toList_ofList (l := front)] at hlexes
    refine ⟨front, lead, wrong, ts, past, error, by rw [htext, List.append_assoc], ?_, hfront,
      hfaulty, rfl, ?_⟩
    · rw [tokenize_of_lexes hlexes, String.toList_ofList]
    · rw [hfaulty.column_eq, hfaulty.isEscape_eq]
      omega
  · rintro ⟨front, lead, wrong, ts, past, error, htext, -, hfront, hfaulty, he, -⟩
    rw [List.append_assoc] at htext
    exact ⟨front, lead, wrong, ts, past, error, htext, hfront, hfaulty, he⟩

/-- The backslash before a letter that it does not escape is the second character; the column that
is reported is that of the closing quote. -/
theorem escape_reported_late : tokenize "\"\\q\"" = .error (.invalidEscape 'q' 4) ∧
    Faulty ['"'] ['\\', 'q', '"'] 2 (.invalidEscape 'q') ∧
    (ParseError.invalidEscape 'q' 4).column ≠ ['"'].length + 1 := by
  refine ⟨?_, .escape .nil rfl _, by decide⟩
  with_unfolding_all rfl

end Covenant.Expr
