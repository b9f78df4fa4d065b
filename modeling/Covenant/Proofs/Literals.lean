import Covenant.Proofs.Integers
import Covenant.Proofs.Numerals
import Covenant.Proofs.Partition
import Covenant.Proofs.Recognition

/-! How strings and integers are written as literals. A string is written between quotes, with a
backslash before its quotes and backslashes; its newlines and tabs stand for themselves or are
written with a letter. There is no other way to write it, but for blanks around it. An integer is
written as it is displayed. The digits of a negative one are read without their sign, so the least
integer has no literal. -/

namespace Covenant.Expr

/-! ### Strings -/

/-- The characters that cannot stand for themselves in a string. -/
def IsMarked (c : Char) : Prop := c = '"' ∨ c = '\\'

instance (c : Char) : Decidable (IsMarked c) := inferInstanceAs (Decidable (_ ∨ _))

/-- The characters of a string with a backslash before each quote and each backslash. -/
def marked (cs : List Char) : List Char :=
  cs.flatMap fun c => if IsMarked c then ['\\', c] else [c]

/-- The ways to write the characters of a string: marked, and any newline and any tab either as it
is or as a backslash with a letter. -/
inductive Spelled : List Char → List Char → Prop
  | nil : Spelled [] []
  | marked {c : Char} {cs written : List Char} (hc : IsMarked c) (h : Spelled cs written) :
    Spelled (c :: cs) ('\\' :: c :: written)
  | plain {c : Char} {cs written : List Char} (hc : ¬IsMarked c) (h : Spelled cs written) :
    Spelled (c :: cs) (c :: written)
  | newline {cs written : List Char} (h : Spelled cs written) :
    Spelled ('\n' :: cs) ('\\' :: 'n' :: written)
  | tab {cs written : List Char} (h : Spelled cs written) :
    Spelled ('\t' :: cs) ('\\' :: 't' :: written)

def quotation (written : List Char) : List Char := '"' :: (written ++ ['"'])

theorem length_quotation (written : List Char) :
    (quotation written).length = written.length + 2 := by
  simp [quotation]

theorem spelled_marked (cs : List Char) : Spelled cs (marked cs) := by
  induction cs with
  | nil => exact .nil
  | cons c cs ih =>
    rw [marked, List.flatMap_cons]
    split
    next hc => exact .marked hc ih
    next hc => exact .plain hc ih

theorem escape?_of_isMarked {c : Char} (hc : IsMarked c) : escape? c = some c := by
  rcases hc with rfl | rfl <;> rfl

/-- What a backslash makes of a letter. -/
theorem of_escape?_eq_some {c e : Char} (h : escape? c = some e) :
    IsMarked c ∧ e = c ∨ c = 'n' ∧ e = '\n' ∨ c = 't' ∧ e = '\t' := by
  unfold escape? at h
  split at h <;> cases h
  · exact .inr (.inl ⟨rfl, rfl⟩)
  · exact .inr (.inr ⟨rfl, rfl⟩)
  · exact .inl ⟨.inr rfl, rfl⟩
  · exact .inl ⟨.inl rfl, rfl⟩

/-- A string with one more character, which is written with a backslash. -/
theorem Spelled.escaped {c e : Char} {cs written : List Char} (hc : escape? c = some e)
    (h : Spelled cs written) : Spelled (e :: cs) ('\\' :: c :: written) := by
  rcases of_escape?_eq_some hc with ⟨hc, rfl⟩ | ⟨rfl, rfl⟩ | ⟨rfl, rfl⟩
  · exact .marked hc h
  · exact .newline h
  · exact .tab h

theorem Spelled.spells {cs written : List Char} (h : Spelled cs written) (rest : List Char) :
    Spells (written ++ '"' :: rest) cs (written.length + 1) := by
  induction h with
  | nil => exact .close rest
  | marked hc _ ih => exact .escaped (escape?_of_isMarked hc) ih
  | plain hc _ ih => exact .plain (fun h => hc (.inl h)) (fun h => hc (.inr h)) ih
  | newline _ ih | tab _ ih => exact .escaped rfl ih

/-- A string that is read up to its closing quote is written in one of the ways. -/
theorem Spells.exists_spelled {text cs : List Char} {width : Nat} (h : Spells text cs width) :
    ∃ written rest, text = written ++ '"' :: rest ∧ width = written.length + 1 ∧
      Spelled cs written := by
  induction h with
  | close rest => exact ⟨[], rest, rfl, rfl, .nil⟩
  | @escaped c e text cs width hescape _ ih =>
    obtain ⟨written, rest, rfl, rfl, hspelled⟩ := ih
    exact ⟨'\\' :: c :: written, rest, rfl, rfl, .escaped hescape hspelled⟩
  | @plain c text cs width hquote hescape _ ih =>
    obtain ⟨written, rest, rfl, rfl, hspelled⟩ := ih
    exact ⟨c :: written, rest, rfl, rfl, .plain (fun h => h.elim hquote hescape) hspelled⟩

/-- A token that is a string starts with a quote. -/
theorem Lexeme.of_string {c : Char} {rest : List Char} {s : String} {width : Nat}
    (h : Lexeme c rest (.string s) width) : c = '"' ∧ Spells rest s.toList width := by
  generalize ht : Token.string s = t at h
  cases h with
  | symbol _ h | long _ h | short h | doubled _ h => cases h <;> cases ht
  | string h =>
    cases ht
    rw [String.toList_ofList]
    exact ⟨rfl, h⟩
  | number _ h =>
    obtain ⟨_, rfl⟩ | ⟨_, rfl⟩ := of_number_eq_ok h <;> cases ht
  | @word _ rest =>
    obtain ⟨_, h⟩ | h | ⟨_, h⟩ := ofWord_cases (c :: rest.takeWhile Text.continuesWord) <;>
      rw [h] at ht <;> cases ht

theorem Blank.lexes {gap : List Char} (h : Blank gap) (start : Nat) : Lexes start gap [] := by
  have hlexes := Lexes.blanks h (.nil (start + gap.length))
  rwa [List.append_nil] at hlexes

/-- A quotation with blanks after it is one token. -/
theorem Spelled.lexes {cs written after : List Char} (h : Spelled cs written)
    (hafter : Blank after) (start : Nat) :
    Lexes start (quotation written ++ after) [⟨.string (String.ofList cs), start⟩] := by
  have hrest : written ++ '"' :: after = written ++ ['"'] ++ after := by simp
  have hspells := h.spells after
  rw [hrest] at hspells
  have hdrop : (written ++ ['"'] ++ after).drop (written.length + 1) = after :=
    List.drop_left' (by simp)
  have hblanks := hafter.lexes (start + 1 + (written.length + 1))
  rw [← hdrop] at hblanks
  exact .token (by decide) (.string hspells) hblanks

/-- What is read as one string is a quotation that spells it, with blanks around it. -/
theorem exists_spelled_of_lexes {cs : List Char} {s : String} {start place : Nat}
    (h : Lexes start cs [⟨.string s, place⟩]) : ∃ before written after, Blank before ∧
      Blank after ∧ Spelled s.toList written ∧ cs = before ++ quotation written ++ after := by
  obtain ⟨lexemes, hdivided⟩ := Divided.of_lexes h
  generalize hts : [(⟨.string s, place⟩ : Located)] = ts at hdivided
  cases hdivided with
  | finish => cases hts
  | @token _ before tail rest c t ts lexemes hbefore _ ht hrest =>
    obtain ⟨ht', rfl⟩ := List.cons.inj hts
    obtain ⟨rfl, -⟩ := Located.mk.inj ht'
    obtain ⟨rfl, hspells⟩ := ht.of_string
    obtain ⟨written, after, htext, hlength, hspelled⟩ := hspells.exists_spelled
    rw [← List.singleton_append, ← List.append_assoc] at htext
    -- the token ends with the closing quote, so what comes after it is the rest of the text
    obtain ⟨rfl, rfl⟩ := List.append_inj htext (by simpa using hlength)
    cases hrest with
    | finish _ hafter =>
      exact ⟨before, written, rest, hbefore, hafter, hspelled, by simp [quotation]⟩

/-- The texts of a string literal are the quotations that spell the string, with any blanks around
them. One of them marks the quotes and the backslashes of the string and no more. -/
theorem string_spellings (s : String) :
    tokenize (String.ofList (quotation (marked s.toList))) =
        .ok [⟨.string s, 0⟩, ⟨.eof, (marked s.toList).length + 2⟩] ∧
      (∀ written, Spelled s.toList written → tokenize (String.ofList (quotation written)) =
        .ok [⟨.string s, 0⟩, ⟨.eof, written.length + 2⟩]) ∧
      ∀ text tokens, tokenize text = .ok tokens →
        tokens.map Located.token = [.string s, .eof] → ∃ before written after, Blank before ∧
          Blank after ∧ Spelled s.toList written ∧
          text.toList = before ++ quotation written ++ after := by
  have hspelled : ∀ written, Spelled s.toList written →
      tokenize (String.ofList (quotation written)) =
        .ok [⟨.string s, 0⟩, ⟨.eof, written.length + 2⟩] := by
    intro written h
    have hlexes := h.lexes Blank.nil 0
    rw [List.append_nil, String.ofList_toList,
      ← String.toList_ofList (l := quotation written)] at hlexes
    rw [tokenize_of_lexes hlexes, String.toList_ofList, length_quotation]
    rfl
  refine ⟨hspelled _ (spelled_marked s.toList), hspelled, fun text tokens h htokens => ?_⟩
  obtain ⟨ts, hlexes, rfl⟩ := exists_lexes_of_tokenize h
  rw [List.map_append] at htokens
  obtain ⟨t, rfl, ht⟩ := List.map_eq_singleton_iff.1
    (List.append_cancel_right (htokens : _ = [Token.string s] ++ [.eof]))
  obtain ⟨token, place⟩ := t
  obtain rfl : token = .string s := ht
  exact exists_spelled_of_lexes hlexes

/-- A tab and a quote, both written with a backslash. -/
theorem string_spellings_tab : Spelled ['\t', '"'] ['\\', 't', '\\', '"'] ∧
    tokenize "\"\\t\\\"\"" = .ok [⟨.string "\t\"", 0⟩, ⟨.eof, 6⟩] := by
  have hspelled : Spelled ['\t', '"'] ['\\', 't', '\\', '"'] := .tab (.marked (.inl rfl) .nil)
  have htoList : "\t\"".toList = ['\t', '"'] := String.toList_ofList
  have hread := (string_spellings "\t\"").2.1 ['\\', 't', '\\', '"'] (htoList ▸ hspelled)
  exact ⟨hspelled, hread⟩

/-! ### Integers -/

/-- The digits of a number that 64 bits hold are one token. -/
theorem lexes_toDigits {m : Nat} (h : m < 2 ^ 63) (start : Nat) :
    Lexes start (Nat.toDigits 10 m) [⟨.integer (Int64.ofNat m), start⟩] := by
  have hdigits : ∀ c ∈ Nat.toDigits 10 m, Text.isDigit c = true :=
    fun c hc => Decimal.isDigit_of_mem_toDigits hc
  have hvalue := Decimal.ofDigits_toDigits m
  cases hcs : Nat.toDigits 10 m with
  | nil => exact absurd hcs Nat.toDigits_ne_nil
  | cons c rest =>
    rw [hcs] at hdigits hvalue
    obtain ⟨hc, hrest⟩ := List.forall_mem_cons.1 hdigits
    have htail : numberTail rest = (rest, []) := by
      have htail := numberTail_of_digits hrest [] nofun
      rwa [List.append_nil] at htail
    have hnumber : number 0 (c :: rest) [] = .ok (.integer (Int64.ofNat m)) := by
      simp only [number, hvalue]
      exact if_pos h
    have hlexeme : Lexeme c rest (.integer (Int64.ofNat m)) (numberWidth rest) :=
      .number hc (by rwa [htail])
    have hwidth : numberWidth rest = rest.length := by simp [numberWidth, htail]
    rw [hwidth] at hlexeme
    refine .token (isBlank_of_digit hc) hlexeme ?_
    rw [List.drop_length]
    exact .nil _

theorem Derives.of_unary {ts : List Token} {n : Nat} {e : Expr} (h : Derives .unary ts n e) :
    Derives .disjunction ts n e :=
  .tighter rfl <| .tighter rfl <| .tighter rfl <| .tighter rfl <| .tighter rfl <|
    .tighter rfl <| .tighter rfl h

theorem derives_integer (n : Int64) :
    Derives .unary [.integer n] 0 (.literal (.integer n)) :=
  .tighter rfl (.leaf (.integer n))

theorem parse_of_lexes {text : String} {ts : List Located} {n : Nat} {e : Expr}
    (h : Lexes 0 text.toList ts) (hderives : Derives .disjunction (sentence ts) n e)
    (hn : n ≤ 64) (hdepth : e.depth ≤ 256) : parse text = .ok e := by
  rw [parse, tokenize_of_lexes h]
  exact (wholeExpression_recognised ts _).accepted n e hderives hn (by simpa using hdepth)

section
variable {text : String} {m : Nat}

theorem parse_digits (hm : m < 2 ^ 63) (htext : text.toList = Nat.toDigits 10 m) :
    parse text = .ok (.literal (.integer (Int64.ofNat m))) := by
  have hlexes := lexes_toDigits hm 0
  rw [← htext] at hlexes
  exact parse_of_lexes hlexes (derives_integer _).of_unary (by decide) (by simp [depth])

/-- The sign is an operator before the digits. -/
theorem parse_minus_digits (hm : m < 2 ^ 63) (htext : text.toList = '-' :: Nat.toDigits 10 m) :
    parse text = .ok (.unary .negate (.literal (.integer (Int64.ofNat m)))) := by
  have hlexes : Lexes 0 text.toList [⟨.minus, 0⟩, ⟨.integer (Int64.ofNat m), 1⟩] := by
    rw [htext]
    exact .token (by decide) (.symbol _ .minus) (lexes_toDigits hm 1)
  exact parse_of_lexes hlexes (Derives.unary .minus (derives_integer _)).of_unary (by decide)
    (by simp [depth])

end

/-- Every integer but the least one is the value of the text that displays it. -/
theorem parse_display {n : Int64} (h : n ≠ Int64.minValue) :
    ∃ e, parse (Value.integer n).display = .ok e ∧
      ∀ locals state, e.eval locals state = .ok (.integer n) := by
  obtain ⟨hlow, hhigh⟩ := inRange_toInt n
  have hleast : n.toInt ≠ -2 ^ 63 := fun heq => h (Int64.toInt.inj (heq.trans rfl))
  have hdisplay : (Value.integer n).display = n.toInt.repr := by
    rw [Value.display, Int.toString_eq_repr]
  cases hn : n.toInt with
  | ofNat m =>
    have hm : m < 2 ^ 63 := by
      rw [hn, Int.ofNat_eq_natCast] at hhigh
      omega
    have htext : (Value.integer n).display.toList = Nat.toDigits 10 m := by
      rw [hdisplay, hn, Int.repr, Nat.toList_repr]
    refine ⟨_, parse_digits hm htext, fun _ _ => ?_⟩
    obtain rfl : Int64.ofNat m = n := Int64.toInt.inj ((Int64.toInt_ofNat_of_lt hm).trans hn.symm)
    rfl
  | negSucc m =>
    have hm : m + 1 < 2 ^ 63 := by
      rw [hn] at hlow hleast
      omega
    have htext : (Value.integer n).display.toList = '-' :: Nat.toDigits 10 (m + 1) := by
      rw [hdisplay, hn, Int.repr, String.toList_append, Nat.toList_repr]
      rfl
    refine ⟨_, parse_minus_digits hm htext, fun _ _ => ?_⟩
    have hnegated : -(Int64.ofNat (m + 1)).toInt = n.toInt := by
      rw [Int64.toInt_ofNat_of_lt hm, hn]
      rfl
    exact Value.exact_eq_ok_integer_iff.2 hnegated

/-- The integer after the least one. -/
theorem parse_display_least_succ : Int64.minValue + 1 ≠ Int64.minValue ∧
    (Value.integer (Int64.minValue + 1)).display = "-9223372036854775807" ∧
    ∃ e, parse "-9223372036854775807" = .ok e ∧
      ∀ locals state, e.eval locals state = .ok (.integer (Int64.minValue + 1)) := by
  have hne : Int64.minValue + 1 ≠ Int64.minValue := by decide
  have hdisplay : (Value.integer (Int64.minValue + 1)).display = "-9223372036854775807" := by
    decide +kernel
  obtain ⟨e, hparse, heval⟩ := parse_display hne
  rw [hdisplay] at hparse
  exact ⟨hne, hdisplay, e, hparse, heval⟩

/-- The digits of the least integer are too many without the sign. -/
theorem parse_display_least : (Value.integer Int64.minValue).display = "-9223372036854775808" ∧
    parse "-9223372036854775808" = .error (.integerTooLarge "9223372036854775808" 2) ∧
    ¬∃ e, parse (Value.integer Int64.minValue).display = .ok e ∧
      ∀ locals state, e.eval locals state = .ok (.integer Int64.minValue) := by
  have hdisplay : (Value.integer Int64.minValue).display = "-9223372036854775808" := by
    decide +kernel
  have hparse : parse "-9223372036854775808" =
      .error (.integerTooLarge "9223372036854775808" 2) := by
    with_unfolding_all rfl
  refine ⟨hdisplay, hparse, ?_⟩
  rw [hdisplay, hparse]
  exact fun ⟨e, he, _⟩ => nomatch he

end Covenant.Expr
