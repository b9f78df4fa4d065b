import Covenant.Proofs.Documents

/-! What is printed is read back. The tokens of a document are read as that document, and they
are the tokens of its compact text and of its pretty text. -/

namespace Covenant.Json

/-! ### Printed tokens -/

/-- Blanks alone. -/
def Blanks (bs : List Char) : Prop := ∀ b ∈ bs, isBlank b = true

theorem blanks_nil : Blanks [] := fun _ hb => absurd hb List.not_mem_nil

theorem blanks_cons {b : Char} (hb : isBlank b = true) {bs : List Char} (hbs : Blanks bs) :
    Blanks (b :: bs) :=
  List.forall_mem_cons.2 ⟨hb, hbs⟩

/-- Before what is no part of a numeral, the text is read as the tokens. -/
def Prints (ts : List Token) (cs : List Char) : Prop :=
  ∀ read rest, Stops rest →
    tokensAfter? read (cs ++ rest) = tokensAfter? (ts.reverse ++ read) rest

theorem stops_nil : Stops [] := fun _ h => absurd h (by simp)

theorem stops_cons {c : Char} (hc : inNumeral c = false) (cs : List Char) : Stops (c :: cs) := by
  rintro _ ⟨⟩
  exact hc

theorem Stops.append {cs rest : List Char} (hcs : Stops cs) (hrest : Stops rest) :
    Stops (cs ++ rest) := by
  cases cs with
  | nil => exact hrest
  | cons c cs => exact stops_cons (hcs c rfl) _

theorem inNumeral_of_isBlank {c : Char} (h : isBlank c = true) : inNumeral c = false := by
  simp only [isBlank, Bool.or_eq_true, beq_iff_eq] at h
  obtain ((rfl | rfl) | rfl) | rfl := h <;> decide

theorem tokensAfter?_of_token? {read : List Token} {c : Char} {cs rest : List Char} {t : Token}
    (hc : isBlank c = false) (h : token? c (cs ++ rest) = some (t, cs.length)) :
    tokensAfter? read (c :: (cs ++ rest)) = tokensAfter? (t :: read) rest := by
  rw [tokensAfter?, if_neg (by simp [hc])]
  simp only [h, List.drop_left]

theorem tokens?_of_prints {ts : List Token} {text : String} (h : Prints ts text.toList) :
    tokens? text = some ts := by
  have hread := h [] [] stops_nil
  rw [List.append_nil, List.append_nil] at hread
  rw [tokens?, hread, tokensAfter?, List.reverse_reverse]

/-- The character is the token, whatever follows it. -/
structure Mark (c : Char) (t : Token) : Prop where
  solid : isBlank c = false
  apart : inNumeral c = false
  reads : ∀ rest, token? c rest = some (t, 0)

theorem mark_comma : Mark ',' .comma := ⟨rfl, rfl, fun _ => rfl⟩

theorem mark_colon : Mark ':' .colon := ⟨rfl, rfl, fun _ => rfl⟩

theorem mark_openBracket : Mark '[' .openBracket := ⟨rfl, rfl, fun _ => rfl⟩

theorem mark_closeBracket : Mark ']' .closeBracket := ⟨rfl, rfl, fun _ => rfl⟩

theorem mark_openBrace : Mark '{' .openBrace := ⟨rfl, rfl, fun _ => rfl⟩

theorem mark_closeBrace : Mark '}' .closeBrace := ⟨rfl, rfl, fun _ => rfl⟩

namespace Prints

variable {ts us : List Token} {cs ds : List Char}

theorem nil : Prints [] [] := fun _ _ _ => rfl

theorem append (h : Prints ts cs) (hds : Stops ds) (h' : Prints us ds) :
    Prints (ts ++ us) (cs ++ ds) := by
  intro read rest hrest
  rw [List.append_assoc, h _ _ (hds.append hrest), h' _ _ hrest, List.reverse_append,
    List.append_assoc]

theorem blanks {bs : List Char} (hbs : Blanks bs) (h : Prints ts cs) :
    Prints ts (bs ++ cs) := by
  intro read rest hrest
  induction bs with
  | nil => exact h _ _ hrest
  | cons b bs ih =>
    obtain ⟨hb, hbs⟩ := List.forall_mem_cons.1 hbs
    rw [List.cons_append, List.cons_append, tokensAfter?, if_pos hb]
    exact ih hbs

/-- A token that ends wherever it ends stands before any text. -/
theorem cons {t : Token} {c : Char} (tail : List Char) (hc : isBlank c = false)
    (ht : ∀ rest, token? c (tail ++ rest) = some (t, tail.length)) (h : Prints ts cs) :
    Prints (t :: ts) (c :: (tail ++ cs)) := by
  intro read rest hrest
  rw [List.cons_append, List.append_assoc, tokensAfter?_of_token? hc (ht _), h _ _ hrest,
    List.reverse_cons, List.append_assoc]
  rfl

theorem mark {t : Token} {c : Char} (hc : Mark c t) (h : Prints ts cs) :
    Prints (t :: ts) (c :: cs) :=
  h.cons [] hc.solid hc.reads

/-- Parts with commas between them, and blanks after the commas. -/
theorem intercalate {bs : List Char} (hbs : Blanks bs) {tss : List (List Token)}
    {css : List (List Char)} (h : List.Forall₂ Prints tss css) :
    Prints ([Token.comma].intercalate tss) ((',' :: bs).intercalate css) := by
  induction h with
  | nil => exact nil
  | cons hfirst hrest ih =>
    cases hrest with
    | nil => simpa using hfirst
    | cons hsecond hrest =>
      rw [List.intercalate_cons_cons, List.intercalate_cons_cons, List.append_assoc,
        List.append_assoc]
      exact hfirst.append (stops_cons mark_comma.apart _) ((ih.blanks hbs).mark mark_comma)

theorem enclosed {t u : Token} {o c : Char} (ho : Mark o t) (hc : Mark c u) {bs bs' : List Char}
    (hbs : Blanks bs) (hbs' : Blanks bs')
    (h : Prints ts cs) : Prints (t :: (ts ++ [u])) (o :: (bs ++ cs ++ (bs' ++ [c]))) := by
  have hstops : Stops (bs' ++ [c]) := by
    cases bs' with
    | nil => exact stops_cons hc.apart _
    | cons b bs' => exact stops_cons (inNumeral_of_isBlank (hbs' b (by simp))) _
  exact ((h.blanks hbs).append hstops ((nil.mark hc).blanks hbs')).mark ho

theorem numeral {n : Numeral} (h : n.Plain) : Prints [.leaf n.toDocument] n.text := by
  intro read rest hrest
  have hn := h.numeral?_text
  have hall := h.inNumeral
  cases htext : n.text with
  | nil =>
    rw [htext] at hn
    cases hn
  | cons c tail =>
    rw [htext] at hn hall
    obtain ⟨hc, htail⟩ := List.forall_mem_cons.1 hall
    have hblank : isBlank c = false := by
      cases hb : isBlank c with
      | false => rfl
      | true => exact absurd hc (by simp [inNumeral_of_isBlank hb])
    refine tokensAfter?_of_token? hblank ?_
    rw [token?_of_inNumeral hc, takeWhile_append_of_stops htail hrest, hn]
    rfl

end Prints

/-! ### Printed strings -/

/-- The control characters that have no short escape. -/
theorem exists_hex_of_lt {n : Nat} (hn : n < 0x20) : ∃ a b : Char,
    (if n < 0x10 then "\\u000".toList ++ Text.hex n else "\\u00".toList ++ Text.hex n) =
      ['\\', 'u', '0', '0', a, b] ∧ ofHex? ['0', '0', a, b] = some n := by
  interval_cases n <;> exact ⟨_, _, rfl, rfl⟩

theorem pieces?_escapedChar (read : List Piece) (width : Nat) (c : Char) (cs : List Char) :
    pieces? read width (Document.escapedChar c ++ cs) =
      pieces? (.char c :: read) (width + (Document.escapedChar c).length) cs := by
  unfold Document.escapedChar
  split
  case h_8 hquote hslash _ _ _ _ _ =>
    by_cases hc : c.toNat < 0x20
    · obtain ⟨a, b, htext, hhex⟩ := exists_hex_of_lt hc
      have htext' : (if c.toNat < 0x10 then "\\u000".toList ++ Text.hex c.toNat
          else if c.toNat < 0x20 then "\\u00".toList ++ Text.hex c.toNat else [c]) =
          ['\\', 'u', '0', '0', a, b] := by
        rw [if_pos hc, htext]
      have hunit : Piece.ofUnit c.toNat = .char c := by
        rw [Piece.ofUnit, if_neg (by simp; omega), if_neg (by simp; omega), Char.ofNat_toNat]
      rw [htext']
      simp only [List.cons_append, List.nil_append, pieces?, hhex, hunit]
      rfl
    · rw [if_neg (by omega), if_neg hc]
      exact pieces?_unescaped hquote hslash hc cs
  all_goals exact pieces?_escape rfl cs

theorem pieces?_quoted (read : List Piece) (width : Nat) (cs rest : List Char) :
    pieces? read width (cs.flatMap Document.escapedChar ++ '"' :: rest) =
      some ((cs.map Piece.char).reverse ++ read,
        width + (cs.flatMap Document.escapedChar).length + 1) := by
  induction cs generalizing read width with
  | nil => simp [pieces?]
  | cons c cs ih =>
    rw [List.flatMap_cons, List.append_assoc, pieces?_escapedChar, ih, List.length_append]
    simp [Nat.add_assoc]

theorem joined?_chars (text cs : List Char) :
    joined? text (cs.map .char) = some (cs.reverse ++ text) := by
  induction cs generalizing text with
  | nil => rfl
  | cons c cs ih =>
    rw [List.map_cons, joined?, ih]
    simp

/-- A quoted text is a string that is that text. -/
theorem Prints.quoted {ts : List Token} {cs : List Char} (s : String) (h : Prints ts cs) :
    Prints (.string (some s) :: ts) ((Document.quoted s).toList ++ cs) := by
  have htoken : ∀ rest, token? '"' (s.toList.flatMap Document.escapedChar ++ ['"'] ++ rest) =
      some (.string (some s), (s.toList.flatMap Document.escapedChar ++ ['"']).length) := by
    intro rest
    rw [List.append_assoc]
    change (pieces? [] 0 (s.toList.flatMap Document.escapedChar ++ '"' :: rest)).map _ = _
    rw [pieces?_quoted, List.append_nil, ← List.map_reverse, Option.map_some]
    simp only [joined?_chars]
    simp
  rw [Document.quoted, String.toList_ofList, List.cons_append, List.cons_append]
  exact h.cons _ rfl htoken

end Covenant.Json

namespace Covenant.Document

open Json (Token Prints)

/-! ### Tokens -/

mutual

def tokens : Document → List Token
  | array items =>
    .openBracket :: ([Token.comma].intercalate (itemsTokens items) ++ [.closeBracket])
  | object members =>
    .openBrace :: ([Token.comma].intercalate (membersTokens members) ++ [.closeBrace])
  | string s => [.string (some s)]
  | null => [.leaf null]
  | boolean b => [.leaf (boolean b)]
  | integer n => [.leaf (integer n)]
  | float x => [.leaf (float x)]
  | void => [.leaf void]

def itemsTokens : List Document → List (List Token)
  | [] => []
  | d :: rest => tokens d :: itemsTokens rest

def membersTokens : List (String × Document) → List (List Token)
  | [] => []
  | (name, d) :: rest => (.string (some name) :: .colon :: tokens d) :: membersTokens rest

end

/-! ### Reading the tokens -/

/-- In the place of a value the tokens are read as the document. -/
def IsRead (d : Document) : Prop :=
  ∀ stack rest, read? .value stack (d.tokens ++ rest) = read? (.after d) stack rest

theorem exists_itemsTokens (d : Document) (items : List Document) : ∃ t ts,
    [Token.comma].intercalate (itemsTokens (d :: items)) = t :: ts ∧ t ≠ .closeBracket := by
  obtain ⟨t, ts, hd, ht⟩ : ∃ t ts, d.tokens = t :: ts ∧ t ≠ .closeBracket := by
    cases d <;> exact ⟨_, _, rfl, by simp⟩
  cases items with
  | nil => exact ⟨t, ts, by simp [itemsTokens, hd], ht⟩
  | cons e items =>
    rw [itemsTokens, itemsTokens, List.intercalate_cons_cons, hd]
    exact ⟨t, _, rfl, ht⟩

theorem read?_openBracket {stack : List Frame} {t : Token} (ht : t ≠ .closeBracket)
    (rest : List Token) : read? .value stack (.openBracket :: t :: rest) =
      read? .value (.items [] :: stack) (t :: rest) := by
  rw [read?]
  rintro rest ⟨⟩
  exact ht rfl

theorem read?_items (stack : List Frame) (rest : List Token) (before : List Document)
    {d : Document} {items : List Document} (h : ∀ e ∈ d :: items, IsRead e) :
    read? .value (.items before :: stack)
        ([Token.comma].intercalate (itemsTokens (d :: items)) ++ .closeBracket :: rest) =
      read? (.after (.array (before.reverse ++ d :: items))) stack rest := by
  induction items generalizing before d with
  | nil =>
    have hd := h d (by simp)
    rw [itemsTokens, itemsTokens, List.intercalate_singleton, hd, read?]
    simp
  | cons e items ih =>
    obtain ⟨hd, hitems⟩ := List.forall_mem_cons.1 h
    rw [itemsTokens, itemsTokens, List.intercalate_cons_cons, List.append_assoc, List.append_assoc,
      hd, List.singleton_append, read?, ← itemsTokens, ih (d :: before) hitems]
    simp

theorem ofMembers_some (members : List (String × Document)) :
    ofMembers (members.map fun m => (some m.1, m.2)) = .object members.reverse := by
  have hnames : (members.map fun m => (some m.1, m.2)).reverse.mapM
      (fun m => m.1.map (·, m.2)) = some members.reverse := by
    rw [← List.map_reverse, List.mapM_map]
    exact (List.mapM_pure (f := id)).trans (congrArg some (List.map_id _))
  rw [ofMembers, hnames]

theorem read?_members (stack : List Frame) (rest : List Token)
    (before : List (String × Document)) {m : String × Document}
    {members : List (String × Document)} (h : ∀ n ∈ m :: members, IsRead n.2) :
    read? (.member (before.map fun n => (some n.1, n.2))) stack
        ([Token.comma].intercalate (membersTokens (m :: members)) ++ .closeBrace :: rest) =
      read? (.after (.object (before.reverse ++ m :: members))) stack rest := by
  obtain ⟨name, d⟩ := m
  induction members generalizing before name d with
  | nil =>
    have hd := h (name, d) (by simp)
    have hmembers := ofMembers_some ((name, d) :: before)
    rw [List.map_cons, List.reverse_cons] at hmembers
    rw [membersTokens, membersTokens, List.intercalate_singleton, List.cons_append,
      List.cons_append, read?, hd, read?, hmembers]
  | cons e members ih =>
    obtain ⟨hd, hmembers⟩ := List.forall_mem_cons.1 h
    obtain ⟨other, e⟩ := e
    rw [membersTokens, membersTokens, List.intercalate_cons_cons, List.append_assoc,
      List.append_assoc, List.cons_append, List.cons_append, read?, hd, List.singleton_append,
      read?, ← membersTokens]
    have hlater := ih ((name, d) :: before) other e hmembers
    rw [List.map_cons] at hlater
    rw [hlater]
    simp

theorem exists_membersTokens (m : String × Document) (members : List (String × Document)) :
    ∃ ts, [Token.comma].intercalate (membersTokens (m :: members)) =
      .string (some m.1) :: .colon :: ts := by
  cases members with
  | nil => exact ⟨m.2.tokens, by simp [membersTokens]⟩
  | cons n members =>
    rw [membersTokens, membersTokens, List.intercalate_cons_cons]
    exact ⟨_, rfl⟩

/-- The tokens of a document are read as the document. -/
theorem isRead (d : Document) : IsRead d := by
  intro stack rest
  induction d using induction generalizing stack rest with
  | array items ih =>
    cases items with
    | nil => simp [tokens, itemsTokens, read?]
    | cons d items =>
      -- the reader looks one token ahead, in case the array is empty
      obtain ⟨t, ts, hts, ht⟩ := exists_itemsTokens d items
      have hitems := read?_items stack rest [] ih
      rw [hts] at hitems
      rw [tokens, hts, List.cons_append, List.append_assoc]
      exact (read?_openBracket ht _).trans hitems
  | object members ih =>
    cases members with
    | nil => simp [tokens, membersTokens, read?]
    | cons m members =>
      obtain ⟨ts, hts⟩ := exists_membersTokens m members
      have hmembers := read?_members stack rest [] ih
      rw [hts] at hmembers
      rw [tokens, hts, List.cons_append, List.append_assoc, List.cons_append, read?]
      · exact hmembers
      · rintro rest ⟨⟩
  | _ => rfl

/-! ### Printing the tokens -/

theorem itemsTokens_eq (items : List Document) : itemsTokens items = items.map tokens :=
  eq_map_of_cons itemsTokens rfl (fun _ _ => rfl) _

theorem membersTokens_eq (members : List (String × Document)) : membersTokens members =
    members.map fun m => .string (some m.1) :: .colon :: m.2.tokens :=
  eq_map_of_cons membersTokens rfl (fun _ _ => rfl) _

theorem compactItems_eq (items : List Document) : compactItems items = items.map compact :=
  eq_map_of_cons compactItems rfl (fun _ _ => rfl) _

theorem compactMembers_eq (members : List (String × Document)) : compactMembers members =
    members.map fun m => quoted m.1 ++ ":" ++ compact m.2 :=
  eq_map_of_cons compactMembers rfl (fun _ _ => rfl) _

theorem prettyItems_eq (level : Nat) (items : List Document) :
    prettyItems level items = items.map (prettyAt level) :=
  eq_map_of_cons (prettyItems level) rfl (fun _ _ => rfl) _

theorem prettyMembers_eq (level : Nat) (members : List (String × Document)) :
    prettyMembers level members =
      members.map fun m => quoted m.1 ++ ": " ++ prettyAt level m.2 :=
  eq_map_of_cons (prettyMembers level) rfl (fun _ _ => rfl) _

/-- The text of a part that is no container. -/
theorem prints_plain {d : Document} (hd : d.Plain) (harray : ∀ items, d ≠ array items)
    (hobject : ∀ members, d ≠ object members) : Prints d.tokens d.compact.toList := by
  cases d with
  | null =>
    exact Prints.nil.cons (c := 'n') ['u', 'l', 'l'] rfl fun _ => rfl
  | boolean b =>
    cases b with
    | true => exact Prints.nil.cons (c := 't') ['r', 'u', 'e'] rfl fun _ => rfl
    | false => exact Prints.nil.cons (c := 'f') ['a', 'l', 's', 'e'] rfl fun _ => rfl
  | integer k =>
    obtain ⟨n, hplain, htext, hn⟩ := Json.exists_numeral_of_integer hd
    rw [compact, ← htext, tokens, ← hn]
    exact Prints.numeral hplain
  | float x =>
    obtain ⟨n, hplain, htext, hn⟩ := Json.exists_numeral_of_float hd
    rw [compact, ← htext, tokens, ← hn]
    exact Prints.numeral hplain
  | string s =>
    have hquoted := Prints.nil.quoted s
    rwa [List.append_nil] at hquoted
  | void => exact hd.elim
  | array items => exact absurd rfl (harray items)
  | object members => exact absurd rfl (hobject members)

section
variable {opening closing : String} {o c : Char} {t u : Token} (ho : Json.Mark o t)
  (hc : Json.Mark c u) (hopening : opening.toList = [o]) (hclosing : closing.toList = [c])
  {tss : List (List Token)} {parts : List String}

include ho hc hopening hclosing

theorem prints_line (h : List.Forall₂ Prints tss (parts.map String.toList)) :
    Prints (t :: ([Token.comma].intercalate tss ++ [u]))
      (opening ++ ",".intercalate parts ++ closing).toList := by
  have hparts := Prints.enclosed ho hc Json.blanks_nil Json.blanks_nil
    (Prints.intercalate Json.blanks_nil h)
  simpa [hopening, hclosing, String.toList_intercalate] using hparts

theorem prints_block (level : Nat) (h : List.Forall₂ Prints tss (parts.map String.toList)) :
    Prints (t :: ([Token.comma].intercalate tss ++ [u]))
      (block level opening parts closing).toList := by
  have hmargin : ∀ n, Json.Blanks (margin n).toList := by
    intro n b hb
    rw [margin, String.toList_ofList] at hb
    rw [List.eq_of_mem_replicate hb]
    rfl
  have hnewline : Json.Blanks ['\n'] := Json.blanks_cons rfl Json.blanks_nil
  cases parts with
  | nil => simpa [block] using prints_line ho hc hopening hclosing h
  | cons part parts =>
    have hlines : List.Forall₂ Prints tss
        ((part :: parts).map fun p => (margin (level + 1)).toList ++ p.toList) := by
      rw [List.forall₂_map_right_iff] at h ⊢
      exact h.imp fun _ _ hp => hp.blanks (hmargin _)
    have hlast : Json.Blanks ('\n' :: (margin level).toList) := Json.blanks_cons rfl (hmargin level)
    have hparts := Prints.enclosed ho hc hnewline hlast (Prints.intercalate hnewline hlines)
    simp only [block, String.toList_append, String.toList_intercalate, List.map_map,
      Function.comp_def, hopening, hclosing, List.append_assoc]
    simp only [List.append_assoc] at hparts
    exact hparts

end

theorem prints_compact {d : Document} (h : d.Readable) : Prints d.tokens d.compact.toList := by
  induction d using induction with
  | array items ih =>
    rw [tokens, compact, itemsTokens_eq, compactItems_eq]
    refine prints_line Json.mark_openBracket Json.mark_closeBracket rfl rfl ?_
    simp only [List.forall₂_map_left_iff, List.forall₂_map_right_iff, List.forall₂_same]
    exact fun d hd => ih d hd (readable_array.1 h d hd)
  | object members ih =>
    rw [tokens, compact, membersTokens_eq, compactMembers_eq]
    refine prints_line Json.mark_openBrace Json.mark_closeBrace rfl rfl ?_
    simp only [List.forall₂_map_left_iff, List.forall₂_map_right_iff, List.forall₂_same,
      String.toList_append, List.append_assoc]
    exact fun m hm => ((ih m hm (readable_object.1 h m hm)).mark Json.mark_colon).quoted m.1
  | _ => exact prints_plain h (by simp) (by simp)

theorem prints_pretty {d : Document} (h : d.Readable) (level : Nat) :
    Prints d.tokens (d.prettyAt level).toList := by
  induction d using induction generalizing level with
  | array items ih =>
    rw [tokens, prettyAt, itemsTokens_eq, prettyItems_eq]
    refine prints_block Json.mark_openBracket Json.mark_closeBracket rfl rfl level ?_
    simp only [List.forall₂_map_left_iff, List.forall₂_map_right_iff, List.forall₂_same]
    exact fun d hd => ih d hd (readable_array.1 h d hd) (level + 1)
  | object members ih =>
    rw [tokens, prettyAt, membersTokens_eq, prettyMembers_eq]
    refine prints_block Json.mark_openBrace Json.mark_closeBrace rfl rfl level ?_
    simp only [List.forall₂_map_left_iff, List.forall₂_map_right_iff, List.forall₂_same,
      String.toList_append, List.append_assoc]
    intro m hm
    have hpart := ih m hm (readable_object.1 h m hm) (level + 1)
    exact ((hpart.blanks (Json.blanks_cons rfl Json.blanks_nil)).mark Json.mark_colon).quoted m.1
  | _ => exact prints_plain h (by simp) (by simp)

/-- A readable document is read back from its compact text and from its pretty text. -/
theorem parse?_printed {d : Document} (h : d.Readable) :
    parse? d.compact = some d ∧ parse? d.pretty = some d := by
  have hread := isRead d [] []
  rw [List.append_nil, read?] at hread
  have hcompact : parse? d.compact = ofTokens? d.tokens := by
    rw [parse?, Json.tokens?_of_prints (prints_compact h), Option.bind_some]
  have hpretty : parse? d.pretty = ofTokens? d.tokens := by
    rw [parse?, pretty, Json.tokens?_of_prints (prints_pretty h 0), Option.bind_some]
  exact ⟨hcompact.trans hread, hpretty.trans hread⟩

end Covenant.Document
