import Covenant.Expr.Parser
import Covenant.Proofs.Grammar
import Mathlib.Data.List.TakeWhile

/-! How the parser reads. Of the tokens only those before the first `eof` are ever looked at.
A parser recognises a level of the grammar if it reads an expression of the level from
whatever begins with one, and nothing else; parsers for a level come from parsers for the
tighter one. The bounds are part of this: an expression within them is read with its tree,
and one outside them is refused as too deep. -/

namespace Covenant.Expr

def Token.isEnd : Token → Bool
  | .eof => true
  | _ => false

theorem Token.isEnd_eq_false {t : Token} (h : t ≠ .eof) : t.isEnd = false := by
  cases t with
  | eof => exact absurd rfl h
  | _ => rfl

/-- The text that tokens stand for: all before the first `eof`. -/
def sentence (tokens : List Located) : List Token :=
  (tokens.map Located.token).takeWhile fun t => !t.isEnd

theorem sentence_append {read : List Located} (h : ∀ t ∈ read, t.token ≠ .eof)
    (after : List Located) :
    sentence (read ++ after) = read.map Located.token ++ sentence after := by
  have hread : ∀ t ∈ read.map Located.token, (!t.isEnd) = true := by
    intro t ht
    obtain ⟨located, hmem, rfl⟩ := List.mem_map.1 ht
    rw [Token.isEnd_eq_false (h located hmem)]
    rfl
  rw [sentence, List.map_append, List.takeWhile_append_of_pos hread]
  rfl

/-- Tokens without an end are all part of the text. -/
theorem sentence_eq_map {tokens : List Located} (h : ∀ t ∈ tokens, t.token ≠ .eof) :
    sentence tokens = tokens.map Located.token := by
  have happend := sentence_append h []
  rwa [List.append_nil, show sentence [] = [] from rfl, List.append_nil] at happend

/-- A cursor at the given nesting, in front of the given tokens. -/
structure Cursor.At (c : Cursor) (nesting : Nat) (ahead : List Token) : Prop where
  nesting : c.nesting = nesting
  ahead : sentence c.rest = ahead
  ends : ∃ t ∈ c.rest, t.token.isEnd = true

namespace Cursor.At

variable {c : Cursor} {nesting : Nat} {t : Token} {ts : List Token}

theorem here (h : c.At nesting ts) : c.here.token = ts.headD .eof := by
  obtain ⟨rest, _⟩ := c
  obtain ⟨-, hahead, t, ht, hend⟩ := h
  cases rest with
  | nil => simp at ht
  | cons first rest =>
    obtain ⟨token, offset⟩ := first
    subst hahead
    cases token <;> rfl

theorem next (h : c.At nesting (t :: ts)) : c.next.At nesting ts := by
  obtain ⟨rest, _⟩ := c
  obtain ⟨hnesting, hahead, t', ht', hend⟩ := h
  cases rest with
  | nil => simp at ht'
  | cons first rest =>
    rw [sentence, List.map_cons, List.takeWhile_cons] at hahead
    split at hahead
    next hfirst =>
      obtain ⟨-, hrest⟩ := List.cons.inj hahead
      rcases List.mem_cons.1 ht' with rfl | ht'
      · simp [hend] at hfirst
      · cases rest with
        | nil => simp at ht'
        | cons => exact ⟨hnesting, hrest, t', ht', hend⟩
    next => cases hahead

theorem second (h : c.At nesting (t :: ts)) : c.second.token = ts.headD .eof := h.next.here

theorem ne_eof (h : c.At nesting (t :: ts)) : t ≠ .eof := by
  have ht : t ∈ sentence c.rest := by simp [h.ahead]
  have hend := List.mem_takeWhile_imp ht
  rintro rfl
  simp [Token.isEnd] at hend

/-- The token at the cursor is the first of the text, unless the text is at its end. -/
theorem cases (h : c.At nesting ts) :
    ts = [] ∧ c.here.token = .eof ∨ ∃ us, ts = c.here.token :: us ∧ c.next.At nesting us := by
  cases ts with
  | nil => exact .inl ⟨rfl, h.here⟩
  | cons t us => exact .inr ⟨us, by rw [h.here]; rfl, h.next⟩

theorem deeper (h : c.At nesting ts) : (⟨c.rest, c.nesting + 1⟩ : Cursor).At (nesting + 1) ts :=
  ⟨congrArg (· + 1) h.nesting, h.ahead, h.ends⟩

theorem shallower (h : c.At (nesting + 1) ts) :
    (⟨c.rest, c.nesting - 1⟩ : Cursor).At nesting ts :=
  ⟨congrArg (· - 1) h.nesting, h.ahead, h.ends⟩

end Cursor.At

/-! ### Runs of parsers -/

namespace Parser

variable {α β : Type} {x : Parser α} {f : α → Parser β} {c c' : Cursor} {a : α} {b : β}

theorem bind_of_ok (h : x c = .ok a c') : (x >>= f) c = f a c' := by
  show EStateM.bind x f c = _
  rw [EStateM.bind, h]

theorem bind_of_error {e : ParseError} (h : x c = .error e c') :
    (x >>= f) c = .error e c' := by
  show EStateM.bind x f c = _
  rw [EStateM.bind, h]

theorem exists_of_bind_eq_ok {c'' : Cursor} (h : (x >>= f) c = .ok b c'') :
    ∃ a c', x c = .ok a c' ∧ f a c' = .ok b c'' := by
  rcases hx : x c with ⟨a, c'⟩ | ⟨e, c'⟩
  · exact ⟨a, c', rfl, by rwa [bind_of_ok hx] at h⟩
  · rw [bind_of_error hx] at h
    cases h

theorem peek_bind (f : Token → Parser β) : (peek >>= f) c = f c.here.token c := rfl

/-- A run that was given up because a bound was exceeded. -/
def TooDeep (r : EStateM.Result ParseError Cursor α) : Prop :=
  ∃ limit column c, r = .error (.tooDeep limit column) c

theorem TooDeep.bind (h : TooDeep (x c)) : TooDeep ((x >>= f) c) := by
  obtain ⟨limit, column, c', h⟩ := h
  exact ⟨limit, column, c', bind_of_error h⟩

theorem failTooDeep_tooDeep (limit : Nat) : TooDeep (failTooDeep (α := α) limit c) :=
  ⟨limit, _, c, rfl⟩

theorem node_of_lt {tree : Expr} {below : Nat} (h : below < maxDepth) :
    node tree below c = .ok ⟨tree, below + 1⟩ c := by
  rw [node, if_pos h]
  rfl

theorem node_tooDeep {tree : Expr} {below : Nat} (h : maxDepth ≤ below) :
    TooDeep (node tree below c) := by
  rw [node, if_neg (Nat.not_lt.2 h)]
  exact failTooDeep_tooDeep maxDepth

theorem of_node_eq_ok {tree : Expr} {below : Nat} {x : Parsed}
    (h : node tree below c = .ok x c') : below < maxDepth ∧ x = ⟨tree, below + 1⟩ ∧ c' = c := by
  rcases Nat.lt_or_ge below maxDepth with hlt | hge
  · rw [node_of_lt hlt] at h
    cases h
    exact ⟨hlt, rfl, rfl⟩
  · have hdeep : TooDeep (node tree below c) := node_tooDeep hge
    obtain ⟨_, _, _, herror⟩ := hdeep
    rw [herror] at h
    cases h

/-- A chain leaves what no operator of its level joins to it. -/
theorem chainFrom_of_eq_none {operator : Token → Option BinaryOp} {p : Parser Parsed}
    {left : Parsed} (h : operator c.here.token = none) (fuel : Nat) :
    chainFrom operator p fuel left c = .ok left c := by
  cases fuel with
  | zero => rfl
  | succ fuel =>
    rw [chainFrom, peek_bind, h]
    rfl

theorem chainFrom_of_eq_some {operator : Token → Option BinaryOp} {p : Parser Parsed}
    {left : Parsed} {op : BinaryOp} (h : operator c.here.token = some op) (fuel : Nat) :
    chainFrom operator p (fuel + 1) left c = (do
      let right ← p
      let both ← node (.binary op left.tree right.tree) (max left.depth right.depth)
      chainFrom operator p fuel both) c.next := by
  rw [chainFrom, peek_bind, h]
  rfl

end Parser

/-! ### Recognition -/

/-- The bounds on an expression whose most enclosed token has `n` enclosures, in a place that
has `nesting` enclosures already. -/
def Within (nesting n : Nat) (e : Expr) : Prop := nesting + n ≤ maxNesting ∧ e.depth ≤ maxDepth

/-- A parser result that is an expression of a level within the bounds. -/
def Yields (nesting : Nat) (level : Level) (ts : List Token) (x : Parsed) : Prop :=
  ∃ n, Derives level ts n x.tree ∧ x.depth = x.tree.depth ∧ Within nesting n x.tree

/-- At a cursor of nesting `outer`, a parser recognises a level of expressions whose tokens it
counts from the nesting `inner` on. -/
structure Recognises (outer inner : Nat) (p : Parser Parsed) (level : Level) : Prop where
  sound : ∀ {c c' : Cursor} {ts : List Token} {x : Parsed}, c.At outer ts → p c = .ok x c' →
    ∃ us rest, ts = us ++ rest ∧ c'.At outer rest ∧ Yields inner level us x
  complete : ∀ {c : Cursor} {us rest : List Token} {n : Nat} {e : Expr},
    c.At outer (us ++ rest) → Derives level us n e → level.EndsAt rest →
    (Within inner n e ∧ ∃ c', c'.At outer rest ∧ p c = .ok ⟨e, e.depth⟩ c') ∨
      (¬Within inner n e ∧ Parser.TooDeep (p c))

theorem depth_pos (e : Expr) : 0 < e.depth := by
  cases e <;> simp [Expr.depth]

theorem Within.left {nesting n m : Nat} {op : BinaryOp} {l r : Expr}
    (h : Within nesting (max n m) (.binary op l r)) : Within nesting n l := by
  obtain ⟨hnesting, hdepth⟩ := h
  simp only [Expr.depth] at hdepth
  exact ⟨by omega, by omega⟩

theorem Within.right {nesting n m : Nat} {op : BinaryOp} {l r : Expr}
    (h : Within nesting (max n m) (.binary op l r)) : Within nesting m r := by
  obtain ⟨hnesting, hdepth⟩ := h
  simp only [Expr.depth] at hdepth
  exact ⟨by omega, by omega⟩

theorem Within.binary {nesting n m : Nat} {op : BinaryOp} {l r : Expr} (hl : Within nesting n l)
    (hr : Within nesting m r) (h : max l.depth r.depth < maxDepth) :
    Within nesting (max n m) (.binary op l r) := by
  have hnesting := hl.1
  have hnesting' := hr.1
  exact ⟨by omega, by simp only [Expr.depth]; omega⟩

namespace Recognises

variable {outer inner : Nat} {p : Parser Parsed} {level next : Level}
  {operator : Token → Option BinaryOp}

/-- What a chain of operators reads goes on with the expression that is there already. -/
theorem chainFrom_sound (h : Recognises outer inner p next)
    (hnext : level.tighter? = some next)
    (hop : ∀ t op, operator t = some op → Operator level t op) (fuel : Nat) {left x : Parsed}
    {c c' : Cursor} {vs ts : List Token} (hleft : Yields inner level vs left)
    (hc : c.At outer ts) (hrun : Parser.chainFrom operator p fuel left c = .ok x c') :
    ∃ us rest, ts = us ++ rest ∧ c'.At outer rest ∧ Yields inner level (vs ++ us) x := by
  induction fuel generalizing left c vs ts with
  | zero =>
    cases hrun
    exact ⟨[], ts, rfl, hc, by rwa [List.append_nil]⟩
  | succ fuel ih =>
    cases hoperator : operator c.here.token with
    | none =>
      rw [Parser.chainFrom_of_eq_none hoperator] at hrun
      cases hrun
      exact ⟨[], ts, rfl, hc, by rwa [List.append_nil]⟩
    | some op =>
      rw [Parser.chainFrom_of_eq_some hoperator] at hrun
      have hop := hop _ _ hoperator
      rcases hc.cases with ⟨rfl, hend⟩ | ⟨us, rfl, hnext'⟩
      · rw [hend] at hop
        cases hop
      · obtain ⟨right, c₁, hright, hrun⟩ := Parser.exists_of_bind_eq_ok hrun
        obtain ⟨both, c₂, hnode, hchain⟩ := Parser.exists_of_bind_eq_ok hrun
        obtain ⟨us, rest, rfl, hc₁, m, hderives, hdepth, hwithin⟩ := h.sound hnext' hright
        obtain ⟨hlt, rfl, rfl⟩ := Parser.of_node_eq_ok hnode
        obtain ⟨n, hderives', hdepth', hwithin'⟩ := hleft
        rw [hdepth, hdepth'] at hlt
        have hboth : Yields inner level (vs ++ c.here.token :: us)
            ⟨.binary op left.tree right.tree, max left.depth right.depth + 1⟩ :=
          ⟨_, .binary hnext hop hderives' hderives, by rw [hdepth, hdepth']; rfl,
            hwithin'.binary hwithin hlt⟩
        obtain ⟨us', rest', rfl, hc', hyields⟩ := ih hboth hc₁ hchain
        exact ⟨c.here.token :: (us ++ us'), rest', by simp, hc', by simpa using hyields⟩

/-- A chain of operators is read up to any operator of it, unless a bound is exceeded before.
The fuel left is more than the levels by which the tree can still grow. -/
theorem chain_complete (h : Recognises outer inner p next) (hnext : level.tighter? = some next)
    (hlevel : ∃ t op, Operator level t op)
    (hop : ∀ t op, Operator level t op → operator t = some op) {us : List Token} {n : Nat}
    {e : Expr} (hderives : Derives level us n e) {c : Cursor} {rest : List Token}
    (hc : c.At outer (us ++ rest)) (hrest : next.EndsAt rest) :
    (Within inner n e ∧ ∃ c' fuel, c'.At outer rest ∧ maxDepth < fuel + e.depth ∧
        Parser.chain operator p c = Parser.chainFrom operator p fuel ⟨e, e.depth⟩ c') ∨
      (¬Within inner n e ∧ Parser.TooDeep (Parser.chain operator p c)) := by
  refine hderives.chain_induction hnext hlevel (motive := fun us n e => ∀ rest,
    c.At outer (us ++ rest) → next.EndsAt rest →
    (Within inner n e ∧ ∃ c' fuel, c'.At outer rest ∧ maxDepth < fuel + e.depth ∧
        Parser.chain operator p c = Parser.chainFrom operator p fuel ⟨e, e.depth⟩ c') ∨
      (¬Within inner n e ∧ Parser.TooDeep (Parser.chain operator p c))) ?_ ?_ rest hc hrest
  · intro us n e hus rest hc hrest
    rcases h.complete hc hus hrest with ⟨hwithin, c', hc', hrun⟩ | ⟨hwithin, hdeep⟩
    · have hpos := e.depth_pos
      exact .inl ⟨hwithin, c', maxDepth, hc', by omega, Parser.bind_of_ok hrun⟩
    · exact .inr ⟨hwithin, hdeep.bind⟩
  · intro us vs t n m op l r _ ih hop' hr rest hc hrest
    rw [List.append_assoc] at hc
    rcases ih _ hc (.operator hop' hnext) with ⟨hl, c₁, fuel, hc₁, hfuel, hrun⟩ | ⟨hl, hdeep⟩
    · -- a left operand within the bounds leaves fuel for one more operator
      obtain ⟨fuel, rfl⟩ : ∃ f, fuel = f + 1 := by
        have hdepth := hl.2
        exact ⟨fuel - 1, by omega⟩
      have hhere : operator c₁.here.token = some op := by
        rw [hc₁.here]
        exact hop _ _ hop'
      rw [Parser.chainFrom_of_eq_some hhere] at hrun
      rcases h.complete hc₁.next hr hrest with ⟨hr, c₂, hc₂, hright⟩ | ⟨hr, hdeep⟩
      · rw [Parser.bind_of_ok hright] at hrun
        rcases Nat.lt_or_ge (max l.depth r.depth) maxDepth with hlt | hge
        · rw [Parser.bind_of_ok (Parser.node_of_lt hlt)] at hrun
          refine .inl ⟨hl.binary hr hlt, c₂, fuel, hc₂, ?_, hrun⟩
          simp only [Expr.depth]
          omega
        · refine .inr ⟨fun hwithin => ?_, ?_⟩
          · have hdepth := hwithin.2
            simp only [Expr.depth] at hdepth
            omega
          · rw [hrun]
            exact (Parser.node_tooDeep hge).bind
      · refine .inr ⟨fun hwithin => hr hwithin.right, ?_⟩
        rw [hrun]
        exact hdeep.bind
    · exact .inr ⟨fun hwithin => hl hwithin.left, hdeep⟩

theorem chain (h : Recognises outer inner p next) (hnext : level.tighter? = some next)
    (hlevel : ∃ t op, Operator level t op)
    (hop : ∀ t op, operator t = some op ↔ Operator level t op) :
    Recognises outer inner (Parser.chain operator p) level where
  sound hc hrun := by
    obtain ⟨left, c₁, hleft, hrun⟩ := Parser.exists_of_bind_eq_ok hrun
    obtain ⟨us, rest, rfl, hc₁, n, hderives, hdepth, hwithin⟩ := h.sound hc hleft
    obtain ⟨vs, rest', rfl, hc', hyields⟩ := h.chainFrom_sound hnext (fun t op => (hop t op).1)
      maxDepth ⟨n, .tighter hnext hderives, hdepth, hwithin⟩ hc₁ hrun
    exact ⟨us ++ vs, rest', by rw [List.append_assoc], hc', hyields⟩
  complete hc hderives hrest := by
    rcases h.chain_complete hnext hlevel (fun t op => (hop t op).2) hderives hc
      (hrest.tighter hnext) with ⟨hwithin, c', fuel, hc', -, hrun⟩ | hdeep
    · refine .inl ⟨hwithin, c', hc', ?_⟩
      have hhere : operator c'.here.token = none := by
        rw [Option.eq_none_iff_forall_ne_some, hc'.here]
        exact fun op hsome => hrest (.operator ((hop _ _).1 hsome))
      rw [hrun, Parser.chainFrom_of_eq_none hhere]
    · exact .inr hdeep

end Recognises

/-! ### Tests -/

def Token.isWord (name : String) : Token → Bool
  | .word w => w == name
  | _ => false

theorem Token.isWord_iff {name : String} {t : Token} : t.isWord name = true ↔ t = .word name := by
  cases t <;> simp [isWord]

namespace Parser

variable {β : Type} {c c' : Cursor}

theorem word_bind (name : String) (f : Bool → Parser β) :
    (word name >>= f) c =
      if c.here.token.isWord name then f true c.next else f false c := by
  cases htoken : c.here.token with
  | word w =>
    by_cases hw : w = name
    · have hword : word name c = .ok true c.next := by
        rw [word, peek_bind, htoken]
        simp only [if_pos hw]
        rfl
      rw [bind_of_ok hword, if_pos (Token.isWord_iff.2 (by rw [hw]))]
    · have hword : word name c = .ok false c := by
        rw [word, peek_bind, htoken]
        simp only [if_neg hw]
        rfl
      rw [bind_of_ok hword, if_neg (by simpa [Token.isWord] using hw)]
  | _ =>
    have hword : word name c = .ok false c := by
      rw [word, peek_bind, htoken]
      rfl
    exact bind_of_ok hword

theorem testName_eq : testName c =
    if c.here.token.isWord "empty" then .ok .empty c.next
    else if c.here.token.isWord "boolean" then .ok .boolean c.next
    else if c.here.token.isWord "number" then .ok .number c.next
    else failExpected .testName c := by
  rw [testName, word_bind]
  split
  · rfl
  · refine (word_bind ..).trans ?_
    split
    · rfl
    · exact word_bind ..

theorem testName_of_eq {kind : TypeTest} (h : c.here.token = .word kind.word) :
    testName c = .ok kind c.next := by
  rw [testName_eq, h]
  cases kind <;> rfl

theorem of_testName_eq_ok {kind : TypeTest} (h : testName c = .ok kind c') :
    c.here.token = .word kind.word ∧ c' = c.next := by
  rw [testName_eq] at h
  split at h
  next hword =>
    cases h
    exact ⟨Token.isWord_iff.1 hword, rfl⟩
  next =>
    split at h
    next hword =>
      cases h
      exact ⟨Token.isWord_iff.1 hword, rfl⟩
    next =>
      split at h
      next hword =>
        cases h
        exact ⟨Token.isWord_iff.1 hword, rfl⟩
      next => cases h

theorem tested_eq {p : Parser Parsed} {x : Parsed} (h : p c = .ok x c') : tested p c =
    if c'.here.token.isWord "is" then
      if c'.next.here.token.isWord "not" then
        (testName >>= fun kind => node (.test x.tree kind true) x.depth) c'.next.next
      else (testName >>= fun kind => node (.test x.tree kind false) x.depth) c'.next
    else .ok x c' := by
  rw [tested, bind_of_ok h]
  refine (word_bind ..).trans ?_
  split
  · exact word_bind ..
  · rfl

end Parser

namespace Recognises

variable {outer inner : Nat} {p : Parser Parsed}

theorem tested_sound (h : Recognises outer inner p .sum) {c c' : Cursor} {ts : List Token}
    {x : Parsed} (hc : c.At outer ts) (hrun : Parser.tested p c = .ok x c') :
    ∃ us rest, ts = us ++ rest ∧ c'.At outer rest ∧ Yields inner .test us x := by
  obtain ⟨subject, c₁, hsubject, -⟩ := Parser.exists_of_bind_eq_ok hrun
  obtain ⟨us, rest, rfl, hc₁, n, hderives, hdepth, hnesting, _⟩ := h.sound hc hsubject
  -- a test that was read, from its words to the node over the operand
  have hnode : ∀ {vs : List Token} {kind : TypeTest} {negated : Bool} {c₂ : Cursor}
      {rest' : List Token}, Test vs kind negated → c₂.At outer rest' →
      Parser.node (.test subject.tree kind negated) subject.depth c₂ = .ok x c' →
      c'.At outer rest' ∧ Yields inner .test (us ++ vs) x := by
    intro vs kind negated c₂ rest' htest hc₂ hrun
    obtain ⟨hlt, rfl, rfl⟩ := Parser.of_node_eq_ok hrun
    rw [hdepth] at hlt
    exact ⟨hc₂, n, .test hderives htest, by rw [hdepth]; rfl, hnesting, hlt⟩
  rw [Parser.tested_eq hsubject] at hrun
  split at hrun
  next his =>
    rcases hc₁.cases with ⟨rfl, hend⟩ | ⟨rest₁, rfl, hc₂⟩
    · rw [hend] at his
      cases his
    split at hrun
    next hnot =>
      rcases hc₂.cases with ⟨rfl, hend⟩ | ⟨rest₂, rfl, hc₃⟩
      · rw [hend] at hnot
        cases hnot
      obtain ⟨kind, c₄, hname, hrun⟩ := Parser.exists_of_bind_eq_ok hrun
      obtain ⟨hkind, rfl⟩ := Parser.of_testName_eq_ok hname
      rcases hc₃.cases with ⟨rfl, hend⟩ | ⟨rest₃, rfl, hc₄⟩
      · rw [hend] at hkind
        cases hkind
      rw [Token.isWord_iff.1 his, Token.isWord_iff.1 hnot, hkind]
      obtain ⟨hc', hyields⟩ := hnode (.negated kind) hc₄ hrun
      exact ⟨_, rest₃, by simp, hc', hyields⟩
    next =>
      obtain ⟨kind, c₃, hname, hrun⟩ := Parser.exists_of_bind_eq_ok hrun
      obtain ⟨hkind, rfl⟩ := Parser.of_testName_eq_ok hname
      rcases hc₂.cases with ⟨rfl, hend⟩ | ⟨rest₂, rfl, hc₃⟩
      · rw [hend] at hkind
        cases hkind
      rw [Token.isWord_iff.1 his, hkind]
      obtain ⟨hc', hyields⟩ := hnode (.plain kind) hc₃ hrun
      exact ⟨_, rest₂, by simp, hc', hyields⟩
  next =>
    cases hrun
    exact ⟨us, rest, rfl, hc₁, n, .tighter rfl hderives, hdepth, hnesting, ‹_›⟩

theorem tested_complete (h : Recognises outer inner p .sum) {c : Cursor}
    {us rest : List Token} {n : Nat} {e : Expr} (hc : c.At outer (us ++ rest))
    (hderives : Derives .test us n e) (hrest : Level.test.EndsAt rest) :
    (Within inner n e ∧ ∃ c', c'.At outer rest ∧ Parser.tested p c = .ok ⟨e, e.depth⟩ c') ∨
      (¬Within inner n e ∧ Parser.TooDeep (Parser.tested p c)) := by
  rcases hderives.test_cases with hsum | ⟨us, vs, s, kind, negated, rfl, hsum, htest, rfl⟩
  · rcases h.complete hc hsum (hrest.tighter rfl) with ⟨hwithin, c', hc', hrun⟩ | ⟨hwithin, hdeep⟩
    · refine .inl ⟨hwithin, c', hc', ?_⟩
      rw [Parser.tested_eq hrun, if_neg]
      rw [hc'.here, Token.isWord_iff]
      intro his
      exact hrest (his ▸ .test)
    · exact .inr ⟨hwithin, hdeep.bind⟩
  · rw [List.append_assoc] at hc
    rcases h.complete hc hsum (.test htest) with ⟨hwithin, c₁, hc₁, hrun⟩ | ⟨hwithin, hdeep⟩
    · have hnode : ∃ c₂, c₂.At outer rest ∧
          Parser.tested p c = Parser.node (.test s kind negated) s.depth c₂ := by
        rw [Parser.tested_eq hrun]
        cases htest with
        | plain kind =>
          have hname : Parser.testName c₁.next = .ok kind c₁.next.next :=
            Parser.testName_of_eq hc₁.next.here
          refine ⟨_, hc₁.next.next, ?_⟩
          rw [if_pos (by rw [hc₁.here]; rfl), if_neg, Parser.bind_of_ok hname]
          rw [hc₁.next.here, Token.isWord_iff]
          exact fun hnot => kind.word_ne_not (Token.word.inj hnot)
        | negated kind =>
          have hname : Parser.testName c₁.next.next = .ok kind c₁.next.next.next :=
            Parser.testName_of_eq hc₁.next.next.here
          refine ⟨_, hc₁.next.next.next, ?_⟩
          rw [if_pos (by rw [hc₁.here]; rfl), if_pos (by rw [hc₁.next.here]; rfl),
            Parser.bind_of_ok hname]
      obtain ⟨c₂, hc₂, hrun⟩ := hnode
      rw [hrun]
      rcases Nat.lt_or_ge s.depth maxDepth with hlt | hge
      · exact .inl ⟨⟨hwithin.1, hlt⟩, c₂, hc₂, Parser.node_of_lt hlt⟩
      · exact .inr ⟨fun hwithin => absurd hwithin.2 (Nat.not_le.2 (Nat.lt_succ_of_le hge)),
          Parser.node_tooDeep hge⟩
    · exact .inr ⟨fun hw => hwithin ⟨hw.1, Nat.le_of_succ_le hw.2⟩, hdeep.bind⟩

theorem tested (h : Recognises outer inner p .sum) :
    Recognises outer inner (Parser.tested p) .test :=
  ⟨h.tested_sound, h.tested_complete⟩

end Recognises

/-! ### All levels -/

/-- The operators that the parser takes at each level. -/
def Level.operator? : Level → Token → Option BinaryOp
  | disjunction => Parser.disjunction?
  | conjunction => Parser.conjunction?
  | equality => Parser.equality?
  | relation => Parser.relation?
  | sum => Parser.sum?
  | product => Parser.product?
  | _ => fun _ => none

theorem Level.operator?_eq_some_iff (level : Level) (t : Token) (op : BinaryOp) :
    level.operator? t = some op ↔ Operator level t op := by
  constructor
  · intro h
    cases level <;> cases t <;> cases h <;> constructor
  · intro h
    cases h <;> rfl

theorem Recognises.levels {outer inner : Nat} {p : Parser Parsed}
    (h : Recognises outer inner p .unary) :
    Recognises outer inner (Parser.levels p) .disjunction := by
  have hproduct := h.chain rfl ⟨_, _, .star⟩ Level.product.operator?_eq_some_iff
  have hsum := hproduct.chain rfl ⟨_, _, .plus⟩ Level.sum.operator?_eq_some_iff
  have hrelation := hsum.tested.chain rfl ⟨_, _, .less⟩ Level.relation.operator?_eq_some_iff
  have hequality := hrelation.chain rfl ⟨_, _, .equal⟩ Level.equality.operator?_eq_some_iff
  have hconjunction := hequality.chain rfl ⟨_, _, .and⟩ Level.conjunction.operator?_eq_some_iff
  exact hconjunction.chain rfl ⟨_, _, .or⟩ Level.disjunction.operator?_eq_some_iff

/-! ### Operands -/

/-- A rule applied one level deeper counts its tokens from there on; if there is no deeper
level, every expression is out of bounds. -/
theorem Recognises.nested {nesting : Nat} {p : Parser Parsed} {level : Level}
    (h : nesting < maxNesting → Recognises (nesting + 1) (nesting + 1) p level) :
    Recognises nesting (nesting + 1) (Parser.nested p) level where
  sound {c c' ts x} hc hrun := by
    rw [Parser.nested] at hrun
    split at hrun
    next hlt =>
      rw [hc.nesting] at hlt
      rcases hp : p ⟨c.rest, c.nesting + 1⟩ with ⟨y, c₁⟩ | ⟨error, c₁⟩
      · rw [hp] at hrun
        cases hrun
        obtain ⟨us, rest, rfl, hc₁, hyields⟩ := (h hlt).sound hc.deeper hp
        exact ⟨us, rest, rfl, hc₁.shallower, hyields⟩
      · rw [hp] at hrun
        cases hrun
    next =>
      obtain ⟨_, _, _, herror⟩ :=
        Parser.failTooDeep_tooDeep (α := Parsed) (c := c) maxNesting
      rw [herror] at hrun
      cases hrun
  complete {c us rest n e} hc hderives hrest := by
    rw [Parser.nested]
    split
    next hlt =>
      rw [hc.nesting] at hlt
      rcases (h hlt).complete hc.deeper hderives hrest with
        ⟨hwithin, c', hc', hrun⟩ | ⟨hwithin, limit, column, c', hrun⟩
      · rw [hrun]
        exact .inl ⟨hwithin, _, hc'.shallower, rfl⟩
      · rw [hrun]
        exact .inr ⟨hwithin, limit, column, _, rfl⟩
    next hge =>
      rw [hc.nesting] at hge
      refine .inr ⟨fun hwithin => ?_, Parser.failTooDeep_tooDeep maxNesting⟩
      have hnesting := hwithin.1
      omega

theorem unaryOp?_eq_some_iff (t : Token) (op : UnaryOp) :
    Parser.unaryOp? t = some op ↔ Prefix t op := by
  constructor
  · intro h
    cases t <;> cases h <;> constructor
  · intro h
    cases h <;> rfl

theorem leaf?_eq_some_iff (t : Token) (e : Expr) : Parser.leaf? t = some e ↔ Leaf t e := by
  constructor
  · intro h
    cases t <;> cases h <;> constructor
  · intro h
    cases h <;> rfl

namespace Parser

variable {c : Cursor} {steps : Nat}

theorem operand_of_unaryOp {op : UnaryOp} (h : unaryOp? c.here.token = some op) :
    operand (steps + 1) c =
      (nested (operand steps) >>= fun inner => node (.unary op inner.tree) inner.depth) c.next := by
  rw [operand, peek_bind, h]
  rfl

theorem operand_of_leaf {leaf : Expr} (hop : unaryOp? c.here.token = none)
    (h : leaf? c.here.token = some leaf) : operand (steps + 1) c = .ok ⟨leaf, 1⟩ c.next := by
  rw [operand, peek_bind, hop]
  simp only [h]
  rfl

/-- The closing parenthesis after an operand in parentheses. -/
def close (inner : Parsed) : Parser Parsed := do
  match ← peek with
  | .rightParen => do
    advance
    return inner
  | _ => failExpected .closingParen

theorem close_of_eq {inner : Parsed} (h : c.here.token = .rightParen) :
    close inner c = .ok inner c.next := by
  rw [close, peek_bind, h]
  rfl

theorem of_close_eq_ok {inner x : Parsed} {c' : Cursor} (h : close inner c = .ok x c') :
    c.here.token = .rightParen ∧ x = inner ∧ c' = c.next := by
  rw [close, peek_bind] at h
  cases htoken : c.here.token <;> rw [htoken] at h <;> cases h
  exact ⟨rfl, rfl, rfl⟩

theorem operand_of_leftParen (h : c.here.token = .leftParen) :
    operand (steps + 1) c = (nested (levels (operand steps)) >>= close) c.next := by
  rw [operand, peek_bind, h]
  rfl

theorem operand_of_other (hop : unaryOp? c.here.token = none) (hleaf : leaf? c.here.token = none)
    (h : c.here.token ≠ .leftParen) :
    operand (steps + 1) c = failExpected .operand c := by
  rw [operand, peek_bind]
  cases htoken : c.here.token with
  | leftParen => exact absurd htoken h
  | integer | float | string | boolean | null | word => simp [htoken, leaf?] at hleaf
  | minus | bang => simp [htoken, unaryOp?] at hop
  | _ => rfl

end Parser

theorem Leaf.depth_eq {t : Token} {e : Expr} (h : Leaf t e) : e.depth = 1 := by
  cases h <;> rfl

theorem Leaf.within {t : Token} {e : Expr} (h : Leaf t e) {nesting : Nat}
    (hnesting : nesting ≤ maxNesting) : Within nesting 0 e :=
  ⟨hnesting, by rw [h.depth_eq]; decide⟩

namespace Recognises

variable {nesting steps : Nat} (hnesting : nesting ≤ maxNesting)
  (hinner : nesting < maxNesting →
    Recognises (nesting + 1) (nesting + 1) (Parser.operand steps) .unary)

include hnesting hinner

theorem operand_sound {c c' : Cursor} {ts : List Token} {x : Parsed} (hc : c.At nesting ts)
    (hrun : Parser.operand (steps + 1) c = .ok x c') :
    ∃ us rest, ts = us ++ rest ∧ c'.At nesting rest ∧ Yields nesting .unary us x := by
  rcases hc.cases with ⟨rfl, hend⟩ | ⟨ts, rfl, hnext⟩
  · have hfail : Parser.operand (steps + 1) c = Parser.failExpected .operand c :=
      Parser.operand_of_other (by rw [hend]; rfl) (by rw [hend]; rfl) (by rw [hend]; simp)
    rw [hfail] at hrun
    cases hrun
  cases hop : Parser.unaryOp? c.here.token with
  | some op =>
    rw [Parser.operand_of_unaryOp hop] at hrun
    obtain ⟨operand, c₁, hoperand, hnode⟩ := Parser.exists_of_bind_eq_ok hrun
    obtain ⟨us, rest, rfl, hc₁, n, hderives, hdepth, hn, _⟩ :=
      (nested hinner).sound hnext hoperand
    obtain ⟨hlt, rfl, rfl⟩ := Parser.of_node_eq_ok hnode
    rw [hdepth] at hlt
    have hop := (unaryOp?_eq_some_iff _ _).1 hop
    exact ⟨_ :: us, rest, rfl, hc₁, n + 1, .unary hop hderives, by rw [hdepth]; rfl, by omega, hlt⟩
  | none =>
    cases hleaf : Parser.leaf? c.here.token with
    | some leaf =>
      rw [Parser.operand_of_leaf hop hleaf] at hrun
      cases hrun
      have hleaf := (leaf?_eq_some_iff _ _).1 hleaf
      exact ⟨[_], ts, rfl, hnext, 0, .tighter rfl (.leaf hleaf), hleaf.depth_eq.symm,
        hleaf.within hnesting⟩
    | none =>
      by_cases hparen : c.here.token = .leftParen
      · rw [Parser.operand_of_leftParen hparen] at hrun
        obtain ⟨operand, c₁, hoperand, hclose⟩ := Parser.exists_of_bind_eq_ok hrun
        obtain ⟨us, rest, rfl, hc₁, n, hderives, hdepth, hn, hwithin⟩ :=
          (nested fun h => (hinner h).levels).sound hnext hoperand
        obtain ⟨hright, rfl, rfl⟩ := Parser.of_close_eq_ok hclose
        rcases hc₁.cases with ⟨rfl, hend⟩ | ⟨rest, rfl, hc'⟩
        · rw [hend] at hright
          cases hright
        rw [hparen, hright]
        exact ⟨.leftParen :: (us ++ [.rightParen]), rest, by simp, hc', n + 1,
          .tighter rfl (.parens hderives), hdepth, by omega, hwithin⟩
      · rw [Parser.operand_of_other hop hleaf hparen] at hrun
        cases hrun

theorem operand_complete {c : Cursor} {us rest : List Token} {n : Nat} {e : Expr}
    (hc : c.At nesting (us ++ rest)) (hderives : Derives .unary us n e)
    (hrest : Level.unary.EndsAt rest) :
    (Within nesting n e ∧ ∃ c', c'.At nesting rest ∧
        Parser.operand (steps + 1) c = .ok ⟨e, e.depth⟩ c') ∨
      (¬Within nesting n e ∧ Parser.TooDeep (Parser.operand (steps + 1) c)) := by
  rcases hderives.unary_cases with hprimary | ⟨t, us, m, op, s, rfl, rfl, hop, hs, rfl⟩
  · rcases hprimary.primary_cases with ⟨t, rfl, rfl, hleaf⟩ | ⟨us, m, rfl, rfl, hus⟩
    · have hhere : Parser.leaf? c.here.token = some e := by
        rw [hc.here]
        exact (leaf?_eq_some_iff _ _).2 hleaf
      have hop : Parser.unaryOp? c.here.token = none := by
        rw [hc.here]
        cases hleaf <;> rfl
      refine .inl ⟨hleaf.within hnesting, c.next, hc.next, ?_⟩
      rw [Parser.operand_of_leaf hop hhere, hleaf.depth_eq]
    · rw [List.cons_append, List.append_assoc] at hc
      rw [Parser.operand_of_leftParen hc.here]
      rcases (nested fun h => (hinner h).levels).complete hc.next hus .rightParen with
        ⟨hwithin, c₁, hc₁, hrun⟩ | ⟨hwithin, hdeep⟩
      · rw [Parser.bind_of_ok hrun]
        exact .inl ⟨⟨by have := hwithin.1; omega, hwithin.2⟩, c₁.next, hc₁.next,
          Parser.close_of_eq hc₁.here⟩
      · exact .inr ⟨fun hw => hwithin ⟨by have := hw.1; omega, hw.2⟩, hdeep.bind⟩
  · have hhere : Parser.unaryOp? c.here.token = some op := by
      rw [hc.here]
      exact (unaryOp?_eq_some_iff _ _).2 hop
    rw [Parser.operand_of_unaryOp hhere]
    rcases (nested hinner).complete hc.next hs hrest with
      ⟨hwithin, c₁, hc₁, hrun⟩ | ⟨hwithin, hdeep⟩
    · rw [Parser.bind_of_ok hrun]
      have hn := hwithin.1
      rcases Nat.lt_or_ge s.depth maxDepth with hlt | hge
      · exact .inl ⟨⟨by omega, hlt⟩, c₁, hc₁, Parser.node_of_lt hlt⟩
      · exact .inr ⟨fun hw => absurd hw.2 (Nat.not_le.2 (Nat.lt_succ_of_le hge)),
          Parser.node_tooDeep hge⟩
    · exact .inr ⟨fun hw => hwithin ⟨by have := hw.1; omega, Nat.le_of_succ_le hw.2⟩, hdeep.bind⟩

end Recognises

/-- An operand is recognised at every nesting, when as many steps are left as levels. -/
theorem recognises_operand (steps nesting : Nat) (h : nesting + steps = maxNesting) :
    Recognises nesting nesting (Parser.operand (steps + 1)) .unary := by
  induction steps generalizing nesting with
  | zero =>
    have hinner : nesting < maxNesting →
        Recognises (nesting + 1) (nesting + 1) (Parser.operand 0) .unary := by omega
    exact ⟨Recognises.operand_sound (by omega) hinner,
      Recognises.operand_complete (by omega) hinner⟩
  | succ steps ih =>
    have hinner : nesting < maxNesting →
        Recognises (nesting + 1) (nesting + 1) (Parser.operand (steps + 1)) .unary :=
      fun _ => ih (nesting + 1) (by omega)
    exact ⟨Recognises.operand_sound (by omega) hinner,
      Recognises.operand_complete (by omega) hinner⟩

end Covenant.Expr
