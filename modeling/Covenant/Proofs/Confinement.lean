import Covenant.Proofs.Lexing
import Covenant.Proofs.Lookahead

/-! The parser stays inside its tokens. All that a run does to its cursor is a sequence of moves:
it stays in place, reads a token, or opens or closes a level. A move that starts at a token of the
text, with no more levels open than may be, ends so; then a run that starts so never comes to
anything else, whether it ends with a result or with an error, and it closes what it has opened.
A procedure that returns an expression has read a token of it, so the loops of the grammar go on
with fewer tokens each time, and the bounds on their passes are never what ends them. -/

namespace Covenant.Expr

/-- The tokens of a text: the last is an end, and no other is. -/
def Terminated (tokens : List Located) : Prop :=
  ∃ ts offset, tokens = ts ++ [⟨.eof, offset⟩] ∧ ∀ t ∈ ts, t.token ≠ .eof

theorem terminated_of_tokenize {text : String} {tokens : List Located}
    (h : tokenize text = .ok tokens) : Terminated tokens := by
  obtain ⟨ts, hlexes, rfl⟩ := exists_lexes_of_tokenize h
  exact ⟨ts, _, rfl, hlexes.ne_eof⟩

/-- The depth that goes with a tree is its own, and no more than may be. -/
def Parsed.Measured (x : Parsed) : Prop := x.depth = x.tree.depth ∧ x.depth ≤ 256

namespace Cursor

/-- With one level more. -/
def deeper (c : Cursor) : Cursor := { c with nesting := c.nesting + 1 }

/-- With one level less. -/
def shallower (c : Cursor) : Cursor := { c with nesting := c.nesting - 1 }

/-- The cursor is at one of the tokens, and no more levels are open than may be. -/
structure Inside (c : Cursor) (tokens : List Located) : Prop where
  place : ∃ i, tokens[i]? = some c.here ∧ c.rest = tokens.drop i
  nesting : c.nesting ≤ 64

/-- What a parser does to its cursor at once. -/
inductive Move : Cursor → Cursor → Prop
  | stay (c : Cursor) : Move c c
  | read (c : Cursor) : Move c c.next
  | opening {c : Cursor} (h : c.nesting < maxNesting) : Move c c.deeper
  | closing {c : Cursor} (h : 0 < c.nesting) : Move c c.shallower

/-- Moves from one cursor to another, by all the cursors in turn. -/
inductive Path : Cursor → Cursor → List Cursor → Prop
  | single (c : Cursor) : Path c c [c]
  | step {c d e : Cursor} {trail : List Cursor} (h : Move c d) (hrest : Path d e trail) :
    Path c e (c :: trail)

variable {c d e : Cursor} {tokens : List Located} {trail trail' : List Cursor}

theorem inside_start (h : Terminated tokens) : (⟨tokens, 0⟩ : Cursor).Inside tokens := by
  obtain ⟨ts, offset, rfl, -⟩ := h
  refine ⟨⟨0, ?_, rfl⟩, Nat.zero_le _⟩
  cases ts <;> rfl

theorem nesting_next (c : Cursor) : c.next.nesting = c.nesting := by
  unfold next
  split <;> rfl

theorem length_next_le (c : Cursor) : c.next.rest.length ≤ c.rest.length := by
  unfold next
  split
  next hrest => simp [hrest]
  next => exact Nat.le_refl _

/-- The next place is the one after, or the same if that is the last. -/
theorem next_of_place {i : Nat} (hhere : tokens[i]? = some c.here)
    (hrest : c.rest = tokens.drop i) :
    tokens[min (i + 1) (tokens.length - 1)]? = some c.next.here ∧
      c.next.rest = tokens.drop (min (i + 1) (tokens.length - 1)) := by
  obtain ⟨hi, -⟩ := List.getElem?_eq_some_iff.1 hhere
  rcases Nat.lt_or_ge (i + 1) tokens.length with hlt | hge
  · have hcons : c.rest = tokens[i] :: tokens[i + 1] :: tokens.drop (i + 2) := by
      rw [hrest, List.drop_eq_getElem_cons hi, List.drop_eq_getElem_cons hlt]
    have hnext : c.next = ⟨tokens[i + 1] :: tokens.drop (i + 2), c.nesting⟩ := by rw [next, hcons]
    rw [Nat.min_eq_left (by omega), hnext, List.getElem?_eq_getElem hlt]
    exact ⟨rfl, (List.drop_eq_getElem_cons hlt).symm⟩
  · have hsingle : c.rest = [tokens[i]] := by
      rw [hrest, List.drop_eq_getElem_cons hi, List.drop_of_length_le hge]
    have hnext : c.next = c := by rw [next, hsingle]
    have hlast : i = tokens.length - 1 := by omega
    rw [Nat.min_eq_right (by omega), ← hlast, hnext]
    exact ⟨hhere, hrest⟩

namespace Inside

theorem next (h : c.Inside tokens) : c.next.Inside tokens := by
  obtain ⟨i, hhere, hrest⟩ := h.place
  refine ⟨⟨_, next_of_place hhere hrest⟩, ?_⟩
  rw [c.nesting_next]
  exact h.nesting

theorem deeper (h : c.Inside tokens) (hlt : c.nesting < maxNesting) : c.deeper.Inside tokens :=
  ⟨h.place, hlt⟩

theorem shallower (h : c.Inside tokens) : c.shallower.Inside tokens :=
  ⟨h.place, Nat.le_trans (Nat.sub_le _ _) h.nesting⟩

theorem ends (h : c.Inside tokens) (htokens : Terminated tokens) : c.Ends := by
  obtain ⟨i, hhere, hrest⟩ := h.place
  obtain ⟨ts, offset, rfl, -⟩ := htokens
  obtain ⟨hi, -⟩ := List.getElem?_eq_some_iff.1 hhere
  rw [List.length_append, List.length_singleton] at hi
  refine ⟨⟨.eof, offset⟩, ?_, rfl⟩
  rw [hrest, List.drop_append_of_le_length (Nat.le_of_lt_succ hi)]
  exact List.mem_append_right _ (List.mem_singleton_self _)

/-- A token that is read is no more ahead. -/
theorem length_next (h : c.Inside tokens) (htokens : Terminated tokens)
    (hne : c.here.token ≠ .eof) : c.next.rest.length < c.rest.length := by
  rw [((h.ends htokens).next hne).1]
  exact Nat.lt_succ_self _

end Inside

/-- No move leaves the tokens. -/
theorem Move.inside (h : Move c d) (hc : c.Inside tokens) : d.Inside tokens := by
  cases h with
  | stay => exact hc
  | read => exact hc.next
  | opening hlt => exact hc.deeper hlt
  | closing => exact hc.shallower

namespace Path

theorem append (h : Path c d trail) (h' : Path d e trail') : Path c e (trail ++ trail') := by
  induction h with
  | single c => exact .step (.stay c) h'
  | step hmove _ ih => exact .step hmove (ih h')

/-- A path one level deeper, between the moves that open and close the level. -/
theorem level (h : Path c.deeper d trail) (hlt : c.nesting < maxNesting) (hd : 0 < d.nesting) :
    Path c d.shallower (c :: (trail ++ [d.shallower])) := by
  have hclosing : Path d d.shallower [d, d.shallower] := .step (.closing hd) (.single _)
  refine .step (.opening hlt) ?_
  generalize c.deeper = start at h
  induction h with
  | single d => exact hclosing
  | step hmove _ ih => exact .step hmove (ih hd hclosing)

/-- No path leaves the tokens. -/
theorem inside (h : Path c d trail) (hc : c.Inside tokens) : ∀ x ∈ trail, x.Inside tokens := by
  induction h with
  | single c => exact List.forall_mem_singleton.2 hc
  | step hmove _ ih => exact List.forall_mem_cons.2 ⟨hc, ih (hmove.inside hc)⟩

end Path

end Cursor

namespace Parser

open Cursor (Path)

variable {α β : Type} {p x : Parser α} {f : α → Parser β} {c : Cursor} {trail : List Cursor}

/-! ### Runs as walks -/

/-- Where a run ends, with a result or with an error. -/
def after (p : Parser α) (c : Cursor) : Cursor :=
  match p c with
  | .ok _ c' | .error _ c' => c'

/-- The cursors that a run from `c` on goes through. The run returns, looks or fails in place,
reads a token, or is made of other runs: one after another, or one with a level open. -/
inductive Visits : {α : Type} → Parser α → Cursor → List Cursor → Prop
  | pure {α : Type} (a : α) (c : Cursor) : Visits (pure a) c [c]
  | look (c : Cursor) : Visits get c [c]
  | fail {α : Type} (e : ParseError) (c : Cursor) : Visits (throw e : Parser α) c [c]
  | advance (c : Cursor) : Visits advance c [c, c.next]
  | bind {α β : Type} {x : Parser α} {f : α → Parser β} {c c' : Cursor} {a : α}
    {trail trail' : List Cursor} (hx : x c = .ok a c') (h : Visits x c trail)
    (h' : Visits (f a) c' trail') : Visits (x >>= f) c (trail ++ trail')
  | stop {α β : Type} {x : Parser α} {f : α → Parser β} {c c' : Cursor} {e : ParseError}
    {trail : List Cursor} (hx : x c = .error e c') (h : Visits x c trail) : Visits (x >>= f) c trail
  | nested {α : Type} {p : Parser α} {c : Cursor} {trail : List Cursor}
    (hlt : c.nesting < maxNesting) (h : Visits p c.deeper trail) :
    Visits (nested p) c (c :: (trail ++ [(p.after c.deeper).shallower]))
  | refused {α : Type} {p : Parser α} {c : Cursor} (hge : maxNesting ≤ c.nesting) :
    Visits (Parser.nested p) c [c]

theorem nested_of_lt (p : Parser α) (hlt : c.nesting < maxNesting) :
    nested p c = match p c.deeper with
      | .ok a d => .ok a d.shallower
      | .error e d => .error e d.shallower := by
  rw [nested, if_pos hlt]
  rfl

theorem after_nested_of_lt (p : Parser α) (hlt : c.nesting < maxNesting) :
    (nested p).after c = (p.after c.deeper).shallower := by
  unfold after
  rw [nested_of_lt p hlt]
  rcases p c.deeper with _ | _ <;> rfl

theorem after_nested_of_ge (p : Parser α) (hge : maxNesting ≤ c.nesting) :
    (nested p).after c = c := by
  unfold after
  rw [nested, if_neg (Nat.not_lt.2 hge)]
  rfl

/-- What a run goes through is a path to where it ends, and there are as many levels open at the
end of it as at its start. -/
theorem Visits.path (h : Visits p c trail) :
    Path c (p.after c) trail ∧ (p.after c).nesting = c.nesting := by
  induction h with
  | pure | look | fail => exact ⟨.single _, rfl⟩
  | advance c => exact ⟨.step (.read c) (.single _), c.nesting_next⟩
  | @bind _ _ x f c c' a _ _ hx _ _ ih ih' =>
    -- the second run starts where the first one ends
    have hmiddle : x.after c = c' := by rw [after, hx]
    have hend : (x >>= f).after c = (f a).after c' := by rw [after, bind_of_ok hx]; rfl
    rw [hmiddle] at ih
    rw [hend]
    exact ⟨ih.1.append ih'.1, ih'.2.trans ih.2⟩
  | @stop _ _ x f c c' e _ hx _ ih =>
    have hend : (x >>= f).after c = x.after c := by rw [after, bind_of_error hx, after, hx]
    rw [hend]
    exact ih
  | @nested _ p c _ hlt _ ih =>
    have hopen : (p.after c.deeper).nesting = c.nesting + 1 := ih.2
    rw [after_nested_of_lt p hlt]
    refine ⟨ih.1.level hlt (by omega), ?_⟩
    change (p.after c.deeper).nesting - 1 = c.nesting
    omega
  | @refused _ p c hge =>
    rw [after_nested_of_ge p hge]
    exact ⟨.single c, rfl⟩

/-- Every run of the parser is made of such runs. -/
def Stepwise (p : Parser α) : Prop := ∀ c, ∃ trail, Visits p c trail

theorem Stepwise.bind (hx : Stepwise x) (hf : ∀ a, Stepwise (f a)) : Stepwise (x >>= f) := by
  intro c
  obtain ⟨trail, h⟩ := hx c
  cases hrun : x c with
  | ok a c' =>
    obtain ⟨trail', h'⟩ := hf a c'
    exact ⟨_, .bind hrun h h'⟩
  | error e c' => exact ⟨trail, .stop hrun h⟩

theorem Stepwise.nested (hp : Stepwise p) : Stepwise (nested p) := by
  intro c
  rcases Nat.lt_or_ge c.nesting maxNesting with hlt | hge
  · obtain ⟨trail, h⟩ := hp c.deeper
    exact ⟨_, .nested hlt h⟩
  · exact ⟨_, .refused hge⟩

theorem stepwise_pure (a : α) : Stepwise (pure a) := fun c => ⟨_, .pure a c⟩

theorem stepwise_get : Stepwise (get : Parser Cursor) := fun c => ⟨_, .look c⟩

theorem stepwise_advance : Stepwise advance := fun c => ⟨_, .advance c⟩

theorem stepwise_peek : Stepwise peek := stepwise_get.bind fun _ => stepwise_pure _

theorem stepwise_failExpected (expected : Expected) :
    Stepwise (failExpected (α := α) expected) :=
  stepwise_get.bind fun _ c => ⟨_, .fail _ c⟩

theorem stepwise_failTooDeep (limit : Nat) : Stepwise (failTooDeep (α := α) limit) :=
  stepwise_get.bind fun _ c => ⟨_, .fail _ c⟩

theorem stepwise_node (tree : Expr) (below : Nat) : Stepwise (node tree below) := by
  unfold node
  split
  · exact stepwise_pure _
  · exact stepwise_failTooDeep _

theorem stepwise_word (name : String) : Stepwise (word name) := by
  refine stepwise_peek.bind fun t => ?_
  split
  · split
    · exact stepwise_advance.bind fun _ => stepwise_pure true
    · exact stepwise_pure false
  · exact stepwise_pure false

theorem stepwise_chainFrom (operator : Token → Option BinaryOp) {p : Parser Parsed}
    (hp : Stepwise p) (fuel : Nat) (left : Parsed) :
    Stepwise (chainFrom operator p fuel left) := by
  induction fuel generalizing left with
  | zero => exact stepwise_pure left
  | succ fuel ih =>
    rw [chainFrom]
    refine stepwise_peek.bind fun t => ?_
    split
    · exact stepwise_pure left
    · refine stepwise_advance.bind fun _ => hp.bind fun right => ?_
      exact (stepwise_node _ _).bind ih

theorem stepwise_testName : Stepwise testName := by
  refine (stepwise_word "empty").bind fun empty => ?_
  split
  · exact stepwise_pure _
  refine (stepwise_word "boolean").bind fun boolean => ?_
  split
  · exact stepwise_pure _
  refine (stepwise_word "number").bind fun number => ?_
  split
  · exact stepwise_pure _
  · exact stepwise_failExpected _

theorem stepwise_chain (operator : Token → Option BinaryOp) {p : Parser Parsed}
    (hp : Stepwise p) : Stepwise (chain operator p) :=
  hp.bind (stepwise_chainFrom operator hp maxDepth)

theorem stepwise_tested {p : Parser Parsed} (hp : Stepwise p) : Stepwise (tested p) := by
  refine hp.bind fun subject => (stepwise_word "is").bind fun test => ?_
  split
  · refine (stepwise_word "not").bind fun negated => stepwise_testName.bind fun kind => ?_
    exact stepwise_node _ _
  · exact stepwise_pure subject

theorem stepwise_levels {p : Parser Parsed} (hp : Stepwise p) : Stepwise (levels p) :=
  stepwise_chain _ (stepwise_chain _ (stepwise_chain _ (stepwise_chain _ (stepwise_tested
    (stepwise_chain _ (stepwise_chain _ hp))))))

theorem stepwise_operand (steps : Nat) : Stepwise (operand steps) := by
  induction steps with
  | zero => exact stepwise_failTooDeep _
  | succ steps ih =>
    rw [operand]
    refine stepwise_peek.bind fun t => ?_
    split
    · exact stepwise_advance.bind fun _ => ih.nested.bind fun inner => stepwise_node _ _
    split
    · exact stepwise_advance.bind fun _ => stepwise_pure _
    split
    · refine stepwise_advance.bind fun _ => (stepwise_levels ih).nested.bind fun inner => ?_
      refine stepwise_peek.bind fun t => ?_
      split
      · exact stepwise_advance.bind fun _ => stepwise_pure inner
      · exact stepwise_failExpected _
    · exact stepwise_failExpected _

theorem stepwise_expression : Stepwise expression := stepwise_levels (stepwise_operand _)

theorem stepwise_statement : Stepwise statement := by
  refine stepwise_get.bind fun c => stepwise_get.bind fun c' => ?_
  split
  · refine stepwise_advance.bind fun _ => stepwise_advance.bind fun _ => ?_
    exact stepwise_expression.bind fun _ => stepwise_pure _
  · exact stepwise_expression.bind fun _ => stepwise_pure _

theorem stepwise_statementsFrom (steps : Nat) (read : List Statement) :
    Stepwise (statementsFrom steps read) := by
  induction steps generalizing read with
  | zero => exact stepwise_pure _
  | succ steps ih =>
    rw [statementsFrom]
    refine stepwise_peek.bind fun t => ?_
    split
    · exact stepwise_advance.bind fun _ => ih read
    · exact stepwise_pure _
    · refine stepwise_statement.bind fun s => stepwise_peek.bind fun t => ?_
      split
      · exact stepwise_advance.bind fun _ => ih (s :: read)
      · exact stepwise_pure _

theorem stepwise_finish : Stepwise finish := by
  refine stepwise_peek.bind fun t => ?_
  split
  · exact stepwise_pure ()
  · exact stepwise_failExpected _

/-! ### The procedures of the grammar -/

/-- The procedures that return an expression, for every level of the grammar. -/
inductive Rule : Parser Parsed → Prop
  | operand (steps : Nat) : Rule (operand steps)
  | chain (level : Level) {p : Parser Parsed} (h : Rule p) : Rule (chain level.operator? p)
  | tested {p : Parser Parsed} (h : Rule p) : Rule (tested p)
  | nested {p : Parser Parsed} (h : Rule p) : Rule (nested p)

theorem Rule.levels {p : Parser Parsed} (h : Rule p) : Rule (levels p) := by
  have hsum : Rule (Parser.chain sum? (Parser.chain product? p)) := .chain .sum (.chain .product h)
  have hrelation : Rule _ := .chain .relation (.tested hsum)
  exact .chain .disjunction (.chain .conjunction (.chain .equality hrelation))

theorem rule_expression : Rule expression := (Rule.operand _).levels

/-- Those, their loops, and the procedures that return something else. -/
inductive Procedure : {α : Type} → Parser α → Prop
  | rule {p : Parser Parsed} (h : Rule p) : Procedure p
  | operators (level : Level) {p : Parser Parsed} (h : Rule p) (fuel : Nat) (left : Parsed) :
    Procedure (chainFrom level.operator? p fuel left)
  | word (name : String) : Procedure (word name)
  | testName : Procedure testName
  | statement : Procedure statement
  | statements (steps : Nat) (read : List Statement) : Procedure (statementsFrom steps read)
  | finish : Procedure finish
  | wholeExpression : Procedure wholeExpression
  | wholeProgram : Procedure wholeProgram

theorem Rule.stepwise {p : Parser Parsed} (h : Rule p) : Stepwise p := by
  induction h with
  | operand steps => exact stepwise_operand steps
  | chain level _ ih => exact stepwise_chain _ ih
  | tested _ ih => exact stepwise_tested ih
  | nested _ ih => exact ih.nested

theorem Procedure.stepwise (h : Procedure p) : Stepwise p := by
  cases h with
  | rule h => exact h.stepwise
  | operators level h fuel left => exact stepwise_chainFrom _ h.stepwise fuel left
  | word name => exact stepwise_word name
  | testName => exact stepwise_testName
  | statement => exact stepwise_statement
  | statements steps read => exact stepwise_statementsFrom steps read
  | finish => exact stepwise_finish
  | wholeExpression =>
    exact stepwise_expression.bind fun _ => stepwise_finish.bind fun _ => stepwise_pure _
  | wholeProgram =>
    refine stepwise_get.bind fun c => (stepwise_statementsFrom _ []).bind fun statements => ?_
    exact stepwise_finish.bind fun _ => stepwise_pure statements

/-! ### What is read -/

/-- Inside the tokens an expression is read from at least one of them. -/
def Reads (tokens : List Located) (p : Parser Parsed) : Prop :=
  ∀ ⦃c c' : Cursor⦄ ⦃x : Parsed⦄, c.Inside tokens → p c = .ok x c' →
    c'.Inside tokens ∧ c'.rest.length < c.rest.length ∧ x.Measured

/-- One pass of a loop, whatever passes it has left: the loop ends, or it goes on with fewer tokens
ahead. -/
inductive Pass {σ : Type} (loop : Nat → σ → Parser α) (done : α → Cursor → Prop)
    (next : σ → Cursor → Prop) (s : σ) (c : Cursor) : Prop
  | ends (r : EStateM.Result ParseError Cursor α) (h : ∀ fuel, loop (fuel + 1) s c = r)
    (hdone : ∀ a c', r = .ok a c' → done a c')
  | goesOn (s' : σ) (c' : Cursor) (h : ∀ fuel, loop (fuel + 1) s c = loop fuel s' c')
    (hread : c'.rest.length < c.rest.length) (hnext : next s' c')

section
variable {σ : Type} {loop : Nat → σ → Parser α} {s : σ}

/-- A pass with less said about what comes of it. -/
theorem Pass.imp {done : α → Cursor → Prop} {next next' : σ → Cursor → Prop}
    (h : Pass loop done next s c)
    (himp : ∀ s' c', c'.rest.length < c.rest.length → next s' c' → next' s' c') :
    Pass loop (fun _ _ => True) next' s c := by
  cases h with
  | ends r hr _ => exact .ends r hr fun _ _ _ => trivial
  | goesOn s' c' hloop hread hnext => exact .goesOn s' c' hloop hread (himp s' c' hread hnext)

/-- Passes that lessen a variant are no more than the variant at the start. -/
theorem loop_succ_of_pass (holds : σ → Cursor → Prop) (variant : σ → Cursor → Nat)
    (hpos : ∀ s c, holds s c → 0 < variant s c)
    (hpass : ∀ s c, holds s c →
      Pass loop (fun _ _ => True) (fun s' c' => holds s' c' ∧ variant s' c' < variant s c) s c)
    {fuel : Nat} (h : holds s c) (hfuel : variant s c ≤ fuel) :
    loop (fuel + 1) s c = loop fuel s c := by
  induction fuel generalizing s c with
  | zero => exact absurd (hpos s c h) (Nat.not_lt.2 hfuel)
  | succ fuel ih =>
    cases hpass s c h with
    | ends r hr _ => rw [hr, hr]
    | goesOn s' c' hloop _ hnext =>
      rw [hloop, hloop]
      exact ih hnext.1 (by omega)

end

section
variable {tokens : List Located} {p : Parser Parsed}

/-- A node over a part has the depth of its own tree. -/
theorem of_node_of_measured {tree : Expr} {inner x : Parsed} {c' : Cursor} (hinner : inner.Measured)
    (htree : tree.depth = inner.tree.depth + 1) (h : node tree inner.depth c = .ok x c') :
    x.Measured ∧ c' = c := by
  obtain ⟨hlt, rfl, rfl⟩ := of_node_eq_ok h
  refine ⟨⟨?_, hlt⟩, rfl⟩
  rw [htree, hinner.1]

/-- The loop of a chain returns what it has, or goes on with a deeper expression. -/
theorem chainFrom_pass (hp : Reads tokens p) (operator : Token → Option BinaryOp) {left : Parsed}
    (hc : c.Inside tokens) (hleft : left.Measured) :
    Pass (chainFrom operator p) (fun x c' => x = left ∧ c' = c)
      (fun both c' => (c'.Inside tokens ∧ both.Measured) ∧ left.depth < both.depth) left c := by
  cases hop : operator c.here.token with
  | none =>
    refine .ends (.ok left c) (fun fuel => chainFrom_of_eq_none hop (fuel + 1)) fun x c' h => ?_
    cases h
    exact ⟨rfl, rfl⟩
  | some op =>
    cases hright : p c.next with
    | error e c' =>
      refine .ends (.error e c') (fun fuel => ?_) nofun
      rw [chainFrom_of_eq_some hop, bind_of_error hright]
    | ok right c' =>
      obtain ⟨hc', hless, hright'⟩ := hp hc.next hright
      have hread : c'.rest.length < c.rest.length := Nat.lt_of_lt_of_le hless c.length_next_le
      -- with the right operand read, only the depth of both can end the loop
      rcases Nat.lt_or_ge (max left.depth right.depth) maxDepth with hlt | hge
      · refine .goesOn ⟨.binary op left.tree right.tree, max left.depth right.depth + 1⟩ c'
          (fun fuel => ?_) hread ⟨⟨hc', ?_, hlt⟩, Nat.lt_succ_of_le (Nat.le_max_left ..)⟩
        · rw [chainFrom_of_eq_some hop, bind_of_ok hright, bind_of_ok (node_of_lt hlt)]
        · rw [hleft.1, hright'.1]
          rfl
      · obtain ⟨limit, column, c'', herror⟩ :
            TooDeep (node (.binary op left.tree right.tree) _ c') := node_tooDeep hge
        refine .ends (.error (.tooDeep limit column) c'') (fun fuel => ?_) nofun
        rw [chainFrom_of_eq_some hop, bind_of_ok hright, bind_of_error herror]

theorem of_chainFrom (hp : Reads tokens p) (operator : Token → Option BinaryOp) {fuel : Nat}
    {left x : Parsed} {c' : Cursor} (hc : c.Inside tokens) (hleft : left.Measured)
    (h : chainFrom operator p fuel left c = .ok x c') :
    c'.Inside tokens ∧ c'.rest.length ≤ c.rest.length ∧ x.Measured := by
  induction fuel generalizing left c with
  | zero =>
    cases h
    exact ⟨hc, Nat.le_refl _, hleft⟩
  | succ fuel ih =>
    cases chainFrom_pass hp operator hc hleft with
    | ends r hr hdone =>
      obtain ⟨rfl, rfl⟩ := hdone x c' ((hr fuel).symm.trans h)
      exact ⟨hc, Nat.le_refl _, hleft⟩
    | goesOn both d hloop hread hnext =>
      rw [hloop] at h
      obtain ⟨hc', hle, hx⟩ := ih hnext.1.1 hnext.1.2 h
      exact ⟨hc', by omega, hx⟩

/-- No chain has as many operators as the loop has passes. -/
theorem chainFrom_succ (hp : Reads tokens p) (operator : Token → Option BinaryOp) {fuel : Nat}
    {left : Parsed} (hc : c.Inside tokens) (hleft : left.Measured)
    (hfuel : maxDepth < left.depth + fuel) :
    chainFrom operator p (fuel + 1) left c = chainFrom operator p fuel left c := by
  refine loop_succ_of_pass (fun x c => c.Inside tokens ∧ x.Measured)
    (fun x _ => maxDepth + 1 - x.depth) ?_ ?_ ⟨hc, hleft⟩ (by omega)
  · rintro x c ⟨-, hx⟩
    exact Nat.sub_pos_of_lt (Nat.lt_succ_of_le hx.2)
  · rintro x c ⟨hc, hx⟩
    refine (chainFrom_pass hp operator hc hx).imp fun both c' _ hnext => ⟨hnext.1, ?_⟩
    have hdepth : both.depth ≤ maxDepth := hnext.1.2.2
    have hless := hnext.2
    omega

theorem Reads.chain (hp : Reads tokens p) (operator : Token → Option BinaryOp) :
    Reads tokens (chain operator p) := by
  intro c c' x hc h
  obtain ⟨left, c₁, hleft, h⟩ := exists_of_bind_eq_ok h
  obtain ⟨hc₁, hless, hmeasured⟩ := hp hc hleft
  obtain ⟨hc', hle, hx⟩ := of_chainFrom hp operator hc₁ hmeasured h
  exact ⟨hc', by omega, hx⟩

/-- A test after an operand reads no less than the operand. -/
theorem Reads.tested (hp : Reads tokens p) : Reads tokens (tested p) := by
  intro c c' x hc h
  obtain ⟨subject, c₁, hsubject, hrun⟩ := exists_of_bind_eq_ok h
  obtain ⟨hc₁, hless, hmeasured⟩ := hp hc hsubject
  have hnode : ∀ {c₂ : Cursor} {negated : Bool}, c₂.Inside tokens →
      c₂.rest.length < c.rest.length →
      (testName >>= fun kind => node (.test subject.tree kind negated) subject.depth) c₂ =
        .ok x c' →
      c'.Inside tokens ∧ c'.rest.length < c.rest.length ∧ x.Measured := by
    intro c₂ negated hc₂ hless₂ hrun
    obtain ⟨kind, c₃, hname, hnode⟩ := exists_of_bind_eq_ok hrun
    obtain ⟨-, rfl⟩ := of_testName_eq_ok hname
    obtain ⟨hx, rfl⟩ := of_node_of_measured hmeasured rfl hnode
    exact ⟨hc₂.next, Nat.lt_of_le_of_lt c₂.length_next_le hless₂, hx⟩
  rw [tested_eq hsubject] at h
  have hle := c₁.length_next_le
  split at h
  · split at h
    · have hle' := c₁.next.length_next_le
      exact hnode hc₁.next.next (by omega) h
    · exact hnode hc₁.next (by omega) h
  · cases h
    exact ⟨hc₁, hless, hmeasured⟩

theorem Reads.levels (hp : Reads tokens p) : Reads tokens (levels p) := by
  have hsum : Reads tokens (Parser.chain sum? (Parser.chain product? p)) :=
    (hp.chain product?).chain sum?
  have hrelation := hsum.tested.chain relation?
  exact ((hrelation.chain equality?).chain conjunction?).chain disjunction?

theorem of_nested_eq_ok {x : α} {p : Parser α} {c' : Cursor} (h : nested p c = .ok x c') :
    c.nesting < maxNesting ∧ ∃ d, p c.deeper = .ok x d ∧ c' = d.shallower := by
  rcases Nat.lt_or_ge c.nesting maxNesting with hlt | hge
  · refine ⟨hlt, ?_⟩
    rw [nested_of_lt p hlt] at h
    cases hrun : p c.deeper with
    | ok y d =>
      rw [hrun] at h
      cases h
      exact ⟨d, rfl, rfl⟩
    | error e d =>
      rw [hrun] at h
      cases h
  · rw [nested, if_neg (Nat.not_lt.2 hge)] at h
    cases h

theorem Reads.nested (hp : Reads tokens p) : Reads tokens (nested p) := by
  intro c c' x hc h
  obtain ⟨hlt, d, hrun, rfl⟩ := of_nested_eq_ok h
  obtain ⟨hd, hless, hx⟩ := hp (hc.deeper hlt) hrun
  exact ⟨hd.shallower, hless, hx⟩

theorem reads_operand (htokens : Terminated tokens) (steps : Nat) :
    Reads tokens (operand steps) := by
  induction steps with
  | zero =>
    intro c c' x _ h
    cases h
  | succ steps ih =>
    intro c c' x hc h
    have hle := c.length_next_le
    cases hop : unaryOp? c.here.token with
    | some op =>
      rw [operand_of_unaryOp hop] at h
      obtain ⟨inner, c₁, hinner, hnode⟩ := exists_of_bind_eq_ok h
      obtain ⟨hc₁, hless, hmeasured⟩ := ih.nested hc.next hinner
      obtain ⟨hx, rfl⟩ := of_node_of_measured hmeasured rfl hnode
      exact ⟨hc₁, by omega, hx⟩
    | none =>
      cases hleaf : leaf? c.here.token with
      | some leaf =>
        rw [operand_of_leaf hop hleaf] at h
        cases h
        have hleaf := (leaf?_eq_some_iff _ _).1 hleaf
        have hne : c.here.token ≠ .eof := fun hend => by
          rw [hend] at hleaf
          cases hleaf
        exact ⟨hc.next, hc.length_next htokens hne, hleaf.depth_eq.symm, (by decide : 1 ≤ 256)⟩
      | none =>
        by_cases hparen : c.here.token = .leftParen
        · rw [operand_of_leftParen hparen] at h
          obtain ⟨inner, c₁, hinner, hclose⟩ := exists_of_bind_eq_ok h
          obtain ⟨hc₁, hless, hmeasured⟩ := ih.levels.nested hc.next hinner
          obtain ⟨-, rfl, rfl⟩ := of_close_eq_ok hclose
          have hle' := c₁.length_next_le
          exact ⟨hc₁.next, by omega, hmeasured⟩
        · rw [operand_of_other hop hleaf hparen] at h
          cases h

theorem Rule.reads (h : Rule p) (htokens : Terminated tokens) : Reads tokens p := by
  induction h with
  | operand steps => exact reads_operand htokens steps
  | chain level _ ih => exact ih.chain level.operator?
  | tested _ ih => exact ih.tested
  | nested _ ih => exact ih.nested

theorem reads_expression (htokens : Terminated tokens) : Reads tokens expression :=
  rule_expression.reads htokens

theorem eq_of_finish_eq_ok {c' : Cursor} (h : finish c = .ok () c') : c' = c := by
  rw [finish, peek_bind] at h
  cases htoken : c.here.token <;> rw [htoken] at h <;> cases h
  rfl

theorem of_wholeExpression (htokens : Terminated tokens) {c' : Cursor} {e : Expr}
    (hc : c.Inside tokens) (h : wholeExpression c = .ok e c') :
    c'.rest.length < c.rest.length ∧ e.depth ≤ 256 := by
  obtain ⟨x, c₁, hx, h⟩ := exists_of_bind_eq_ok h
  obtain ⟨_, c₂, hfinish, hpure⟩ := exists_of_bind_eq_ok h
  cases hpure
  obtain rfl := eq_of_finish_eq_ok hfinish
  obtain ⟨-, hless, hdepth, hle⟩ := reads_expression htokens hc hx
  exact ⟨hless, hdepth ▸ hle⟩

/-! ### Statements -/

theorem of_statement (htokens : Terminated tokens) {c' : Cursor} {s : Statement}
    (hc : c.Inside tokens) (h : statement c = .ok s c') :
    c'.Inside tokens ∧ c'.rest.length < c.rest.length ∧ s.tree.depth ≤ 256 := by
  have hexpression := reads_expression htokens
  by_cases hassign : ∃ field, c.here.token = .word field ∧ c.second.token = .assign
  · obtain ⟨field, hfield, hsecond⟩ := hassign
    rw [statement_of_assign hfield hsecond] at h
    obtain ⟨x, c₁, hx, hpure⟩ := exists_of_bind_eq_ok h
    cases hpure
    obtain ⟨hc', hless, hdepth, hle⟩ := hexpression hc.next.next hx
    have hnext := c.length_next_le
    have hnext' := c.next.length_next_le
    exact ⟨hc', by omega, hdepth ▸ hle⟩
  · rw [statement_of_expression fun field hf ha => hassign ⟨field, hf, ha⟩] at h
    obtain ⟨x, c₁, hx, hpure⟩ := exists_of_bind_eq_ok h
    cases hpure
    obtain ⟨hc', hless, hdepth, hle⟩ := hexpression hc hx
    exact ⟨hc', hless, hdepth ▸ hle⟩

theorem statementsFrom_pass (htokens : Terminated tokens) (read : List Statement)
    (hc : c.Inside tokens) :
    Pass statementsFrom (fun _ c' => c'.rest.length ≤ c.rest.length)
      (fun _ c' => c'.Inside tokens) read c := by
  by_cases hsemicolon : c.here.token = .semicolon
  · refine .goesOn read c.next (fun steps => statementsFrom_of_semicolon hsemicolon) ?_ hc.next
    exact hc.length_next htokens (by simp [hsemicolon])
  by_cases hend : c.here.token = .eof
  · refine .ends (.ok read.reverse c) (fun steps => statementsFrom_of_eof hend _) fun p c' h => ?_
    cases h
    exact Nat.le_refl _
  have hloop : ∀ steps, statementsFrom (steps + 1) read c = (statement >>= goOn steps read) c :=
    fun _ => statementsFrom_of_statement hsemicolon hend
  cases hs : statement c with
  | error e c' =>
    exact .ends (.error e c') (fun steps => (hloop steps).trans (bind_of_error hs)) nofun
  | ok s c' =>
    obtain ⟨hc', hless, -⟩ := of_statement htokens hc hs
    by_cases hagain : c'.here.token = .semicolon
    · refine .goesOn (s :: read) c'.next (fun steps => ?_) ?_ hc'.next
      · rw [hloop, bind_of_ok hs, goOn_of_semicolon hagain]
      · exact Nat.lt_of_le_of_lt c'.length_next_le hless
    · refine .ends (.ok (s :: read).reverse c') (fun steps => ?_) fun p d h => ?_
      · rw [hloop, bind_of_ok hs, goOn_of_ne hagain]
      · cases h
        exact Nat.le_of_lt hless

/-- No text has as many statements as the loop has passes. -/
theorem statementsFrom_succ_of_inside (htokens : Terminated tokens) {steps : Nat}
    (read : List Statement) (hc : c.Inside tokens) (hsteps : c.rest.length ≤ steps) :
    statementsFrom (steps + 1) read c = statementsFrom steps read c := by
  refine loop_succ_of_pass (fun _ c => c.Inside tokens) (fun _ c => c.rest.length) ?_ ?_ hc hsteps
  · intro _ c hc
    obtain ⟨t, after, hrest⟩ := (hc.ends htokens).exists_cons
    rw [hrest]
    exact Nat.succ_pos _
  · intro read c hc
    exact (statementsFrom_pass htokens read hc).imp fun _ _ hread hc' => ⟨hc', hread⟩

end

/-! ### Every run -/

/-- How the parser goes through the tokens. -/
structure Confined (tokens : List Located) : Prop where
  terminated : Terminated tokens
  start : (⟨tokens, 0⟩ : Cursor).Inside tokens
  /-- The token after the place is looked up at the place after it, or at the last one. -/
  ahead : ∀ (c : Cursor) (i : Nat), tokens[i]? = some c.here → c.rest = tokens.drop i →
    tokens[min (i + 1) (tokens.length - 1)]? = some c.second
  /-- A run goes through cursors by moves alone, and none of them is outside the tokens. -/
  visits : ∀ {α : Type} {p : Parser α} {c : Cursor}, Procedure p → c.Inside tokens →
    (∃ trail, Visits p c trail) ∧ ∀ trail, Visits p c trail →
      Path c (p.after c) trail ∧ ∀ d ∈ trail, d.Inside tokens
  nesting : ∀ {α : Type} {p : Parser α}, Procedure p → ∀ c, (p.after c).nesting = c.nesting
  reads : ∀ {p : Parser Parsed} {c c' : Cursor} {x : Parsed}, Rule p → c.Inside tokens →
    p c = .ok x c' → c'.rest.length < c.rest.length ∧ x.depth = x.tree.depth ∧ x.depth ≤ 256
  expression : ∀ {c c' : Cursor} {e : Expr}, c.Inside tokens →
    wholeExpression c = .ok e c' → c'.rest.length < c.rest.length ∧ e.depth ≤ 256
  statement : ∀ {c c' : Cursor} {s : Statement}, c.Inside tokens →
    Parser.statement c = .ok s c' → c'.rest.length < c.rest.length ∧ s.tree.depth ≤ 256
  /-- The loops go on, and would end without a bound on their passes. -/
  operators : ∀ (level : Level) {p : Parser Parsed} {left : Parsed} {c : Cursor}, Rule p →
    c.Inside tokens → left.Measured →
      Pass (chainFrom level.operator? p) (fun x c' => x = left ∧ c' = c)
        (fun both c' => (c'.Inside tokens ∧ both.Measured) ∧ left.depth < both.depth) left c ∧
      ∀ fuel, maxDepth < left.depth + fuel →
        chainFrom level.operator? p (fuel + 1) left c = chainFrom level.operator? p fuel left c
  statements : ∀ (read : List Statement) {c : Cursor}, c.Inside tokens →
    Pass statementsFrom (fun _ c' => c'.rest.length ≤ c.rest.length)
        (fun _ c' => c'.Inside tokens) read c ∧
      ∀ steps, c.rest.length ≤ steps →
        statementsFrom (steps + 1) read c = statementsFrom steps read c

/-- On the tokens of every text the parser stays inside them, and its loops come to an end. -/
theorem confined_of_tokenize {text : String} {tokens : List Located}
    (h : tokenize text = .ok tokens) : Confined tokens := by
  have htokens := terminated_of_tokenize h
  constructor
  case terminated => exact htokens
  case start => exact Cursor.inside_start htokens
  case ahead => exact fun c i hhere hrest => (Cursor.next_of_place hhere hrest).1
  case visits =>
    intro α p c hp hc
    exact ⟨hp.stepwise c, fun trail htrail => ⟨htrail.path.1, htrail.path.1.inside hc⟩⟩
  case nesting =>
    intro α p hp c
    obtain ⟨trail, htrail⟩ := hp.stepwise c
    exact htrail.path.2
  case reads => exact fun hp hc hrun => (hp.reads htokens hc hrun).2
  case expression => exact fun hc hrun => of_wholeExpression htokens hc hrun
  case statement => exact fun hc hrun => (of_statement htokens hc hrun).2
  case operators =>
    intro level p left c hp hc hleft
    have hreads := hp.reads htokens
    exact ⟨chainFrom_pass hreads _ hc hleft, fun fuel => chainFrom_succ hreads _ hc hleft⟩
  case statements =>
    intro read c hc
    exact ⟨statementsFrom_pass htokens read hc,
      fun steps => statementsFrom_succ_of_inside htokens read hc⟩

theorem confined_not :
    tokenize "!a" = .ok [⟨.bang, 0⟩, ⟨.word "a", 1⟩, ⟨.eof, 2⟩] ∧
      Confined [⟨.bang, 0⟩, ⟨.word "a", 1⟩, ⟨.eof, 2⟩] := by
  have htokens : tokenize "!a" = .ok [⟨.bang, 0⟩, ⟨.word "a", 1⟩, ⟨.eof, 2⟩] := by
    with_unfolding_all rfl
  exact ⟨htokens, confined_of_tokenize htokens⟩

end Parser

end Covenant.Expr
