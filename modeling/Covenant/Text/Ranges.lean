/-! Character classes given by ranges of code points. Every class of this library is a
table of inclusive ranges in increasing order, and a character belongs to the class
when one range holds its code point. The tables follow Unicode 17.0. -/

namespace Covenant.Text

/-- Inclusive ranges of code points. -/
abbrev Ranges := List (Nat × Nat)

def Ranges.contains (table : Ranges) (c : Char) : Bool :=
  table.any fun range => range.1 ≤ c.toNat && c.toNat ≤ range.2

theorem Ranges.contains_iff {table : Ranges} {c : Char} :
    table.contains c = true ↔ ∃ range ∈ table, range.1 ≤ c.toNat ∧ c.toNat ≤ range.2 := by
  simp [Ranges.contains, List.any_eq_true]

end Covenant.Text
