import Covenant.Json.Token

/-! Reading documents. The reader walks the tokens once and keeps the open containers on a
stack, so the depth of a document is not limited here; `Json.ofDocument?` and the decoders
limit what they look into. -/

namespace Covenant.Document

/-- An open container around the place of reading: the parts before that place, newest first,
and in an object the name of the member that is being read. -/
inductive Frame
  | items (before : List Document)
  | members (before : List (Option String × Document)) (name : Option String)

/-- What comes next: a value, a member of the innermost object, or what may follow the value
just read. -/
inductive Place
  | value
  | member (before : List (Option String × Document))
  | after (d : Document)

/-- An object whose members are given newest first; void where a name is. -/
def ofMembers (members : List (Option String × Document)) : Document :=
  match members.reverse.mapM fun m => m.1.map (·, m.2) with
  | some members => .object members
  | none => .void

def ofString : Option String → Document
  | some s => .string s
  | none => .void

def read? : Place → List Frame → List Json.Token → Option Document
  | .value, stack, .leaf d :: rest => read? (.after d) stack rest
  | .value, stack, .string s :: rest => read? (.after (ofString s)) stack rest
  | .value, stack, .openBracket :: .closeBracket :: rest => read? (.after (.array [])) stack rest
  | .value, stack, .openBracket :: rest => read? .value (.items [] :: stack) rest
  | .value, stack, .openBrace :: .closeBrace :: rest => read? (.after (.object [])) stack rest
  | .value, stack, .openBrace :: rest => read? (.member []) stack rest
  | .member before, stack, .string name :: .colon :: rest =>
    read? .value (.members before name :: stack) rest
  | .after d, .items before :: stack, .comma :: rest => read? .value (.items (d :: before) :: stack) rest
  | .after d, .items before :: stack, .closeBracket :: rest =>
    read? (.after (.array (d :: before).reverse)) stack rest
  | .after d, .members before name :: stack, .comma :: rest =>
    read? (.member ((name, d) :: before)) stack rest
  | .after d, .members before name :: stack, .closeBrace :: rest =>
    read? (.after (ofMembers ((name, d) :: before))) stack rest
  | .after d, [], [] => some d
  | _, _, _ => none

def ofTokens? (tokens : List Json.Token) : Option Document := read? .value [] tokens

def parse? (text : String) : Option Document := (Json.tokens? text).bind ofTokens?

end Covenant.Document

namespace Covenant.Json

def parse? (text : String) : Option Json :=
  (Document.parse? text).bind (ofDocument? Document.maxDepth)

end Covenant.Json
