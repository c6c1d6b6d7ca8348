import QueryDocs.Proofs.Document.Shape

/-! # Neighbouring definitions

A definition that may have a body in braces and lacks it cannot stand before a selection set alone:
the braces would be read as its body. Elsewhere definitions follow each other as they are. -/

namespace QueryDocs

/-- Whether a body in braces may stand behind a definition, and does not. -/
def Definition.lacksBody : Definition → Bool
  | .type d => d.lacksBody
  | .extension d => d.definition.lacksBody
  | _ => false

/-- Whether a definition is written as a selection set alone. -/
def Definition.isBare (full : Bool) : Definition → Bool
  | .operation d => d.isShorthand && !full
  | _ => false

/-- A definition together with whether the token is written that may be left out. -/
abbrev Written := Definition × Bool

/-- The tokens of a definition as it is written. -/
def Written.lexemes (x : Written) : List Lexeme := x.1.lexemes x.2

theorem Definition.lexemes_ne_nil (full : Bool) (x : Definition) : x.lexemes full ≠ [] := by
  cases x with
  | operation d =>
    obtain ⟨o, n, vs, ds, ⟨xs, s⟩, s'⟩ := d
    rw [Definition.lexemes, OperationDefinition.lexemes]
    split_ifs <;> simp
  | type d =>
    cases d <;>
      simp [Definition.lexemes, TypeDefinition.lexemes, typeLexemes, CompositeDefinition.lexemes]
  | fragment _ => simp [Definition.lexemes, FragmentDefinition.lexemes]
  | schema _ => simp [Definition.lexemes, SchemaDefinition.lexemes]
  | directive _ => simp [Definition.lexemes, DirectiveDefinition.lexemes]
  | extension _ => simp [Definition.lexemes]

/-- Definitions can stand one behind the other as they are written. -/
def Apart : List Written → Prop :=
  List.IsChain fun x y => x.1.lacksBody = true → y.1.isBare y.2 = false

/-- No definition of a document that lacks its body is followed by a selection set alone. -/
def Document.Apart (d : Document) : Prop := QueryDocs.Apart (d.definitions.map (·, false))

end QueryDocs
