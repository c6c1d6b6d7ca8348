import QueryDocs.Proofs.Grammar.Whole
import QueryDocs.Proofs.Layout.Nodes

/-! # Printing and reading back

The text of a printed document has the tokens that the document is written with
(`tokens_print`). Where its definitions stand apart, they are read back as they are, up to their
labels (`parse_print`). -/

namespace QueryDocs

open QueryDocs.Layout

variable {d : Document}

theorem Document.lexemes_eq (d : Document) :
    d.lexemes = (d.definitions.map (·, false)).flatMap Written.lexemes := by
  rw [lexemes, List.flatMap_map]
  rfl

/-- **The text of a printed document is read as the tokens of the document.** -/
theorem stream_print (hd : ∀ l ∈ d.lexemes, l.Valid) (style : Style) (name : Option String) :
    ∃ ts n, TokenStream.ofSource ⟨d.print style, name⟩ = .prepend ts (.finish (.endOfText n)) ∧
      PlainOf .print d.lexemes ts := by
  obtain ⟨ts, last, hts, hls⟩ := (prints_document style d).tokenizes hd 0
  obtain ⟨offset, rest, -, hend, hlast⟩ := id hts
  obtain ⟨rfl, -⟩ := scan_of_end hend hlast
  rw [← text_toList] at hts
  exact ⟨ts, _, Tokenizes.ofSource (s := ⟨d.print style, name⟩) hts, hls⟩

theorem Source.parse_of_stream {s : Source} (h : (TokenStream.ofSource s).parse = .ok d) :
    s.parse = .ok d := by
  rw [Source.parse, h]

theorem Source.stream_of_parse {s : Source} (h : s.parse = .ok d) :
    (TokenStream.ofSource s).parse = .ok d := by
  rw [Source.parse] at h
  split at h
  · next hd =>
    cases h
    exact hd
  · cases h

theorem exists_parse_of_lexemes {s : Source} {ts : List Token} {n : Nat}
    (hs : TokenStream.ofSource s = .prepend ts (.finish (.endOfText n))) (hls : PlainOf .print d.lexemes ts)
    (hd : d.WellFormed) (hapart : d.Apart) :
    ∃ d', s.parse = .ok d' ∧ relabel .erase d'.definitions = relabel .print d.definitions := by
  rw [Document.lexemes_eq] at hls
  have hshaped : ∀ w ∈ d.definitions.map (·, false), w.1.Shaped := by
    simpa using hd.shaped
  obtain ⟨d', hd', hsame⟩ :=
    parse_of_written hs (TokenStream.proper_ofSource _) hls hshaped hapart
  refine ⟨d', Source.parse_of_stream hd', ?_⟩
  have hmap : (d.definitions.map (·, false)).map Prod.fst = d.definitions := by
    rw [List.map_map]
    exact List.map_id _
  rw [hmap] at hsame
  exact hsame

theorem exists_parse_print (hd : d.WellFormed) (hapart : d.Apart) (style : Style)
    (name : Option String) : ∃ d', Source.parse ⟨d.print style, name⟩ = .ok d' ∧
      relabel .erase d'.definitions = relabel .print d.definitions := by
  obtain ⟨ts, n, hs, hls⟩ := stream_print hd.valid style name
  exact exists_parse_of_lexemes hs hls hd hapart

/-- A type with a description and without a body, and an operation that is written with its word. -/
def Document.described : Document :=
  ⟨[.type (.object ⟨some ⟨"a\n b", true, .empty 0⟩, ⟨"A", .empty 0⟩, [], [], [], .empty 0⟩),
    .operation ⟨.mutation, none, [], [],
      ⟨[.field ⟨none, ⟨"a", .empty 0⟩, [], [], none, .empty 0⟩], .empty 0⟩, .empty 0⟩], .empty 0⟩

end QueryDocs
