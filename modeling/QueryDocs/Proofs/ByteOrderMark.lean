import QueryDocs.Files.Store
import QueryDocs.Proofs.Document.Fragments
import QueryDocs.Proofs.Import.Breaks
import QueryDocs.Proofs.Import.Records
import QueryDocs.Proofs.RoundTrip
import QueryDocs.Proofs.SameTokens

/-! # Byte-order marks and imports

To a reader of tokens a byte-order mark at the start of a text is nothing, and so it changes no record of a
text (`importText_withMark`), unless there is none: the marker that lets a file do without operations is
looked for at the very start. In a file that other files ask for the mark stands where the text of the file
is put, and this is the start of the expanded text in one case only (`FileStore.importFile_mark`). -/

namespace QueryDocs

open QueryDocs.Text

section Text
variable {cs : List Char} {ts : List Token} {last : Token} {file text : String} {name : Option String}
  {options : ImportOptions} {rs : List OperationRecord} {d : Document}

theorem chars_withMark (text : String) (name : Option String) :
    Source.chars ⟨withMark text, name⟩ = byteOrderMark :: text.toList := by
  rw [Source.chars, withMark, String.toList_ofList]

theorem exists_parse_withMark (h : Source.parse ⟨text, name⟩ = .ok d)
    (hmark : text.toList.head? ≠ some byteOrderMark) :
    ∃ d', Source.parse ⟨withMark text, name⟩ = .ok d' ∧ d'.operationKeys = d.operationKeys ∧
      d'.fragmentNames = d.fragmentNames := by
  obtain ⟨ts, hts⟩ := Source.exists_tokens h
  obtain ⟨us, rfl, htokens⟩ := Source.tokens_eq_ok hts
  obtain ⟨us', last, hus', hsame⟩ := htokens.exists_at (n := byteOrderMark.utf8Size) fun hhead =>
    absurd hhead hmark
  have hmarked : Tokenizes 0 (Source.chars ⟨withMark text, name⟩) us' last := by
    rw [chars_withMark]
    exact hus'.of_scan_eq (scan_mark _)
  obtain ⟨vs, hvs, htokens'⟩ := Source.tokens_eq_ok hmarked.tokens
  obtain ⟨rfl, -⟩ := List.append_inj' hvs rfl
  rcases htokens.parse_erased htokens' hsame.symm with ⟨e, d', he, hd', herased⟩ | ⟨x, t, -, ht, -⟩
  · cases (Source.stream_of_parse h).symm.trans he
    refine ⟨d', Source.parse_of_stream hd', ?_, ?_⟩
    · rw [← Document.operationKeys_relabel .erase d', ← herased, Document.operationKeys_relabel]
    · rw [← Document.fragmentNames_relabel .erase d', ← herased, Document.fragmentNames_relabel]
  · cases (Source.stream_of_parse h).symm.trans ht

theorem not_marks_withMark (hmark : text.toList.head? ≠ some byteOrderMark) (h : options.Marks text) :
    ¬ options.Marks (withMark text) := by
  rintro ⟨hne, hprefix⟩
  obtain ⟨c, cs, hcs⟩ := List.exists_cons_of_ne_nil (show options.marker.toList ≠ [] by simpa using hne)
  obtain ⟨k, hk⟩ := h.2
  rw [hcs] at hk hprefix
  rw [withMark, String.toList_ofList, List.cons_prefix_cons] at hprefix
  refine hmark ?_
  rw [← hk, hprefix.1]
  rfl

/-- **A byte-order mark in front of a text without one leaves the records as they are**, but for their
source. Without operations the marker is not found any more. -/
theorem importText_withMark (h : importText file text options = .ok rs)
    (hmark : text.toList.head? ≠ some byteOrderMark) :
    importText file (withMark text) options =
      if rs = [] then .error (.noOperations file)
      else .ok (rs.map fun r => { r with source := withMark r.source }) := by
  obtain ⟨d, hparse, htable, hnames, hmarks, rfl⟩ := importText_eq_ok.mp h
  obtain ⟨d', hparse', hkeys, hfragments⟩ := exists_parse_withMark hparse hmark
  have htable' : ∃ table, d'.fragmentTable = .ok table := by
    rw [Document.exists_fragmentTable_iff] at htable ⊢
    rwa [hfragments]
  split_ifs with hnone
  · rw [List.map_eq_nil_iff] at hnone
    obtain ⟨table, htable'⟩ := htable'
    exact importText_of_operationKeys_eq_nil hparse' htable' (hkeys.trans hnone)
      (not_marks_withMark hmark (hmarks hnone))
  · rw [List.map_eq_nil_iff] at hnone
    refine importText_eq_ok.mpr ⟨d', hparse', htable', ?_, fun h => absurd (hkeys ▸ h) hnone, ?_⟩
    · rwa [Document.NamesOperations, hkeys]
    · rw [hkeys, List.map_map]
      rfl

end Text

/-! ### Files -/

namespace FileStore

/-- The text from which operations are taken contains that of a file, at the end of a route. -/
def TakenAt (store : FileStore) (options : ImportOptions) (path file : String) (is : List Nat) : Prop :=
  (∃ chain path', store.Route [] path is chain path' ∧ store.resolve path' = .ok file) ∧
    (options.expand = false → is = [])

section Files
variable {store : FileStore} {path file text : String} {options : ImportOptions} {is : List Nat}
  {rs : List OperationRecord}

theorem textFor_mark_of_not_taken (hknown : ∀ f ∈ store.known, store.resolve f = .ok f)
    (h : ∀ is, ¬ store.TakenAt options path file is) :
    (store.mark file).textFor path options = store.textFor path options := by
  rw [textFor, textFor]
  split_ifs with hexpand
  · have havoids : store.Avoids [] path file := fun is chain path' hroute hresolve =>
      absurd ⟨⟨chain, path', hroute, hresolve⟩, by simp [hexpand]⟩ (h is)
    rw [expand, expand, expandOn_mark_of_avoids hknown havoids]
  · cases hresolve : store.resolve path with
    | error e => simp only [mark, hresolve]
    | ok f =>
      rw [read_mark_of_ne hresolve]
      rintro rfl
      exact h [] ⟨⟨[], path, .here _ _, hresolve⟩, fun _ => rfl⟩

theorem textFor_mark_of_first (hknown : ∀ f ∈ store.known, store.resolve f = .ok f)
    (hplain : options.expand = true → store.StartsPlain file) (htaken : store.TakenAt options path file is)
    (hfirst : ∀ is, store.TakenAt options path file is → ∀ i ∈ is, i = 0)
    (h : store.textFor path options = .ok text) :
    (store.mark file).textFor path options = .ok (withMark text) := by
  obtain ⟨⟨chain, path', hroute, hresolve⟩, hnil⟩ := htaken
  rw [textFor] at h ⊢
  split_ifs at h ⊢ with hexpand
  · obtain ⟨out, hout, rfl⟩ := map_eq_ok.mp h
    have hmarked := expandOn_mark_of_first hknown (hplain hexpand) hroute hresolve
      (fun js chain' path' hr hf => hfirst js ⟨⟨chain', path', hr, hf⟩, by simp [hexpand]⟩) hout
    rw [expand, hmarked, withMark, String.toList_ofList]
    rfl
  · obtain rfl := hnil (by simpa using hexpand)
    cases hroute
    rw [read_mark_self hresolve]
    cases hread : store.read path with
    | error e => rw [hread] at h; cases h
    | ok t =>
      rw [hread] at h
      cases h
      rfl

theorem exists_importFile_mark_eq_error (hknown : ∀ f ∈ store.known, store.resolve f = .ok f)
    (hplain : store.StartsPlain file) (hs : store.Spliceable path)
    (htaken : store.TakenAt options path file is) (hbehind : ∃ i ∈ is, i ≠ 0)
    (h : store.textFor path options = .ok text) :
    ∃ e, (store.mark file).importFile path options = .error (.grammar e) := by
  obtain ⟨⟨chain, path', hroute, hresolve⟩, hnil⟩ := htaken
  have hexpand : options.expand = true := by
    by_contra hexpand
    obtain ⟨i, hi, -⟩ := hbehind
    rw [hnil (by simpa using hexpand)] at hi
    cases hi
  rw [textFor, if_pos hexpand] at h
  obtain ⟨out, hout, rfl⟩ := map_eq_ok.mp h
  obtain ⟨out', hout'⟩ : ∃ out', (store.mark file).expandOn [] path = .ok out' := exists_expandOn_mark hout
  have hbreaks : Breaks 0 (Source.chars ⟨String.ofList out', some (Path.stem path)⟩) := by
    rw [Source.chars, String.toList_ofList]
    exact breaks_expandOn_mark hknown hplain hs hout hout' hroute hresolve (Or.inr hbehind) fun _ _ _ _ => rfl
  obtain ⟨e, he⟩ := hbreaks.tokens
  have htext : (store.mark file).textFor path options = .ok (String.ofList out') := by
    rw [textFor, if_pos hexpand, expand, hout']
    rfl
  rw [importFile, htext]
  dsimp only
  rw [importText]
  cases hparse : Source.parse ⟨String.ofList out', some (Path.stem path)⟩ with
  | error e => exact ⟨e, rfl⟩
  | ok d =>
    obtain ⟨ts, hts⟩ := Source.exists_tokens hparse
    cases he.symm.trans hts

/-- **What a byte-order mark at the start of a file does to the records.** Nothing, if the file is not
reached. If it is reached over first lines alone, does not start with an import line itself, and the text
had no mark before, the records are the same but for the mark in their source; without records the file is
refused. If it is reached over any other line, as well or only, there is a text, but it is no document:
this is for files that can be spliced. -/
theorem importFile_mark (hknown : ∀ f ∈ store.known, store.resolve f = .ok f)
    (h : store.importFile path options = .ok rs) :
    ((∀ is, ¬ store.TakenAt options path file is) → (store.mark file).importFile path options = .ok rs) ∧
    ((options.expand = true → store.StartsPlain file) →
      (∀ text, store.textFor path options = .ok text → text.toList.head? ≠ some byteOrderMark) →
      (∃ is, store.TakenAt options path file is) →
      (∀ is, store.TakenAt options path file is → ∀ i ∈ is, i = 0) →
      (store.mark file).importFile path options =
        if rs = [] then .error (.noOperations (Path.stem path))
        else .ok (rs.map fun r => { r with source := withMark r.source })) ∧
    (store.StartsPlain file → store.Spliceable path →
      (∃ is, store.TakenAt options path file is ∧ ∃ i ∈ is, i ≠ 0) →
      ∃ e, (store.mark file).importFile path options = .error (.grammar e)) := by
  rw [importFile] at h
  cases htext : store.textFor path options with
  | error e => rw [htext] at h; cases h
  | ok text =>
    rw [htext] at h
    refine ⟨fun hnone => ?_, fun hplain hmark ⟨is, htaken⟩ hfirst => ?_, fun hplain hs htaken => ?_⟩
    · rw [importFile, textFor_mark_of_not_taken hknown hnone, htext]
      exact h
    · rw [importFile, textFor_mark_of_first hknown hplain htaken hfirst htext]
      exact importText_withMark h (hmark text rfl)
    · obtain ⟨is, htaken, hbehind⟩ := htaken
      exact exists_importFile_mark_eq_error hknown hplain hs htaken hbehind htext

end Files

/-- Two files with a query each, one of which asks for the other in its second line. -/
def twoQueries : FileStore :=
  Snapshot.store ⟨[("/a", .ok "/a"), ("/b", .ok "/b")],
    [("/a", .ok "query A \x7b a \x7d\n#import \"b\"\n"), ("/b", .ok "query B \x7b b \x7d\n")]⟩

/-- A byte-order mark in the file that asks leaves the two records, and one in the other file does not. -/
theorem importFile_mark_twoQueries : ∃ rs, twoQueries.importFile "/a" {} = .ok rs ∧ rs.length = 2 ∧
    (twoQueries.mark "/a").importFile "/a" {} =
      .ok (rs.map fun r => { r with source := withMark r.source }) ∧
    ∃ e, (twoQueries.mark "/b").importFile "/a" {} = .error (.grammar e) := by
  have h : twoQueries.importFile "/a" {} = .ok
      [⟨"a", some "A", .query, "query A \x7b a \x7d\nquery B \x7b b \x7d\n"⟩,
        ⟨"a", some "B", .query, "query A \x7b a \x7d\nquery B \x7b b \x7d\n"⟩] := by decide +kernel
  have hexpand : twoQueries.expandOn [] "/a" =
      .ok "query A \x7b a \x7d\nquery B \x7b b \x7d\n".toList := by decide +kernel
  obtain ⟨-, hmark, -⟩ := @importFile_mark twoQueries "/a" "/a" {} _ (by decide +kernel) h
  obtain ⟨-, -, hbreak⟩ := @importFile_mark twoQueries "/a" "/b" {} _ (by decide +kernel) h
  refine ⟨_, h, rfl, ?_, ?_⟩
  · rw [hmark, if_neg (by simp)]
    · exact fun _ => startsPlain_of_read rfl (by decide +kernel)
    · intro text htext
      rw [textFor, if_pos rfl, expand, hexpand] at htext
      cases htext
      decide
    · exact ⟨[], ⟨[], "/a", .here _ _, rfl⟩, fun _ => rfl⟩
    · rintro is ⟨⟨chain, path', hroute, hresolve⟩, -⟩
      simp [hroute.eq_nil hexpand rfl hresolve]
  · refine hbreak (startsPlain_of_read rfl (by decide +kernel)) (spliceable_of_known (by decide +kernel)) ?_
    have hroute : twoQueries.Route [] "/a" [1] ["/a"] "/b" :=
      .step ⟨rfl, by simp, rfl⟩ ⟨_, ⟨"b", ['\n']⟩, rfl, by decide +kernel, by decide +kernel⟩
        (.here _ _)
    exact ⟨[1], ⟨⟨_, _, hroute, rfl⟩, by simp⟩, 1, by simp, by simp⟩

/-- A byte-order mark in front of a first line that asks for a file loses what this file provides. -/
theorem importFile_mark_first_line : ¬ ∀ (store : FileStore) (path file : String) (options : ImportOptions)
    (rs : List OperationRecord), (∀ f ∈ store.known, store.resolve f = .ok f) →
    store.importFile path options = .ok rs →
    (∀ text, store.read file = .ok text → text.toList.head? ≠ some byteOrderMark) →
    ∃ rs', (store.mark file).importFile path options = .ok rs' ∧
      rs'.map (fun r => (r.file, r.name, r.type)) = rs.map fun r => (r.file, r.name, r.type) := by
  intro hall
  have h : (Snapshot.store ⟨[("/a", .ok "/a"), ("/b", .ok "/b")],
      [("/a", .ok "#import \"b\"\nquery A \x7b a \x7d\n"), ("/b", .ok "query B \x7b b \x7d\n")]⟩).importFile
      "/a" {} = .ok [⟨"a", some "B", .query, "query B \x7b b \x7d\nquery A \x7b a \x7d\n"⟩,
        ⟨"a", some "A", .query, "query B \x7b b \x7d\nquery A \x7b a \x7d\n"⟩] := by decide +kernel
  have hmarked : ((Snapshot.store ⟨[("/a", .ok "/a"), ("/b", .ok "/b")],
      [("/a", .ok "#import \"b\"\nquery A \x7b a \x7d\n"), ("/b", .ok "query B \x7b b \x7d\n")]⟩).mark
      "/a").importFile "/a" {} =
        .ok [⟨"a", some "A", .query, "\ufeff#import \"b\"\nquery A \x7b a \x7d\n"⟩] := by decide +kernel
  obtain ⟨rs, hrs, hkeys⟩ := hall _ "/a" "/a" {} _ (by decide +kernel) h fun text htext => by
    cases htext
    decide
  cases hmarked.symm.trans hrs
  exact absurd (congrArg List.length hkeys) (by decide)

end FileStore

end QueryDocs
