import QueryDocs.Files.Store
import QueryDocs.Proofs.Import.Comments
import QueryDocs.Proofs.Import.Files
import QueryDocs.Proofs.Tokens.Listing

/-! # Expansion splices tokens

Expansion works on lines and knows nothing of tokens. `FileStore.spliced` says what it means for them: the
tokens of a file, and in the place of each import line those of the file that it asks for, spliced in turn.
These are the tokens of the expanded text (`FileStore.tokens_expand`), so no token and no comment of a file
runs into another file. -/

namespace QueryDocs

open QueryDocs.Text

/-! ### Spliced lexemes -/

/-- The lexemes of tokens with others in the places of the import lines of a text, from the line at an
offset on. Tokens that start before an import line come before what it asks for. -/
def spliceLines (asked : ImportLine → Option (List Lexeme)) :
    Nat → List (List Char) → List Token → Option (List Lexeme)
  | _, [], ts => some (ts.map Token.lexeme)
  | offset, line :: rest, ts =>
    match ImportLine.read? line with
    | none => spliceLines asked (offset + byteLength line) rest ts
    | some l => do
      let inner ← asked l
      let behind ← spliceLines asked (offset + byteLength line) rest
        (ts.dropWhile fun t => t.span.start < offset)
      return (ts.takeWhile fun t => t.span.start < offset).map Token.lexeme ++ inner ++ behind

/-- The lexemes of the file that a path leads to, with those of the files that it asks for in the places
of its import lines, where the files of a chain are being spliced. -/
def FileStore.splicedOn (store : FileStore) (chain : List String) (path : String) :
    Option (List Lexeme) :=
  match _ : store.resolve path with
  | .error _ => none
  | .ok file =>
    if _ : file ∈ chain then none
    else
      match store.read file with
      | .error _ => none
      | .ok text => do
        let tokens ← (Source.tokens ⟨text, none⟩).toOption
        spliceLines
          (fun asked => store.splicedOn (file :: chain) (Path.join (Path.parent file) asked.target))
          0 (lines text.toList) tokens.dropLast
termination_by store.remaining chain
decreasing_by
  exact remaining_lt (store.mem_known ‹store.resolve path = .ok file›) ‹file ∉ chain›

/-- No string among some tokens runs into an import line, the first line starting at an offset, and nothing
but blanks stands behind the path of such a line. -/
def ImportsApart (ts : List Token) : Nat → List (List Char) → Prop
  | _, [] => True
  | offset, line :: rest =>
    (∀ asked ∈ ImportLine.read? line, asked.rest.all isBlank = true ∧
      ∀ t ∈ ts, t.IsText → t.span.stop ≤ offset ∨ offset + byteLength line ≤ t.span.start) ∧
    ImportsApart ts (offset + byteLength line) rest

instance decidableImportsApart (ts : List Token) : ∀ (offset : Nat) (ls : List (List Char)),
    Decidable (ImportsApart ts offset ls)
  | _, [] => .isTrue trivial
  | offset, line :: rest =>
    have := decidableImportsApart ts (offset + byteLength line) rest
    inferInstanceAs (Decidable (_ ∧ _))

/-- What a path leads to can be spliced: every file on the way is read as tokens, with its import lines
apart from them, and no file that is asked for starts with a byte-order mark. -/
structure FileStore.Spliceable (store : FileStore) (path : String) : Prop where
  tokens : ∀ file text, store.Reaches path file → store.read file = .ok text →
    ∃ ts, Source.tokens ⟨text, none⟩ = .ok ts ∧ ImportsApart ts 0 (lines text.toList)
  unmarked : ∀ file file' text, store.Reaches path file → store.Imports file file' →
    store.read file' = .ok text → text.toList.head? ≠ some byteOrderMark

/-- A text at an offset is read as tokens with some lexemes. -/
def HasLexemes (offset : Nat) (cs : List Char) (ls : List Lexeme) : Prop :=
  ∃ ts last, Tokenizes offset cs ts last ∧ ts.map Token.lexeme = ls

/-- The text that a path expands to has the spliced lexemes, at the start of a text and, if the file starts
with no byte-order mark, everywhere. -/
def FileStore.SplicesTo (store : FileStore) (chain : List String) (path : String) (out : List Char) : Prop :=
  ∃ lx, store.splicedOn chain path = some lx ∧ ∀ n, (∀ file text, store.Opens chain path file text →
    text.toList.head? = some byteOrderMark → n = 0) → HasLexemes n out lx

/-! ### Lines -/

section Lines
variable {m n offset : Nat} {pre cs k imported : List Char} {line : List Char}
  {ls outs : List (List Char)} {ts us vs : List Token} {last : Token} {asked : ImportLine}
  {inner : ImportLine → Option (List Lexeme)} {lx : List Lexeme}

theorem Tokenizes.exists_scan (h : Tokenizes offset cs ts last) :
    ∃ t rest, scan offset cs = .ok (t, rest) := by
  obtain ⟨_, _, hs, hlast, -⟩ := h
  cases hs with
  | nil => exact ⟨last, [], hlast⟩
  | cons hscan => exact ⟨_, _, hscan⟩

theorem ImportsApart.mono (h : ImportsApart ts offset ls) (hsub : ∀ t ∈ us, t ∈ ts) :
    ImportsApart us offset ls := by
  induction ls generalizing offset with
  | nil => trivial
  | cons line ls ih =>
    obtain ⟨hline, hrest⟩ := h
    exact ⟨fun asked hread => ⟨(hline asked hread).1, fun t ht => (hline asked hread).2 t (hsub t ht)⟩,
      ih hrest⟩

theorem spliceLines_plain (h : ImportLine.read? line = none) :
    spliceLines inner offset (line :: ls) ts = spliceLines inner (offset + byteLength line) ls ts := by
  rw [spliceLines, h]

theorem spliceLines_asked (hread : ImportLine.read? line = some asked) (hinner : inner asked = some lx)
    (hus : ∀ t ∈ us, t.span.start < offset) (hvs : ∀ t ∈ vs, offset ≤ t.span.start) :
    spliceLines inner offset (line :: ls) (us ++ vs) =
      (spliceLines inner (offset + byteLength line) ls vs).map (us.map Token.lexeme ++ lx ++ ·) := by
  have hus' : ∀ t ∈ us, decide (t.span.start < offset) = true := by simpa using hus
  have hvs' : ∀ t ∈ vs.head?, decide (t.span.start < offset) = false := fun t ht => by
    simpa using hvs t (List.mem_of_mem_head? ht)
  have htake : vs.takeWhile (fun t => t.span.start < offset) = [] := by
    cases vs with
    | nil => rfl
    | cons t vs => rw [List.takeWhile_cons, hvs' t rfl]; rfl
  have hdrop : vs.dropWhile (fun t => t.span.start < offset) = vs := by
    cases vs with
    | nil => rfl
    | cons t vs => rw [List.dropWhile_cons, hvs' t rfl]; rfl
  rw [spliceLines, hread]
  simp only [hinner, List.takeWhile_append_of_pos hus', List.dropWhile_append_of_pos hus', htake, hdrop,
    List.append_nil]
  cases spliceLines inner (offset + byteLength line) ls vs <;> rfl

theorem replace_of_blank (hread : ImportLine.read? line = some asked)
    (hrest : asked.rest.all isBlank = true) (imported : List Char) :
    asked.replace imported = imported ++ ['\n'] ∨ asked.replace imported = imported ∧
      (line.getLast? = some '\n' → imported.getLast? = some '\n') := by
  obtain ⟨blanks, text, rfl, -, htext⟩ := ImportLine.read?_eq_some hread
  have hend : (blanks ++ '#' :: (text ++ asked.rest)).getLast? = some '\n' →
      asked.rest.getLast? = some '\n' := by
    intro hline
    rw [← List.cons_append, List.getLast?_append, List.getLast?_append] at hline
    cases hlast : asked.rest.getLast? with
    | some c => simpa [hlast] using hline
    | none =>
      -- the comment would have to end with the line feed
      exfalso
      cases htext' : text.getLast? with
      | none => simp [hlast, List.getLast?_cons, htext'] at hline
      | some c =>
        have hc := htext c (List.mem_of_getLast? htext')
        obtain rfl : c = '\n' := by simpa [hlast, List.getLast?_cons, htext'] using hline
        cases hc
  rw [ImportLine.replace, if_pos hrest]
  split_ifs with hlast
  · exact Or.inl rfl
  · exact Or.inr ⟨rfl, fun hline => by simpa [hend hline] using hlast⟩

theorem replace_ne_nil (hread : ImportLine.read? line = some asked)
    (hrest : asked.rest.all isBlank = true) (hline : line.getLast? = some '\n') (imported : List Char) :
    asked.replace imported ≠ [] := by
  rcases replace_of_blank hread hrest imported with ho | ⟨ho, hend⟩
  · simp [ho]
  · rw [ho]
    rintro rfl
    cases hend hline

theorem Tokenizes.cut_importLine (h : Tokenizes m (pre ++ (line ++ k)) ts last)
    (hread : ImportLine.read? line = some asked) (hpre : EndsLine pre)
    (hk : EndsLine line ∨ k = []) (hapart : ImportsApart ts (m + byteLength pre) (line :: ls)) :
    ∃ us vs, ts = us ++ vs ∧ Closed m pre us ∧
      Tokenizes (m + byteLength pre + byteLength line) k vs last ∧
      (∀ t ∈ us, t.span.start < m + byteLength pre) ∧ ∀ t ∈ vs, m + byteLength pre ≤ t.span.start := by
  obtain ⟨hrest, hts⟩ := hapart.1 asked hread
  obtain ⟨us, vs, rfl, hclosed, hvs, hus, hstarts⟩ := h.cut hpre rfl fun t ht htext =>
    (hts t ht htext).imp_right (Nat.le_trans (Nat.le_add_right _ _))
  obtain ⟨t, rest, hscan⟩ := hvs.exists_scan
  exact ⟨us, vs, rfl, hclosed, hvs.of_scan_eq (scan_importLine hread hrest hk hscan).symm, hus, hstarts⟩

theorem hasLexemes_replace {ks : List Lexeme} (hread : ImportLine.read? line = some asked)
    (hrest : asked.rest.all isBlank = true) (hk : line.getLast? = some '\n' ∨ k = [])
    (hpre : Closed n pre us) (himported : HasLexemes (n + byteLength pre) imported lx)
    (hks : HasLexemes (n + byteLength pre + byteLength (asked.replace imported)) k ks) :
    HasLexemes n (pre ++ (asked.replace imported ++ k)) (us.map Token.lexeme ++ lx ++ ks) := by
  obtain ⟨ts, last, hts, rfl⟩ := himported
  obtain ⟨vs, last', hvs, rfl⟩ := hks
  suffices hall : ∃ last'',
      Tokenizes (n + byteLength pre) (asked.replace imported ++ k) (ts ++ vs) last'' by
    obtain ⟨last'', hall⟩ := hall
    exact ⟨_, last'', hpre.extend hall, by simp⟩
  rcases replace_of_blank hread hrest imported with ho | ⟨ho, hend⟩
  · rw [ho] at hvs ⊢
    exact ⟨last', hts.closed_newline.extend hvs⟩
  · rw [ho] at hvs ⊢
    rcases hk with hline | rfl
    · exact ⟨last', (hts.closed (endsLine_of_getLast? (hend hline))).extend hvs⟩
    · obtain rfl := hvs.eq_nil
      exact ⟨last, by simpa using hts⟩

/-- One import line: what it asks for comes between the tokens in front of it and those of the lines behind
it. A byte-order mark matters at the start of the text alone, and this is in front of the line. -/
theorem exists_spliceLines_asked (hread : ImportLine.read? line = some asked)
    (hinner : inner asked = some lx) (hlx : ∀ k, HasLexemes k imported lx)
    (h : Tokenizes m (pre ++ (line ++ ls.flatten)) ts last) (hpre : EndsLine pre)
    (hline : line.getLast? = some '\n' ∨ ls = []) (houts : ls = [] → outs = [])
    (hapart : ImportsApart ts (m + byteLength pre) (line :: ls))
    (hmark : (pre ++ (line ++ ls.flatten)).head? = some byteOrderMark → (n = 0 ↔ m = 0))
    (hbehind : ∀ {vs k}, Tokenizes (m + byteLength pre + byteLength line) ls.flatten vs last →
      ImportsApart vs (m + byteLength pre + byteLength line) ls →
      (ls.flatten.head? = some byteOrderMark → (k = 0 ↔ m + byteLength pre + byteLength line = 0)) →
      ∃ ks, spliceLines inner (m + byteLength pre + byteLength line) ls vs = some ks ∧
        HasLexemes k outs.flatten ks) :
    ∃ lx, spliceLines inner (m + byteLength pre) (line :: ls) ts = some lx ∧
      HasLexemes n (pre ++ (asked.replace imported ++ outs.flatten)) lx := by
  obtain ⟨hrest, -⟩ := hapart.1 asked hread
  obtain ⟨us, vs, rfl, hus, hvs, hbefore, hlater⟩ := h.cut_importLine hread hpre
    (hline.imp endsLine_of_getLast? fun hnil => by rw [hnil, List.flatten_nil]) hapart
  obtain ⟨us', _, hus', hsame⟩ := hus.tokenizes.exists_at (n := n) fun hhead => hmark <| by
    rw [List.head?_append, hhead]
    rfl
  obtain ⟨ks, hks, hkslx⟩ := @hbehind _ (n + byteLength pre + byteLength (asked.replace imported)) hvs
    (hapart.2.mono fun t ht => List.mem_append_right us ht) fun hhead => by
      have hend := hline.resolve_right fun hnil => by rw [hnil] at hhead; cases hhead
      have := byteLength_pos (replace_ne_nil hread hrest hend imported)
      have : 0 < byteLength line := byteLength_pos (by rintro rfl; cases hend)
      omega
  refine ⟨us.map Token.lexeme ++ lx ++ ks, ?_, ?_⟩
  · rw [spliceLines_asked hread hinner hbefore hlater]
    exact congrArg (Option.map _) hks
  · rw [← hsame]
    exact hasLexemes_replace hread hrest (hline.imp_right fun hnil => by rw [houts hnil]; rfl)
      (hus'.closed hpre) (hlx _) hkslx

/-- **The lines of a text have its tokens**, with those of what is asked for in the places of import
lines. Lines that are already behind the last import line stand before the others. -/
theorem exists_spliceLines {f : List Char → Except ExpansionError (List Char)}
    (hplain : ∀ line, ImportLine.read? line = none → f line = .ok line)
    (hasked : ∀ line ∈ ls, ∀ asked o, ImportLine.read? line = some asked → f line = .ok o →
      ∃ imported lx, o = asked.replace imported ∧ inner asked = some lx ∧ ∀ k, HasLexemes k imported lx)
    (houts : List.Forall₂ (fun line o => f line = .ok o) ls outs)
    (h : Tokenizes m (pre ++ ls.flatten) ts last) (hpre : ls ≠ [] → EndsLine pre)
    (hends : ∀ line ∈ ls.dropLast, line.getLast? = some '\n')
    (hapart : ImportsApart ts (m + byteLength pre) ls)
    (hmark : (pre ++ ls.flatten).head? = some byteOrderMark → (n = 0 ↔ m = 0)) :
    ∃ lx, spliceLines inner (m + byteLength pre) ls ts = some lx ∧
      HasLexemes n (pre ++ outs.flatten) lx := by
  induction houts generalizing pre m n ts with
  | nil =>
    obtain ⟨us, last', hus, hlx⟩ := h.exists_at hmark
    exact ⟨_, rfl, us, last', hus, hlx⟩
  | @cons line o ls outs hline houts ih =>
    have hasked' := List.forall_mem_cons.mp hasked
    have hends' : ∀ line ∈ ls.dropLast, line.getLast? = some '\n' := fun l hl => by
      cases ls with
      | nil => cases hl
      | cons first rest => exact hends l (List.mem_cons_of_mem _ hl)
    have hend : ls ≠ [] → line.getLast? = some '\n' := fun hne => by
      obtain ⟨first, rest, rfl⟩ := List.exists_cons_of_ne_nil hne
      exact hends line List.mem_cons_self
    cases hread : ImportLine.read? line with
    | none =>
      cases (hplain line hread).symm.trans hline
      rw [spliceLines_plain hread, Nat.add_assoc, ← byteLength_append]
      have happend : ∀ ls : List (List Char), pre ++ (line :: ls).flatten = pre ++ line ++ ls.flatten :=
        fun ls => by simp
      rw [happend] at h hmark ⊢
      refine ih hasked'.2 h (fun hne => (hpre (by simp)).append fun c hc => ?_) hends' ?_ hmark
      · exact Option.some.inj (hc.symm.trans (hend hne))
      · rw [byteLength_append, ← Nat.add_assoc]
        exact hapart.2
    | some asked =>
      obtain ⟨imported, lx, rfl, hinner, hlx⟩ := hasked'.1 asked o hread hline
      rw [List.flatten_cons] at h hmark ⊢
      refine exists_spliceLines_asked hread hinner hlx h (hpre (by simp)) ?_ (fun hnil => ?_) hapart hmark
        fun hvs hapart' hmark' => ?_
      · by_cases hnil : ls = []
        · exact Or.inr hnil
        · exact Or.inl (hend hnil)
      · subst hnil
        cases houts
        rfl
      · have hvs' : Tokenizes _ ([] ++ ls.flatten) _ last := hvs
        exact ih hasked'.2 hvs' (fun _ => endsLine_nil) hends' hapart' hmark'

theorem exists_spliceLines_zero {f : List Char → Except ExpansionError (List Char)}
    (hplain : ∀ line, ImportLine.read? line = none → f line = .ok line)
    (hasked : ∀ line ∈ ls, ∀ asked o, ImportLine.read? line = some asked → f line = .ok o →
      ∃ imported lx, o = asked.replace imported ∧ inner asked = some lx ∧ ∀ k, HasLexemes k imported lx)
    (houts : List.Forall₂ (fun line o => f line = .ok o) ls outs) (h : Tokenizes 0 ls.flatten ts last)
    (hends : ∀ line ∈ ls.dropLast, line.getLast? = some '\n') (hapart : ImportsApart ts 0 ls)
    (hmark : ls.flatten.head? = some byteOrderMark → n = 0) :
    ∃ lx, spliceLines inner 0 ls ts = some lx ∧ HasLexemes n outs.flatten lx := by
  have h' : Tokenizes 0 ([] ++ ls.flatten) ts last := h
  exact exists_spliceLines hplain hasked houts h' (fun _ => endsLine_nil) hends hapart fun hhead => by
    simp [hmark hhead]

end Lines

/-! ### Files -/

namespace FileStore

section Files
variable {store : FileStore} {chain : List String} {path next file text : String} {out : List Char}
  {tokens : List Token}

theorem splicedOn_of_opens (h : store.Opens chain path file text)
    (htokens : Source.tokens ⟨text, none⟩ = .ok tokens) :
    store.splicedOn chain path = spliceLines
      (fun asked => store.splicedOn (file :: chain) (Path.join (Path.parent file) asked.target))
      0 (lines text.toList) tokens.dropLast := by
  obtain ⟨hresolve, hfresh, hread⟩ := h
  rw [splicedOn]
  split
  · next fault hfault => cases hresolve.symm.trans hfault
  · next file' hfile =>
    cases hresolve.symm.trans hfile
    rw [dif_neg hfresh, hread]
    dsimp only
    rw [htokens]
    rfl

theorem Spliceable.of_asks (h : store.Spliceable path) (hopen : store.Opens chain path file text) {i : Nat}
    (hasks : AsksAt file text i next) : store.Spliceable next :=
  ⟨fun f text' hf => h.tokens f text' (hf.of_asks hopen hasks),
    fun f f' text' hf => h.unmarked f f' text' (hf.of_asks hopen hasks)⟩

theorem Spliceable.unmarked_of_asks (h : store.Spliceable path) (hopen : store.Opens chain path file text)
    {i : Nat} (hasks : AsksAt file text i next) {chain' : List String} {file' text' : String}
    (hopen' : store.Opens chain' next file' text') : text'.toList.head? ≠ some byteOrderMark :=
  h.unmarked file file' text' ⟨file, hopen.resolve, .refl⟩
    ⟨text, i, next, hopen.read, hasks, hopen'.resolve⟩ hopen'.read

theorem Spliceable.exists_imported (h : store.Spliceable path) (hopen : store.Opens chain path file text)
    (hnext : ∀ next imported, store.expandOn (file :: chain) next = .ok imported → store.Spliceable next →
      store.SplicesTo (file :: chain) next imported) {line o : List Char} {asked : ImportLine}
    (hline : line ∈ lines text.toList) (hread : ImportLine.read? line = some asked)
    (ho : store.expandLine (file :: chain) file line = .ok o) :
    ∃ imported lx, o = asked.replace imported ∧
      store.splicedOn (file :: chain) (Path.join (Path.parent file) asked.target) = some lx ∧
      ∀ k, HasLexemes k imported lx := by
  obtain ⟨imported, himported, rfl⟩ := (expandLine_eq_ok hread).mp ho
  obtain ⟨i, hasks⟩ := exists_asksAt hline hread
  obtain ⟨lx, hlx, hall⟩ := hnext _ imported himported (h.of_asks hopen hasks)
  exact ⟨imported, lx, rfl, hlx, fun k => hall k fun _ _ hopen' hhead =>
    absurd hhead (h.unmarked_of_asks hopen hasks hopen')⟩

/-- **The expanded text of a file has the spliced lexemes.** -/
theorem splicesTo_of_expandOn (h : store.expandOn chain path = .ok out) (hs : store.Spliceable path) :
    store.SplicesTo chain path out := by
  induction hn : store.remaining chain using Nat.strong_induction_on generalizing chain path out with
  | _ n ih =>
    subst hn
    obtain ⟨file, text, outs, hopen, houts, rfl⟩ := expandOn_eq_ok.mp h
    obtain ⟨ts, hts, hapart⟩ := hs.tokens file text ⟨file, hopen.resolve, .refl⟩ hopen.read
    have hlt := remaining_lt (store.mem_known hopen.resolve) hopen.fresh
    rw [SplicesTo, splicedOn_of_opens hopen hts]
    obtain ⟨us, rfl, htext⟩ := Source.tokens_eq_ok hts
    rw [List.dropLast_concat]
    have hall : ∀ n, (text.toList.head? = some byteOrderMark → n = 0) →
        ∃ lx, spliceLines _ 0 (lines text.toList) us = some lx ∧ HasLexemes n outs.flatten lx :=
      fun n hmark => exists_spliceLines_zero (fun _ => expandLine_plain)
        (fun line hline asked o hread => hs.exists_imported hopen
          (fun _ _ h' hs' => ih _ hlt h' hs' rfl) hline hread) houts
        (by rw [flatten_lines]; exact htext) (fun line => getLast_of_mem_lines)
        (hapart.mono fun t ht => List.mem_append_left _ ht) (by rw [flatten_lines]; exact hmark)
    obtain ⟨lx, hlx, -⟩ := hall 0 fun _ => rfl
    refine ⟨lx, hlx, fun n hmark => ?_⟩
    obtain ⟨lx', hlx', hlexemes⟩ := hall n (hmark file text hopen)
    cases hlx.symm.trans hlx'
    exact hlexemes

theorem spliceable_of_known (h : ∀ file ∈ store.known, ∀ text ∈ (store.read file).toOption,
      text.toList.head? ≠ some byteOrderMark ∧ ∃ ts ∈ (Source.tokens ⟨text, none⟩).toOption,
        ImportsApart ts 0 (lines text.toList)) : store.Spliceable path := by
  have hread : ∀ {file text}, file ∈ store.known → store.read file = .ok text →
      text.toList.head? ≠ some byteOrderMark ∧ ∃ ts, Source.tokens ⟨text, none⟩ = .ok ts ∧
        ImportsApart ts 0 (lines text.toList) := by
    intro file text hknown hread
    obtain ⟨hmark, ts, hts, hapart⟩ := h file hknown text (by rw [hread]; rfl)
    cases htokens : Source.tokens ⟨text, none⟩ with
    | error e => rw [htokens] at hts; cases hts
    | ok us =>
      rw [htokens] at hts
      cases hts
      exact ⟨hmark, ts, rfl, hapart⟩
  refine ⟨fun file text hreach htext => (hread hreach.mem_known htext).2, ?_⟩
  rintro file file' text - ⟨_, i, p, -, -, hresolve⟩ htext
  exact (hread (store.mem_known hresolve) htext).1

end Files

end FileStore

end QueryDocs
