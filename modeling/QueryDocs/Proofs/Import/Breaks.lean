import Mathlib.Data.Nat.Find
import QueryDocs.Proofs.Import.Lines
import QueryDocs.Proofs.Import.Marks

/-! # Byte-order marks inside a text

A byte-order mark stands for nothing at the start of a text and is an error anywhere else, save in strings
and comments. Put at the start of a file that is asked for from any line but the first one, it ends up
where a token should start, and the expanded text has no tokens (`FileStore.breaks_expandOn_mark`). -/

namespace QueryDocs

open QueryDocs.Text

/-- A byte-order mark stands in a text, not at its start, where a token should start. -/
def Breaks (offset : Nat) (cs : List Char) : Prop :=
  ∃ as k ts, cs = as ++ byteOrderMark :: k ∧ Closed offset as ts ∧ 0 < offset + byteLength as

section Breaks
variable {offset : Nat} {as cs imported : List Char} {ts : List Token} {asked : ImportLine}

/-- A byte-order mark anywhere else starts no token. -/
theorem scan_mark_of_pos (h : 0 < offset) (cs : List Char) :
    ∃ e, scan offset (byteOrderMark :: cs) = .error e := by
  have hskip : skipTrivia false offset (byteOrderMark :: cs) = (offset, byteOrderMark :: cs) := by
    have hpos : (offset == 0) = false := by simpa using Nat.ne_of_gt h
    rw [skipTrivia, if_neg (by simp), if_neg (by decide), hpos, if_neg (by decide)]
  rw [scan, hskip]
  cases hscan : scanToken offset byteOrderMark cs with
  | error e => exact ⟨e, hscan⟩
  | ok p => exact absurd rfl (scanToken_byteOrderMark hscan)

theorem Breaks.of_mark (h : 0 < offset) (cs : List Char) : Breaks offset (byteOrderMark :: cs) :=
  ⟨[], cs, [], rfl, fun _ => ⟨_, _, .nil _ _, rfl⟩, h⟩

theorem Breaks.append (h : Breaks (offset + byteLength as) cs) (has : Closed offset as ts) :
    Breaks offset (as ++ cs) := by
  obtain ⟨bs, k, us, rfl, hbs, hpos⟩ := h
  refine ⟨as ++ bs, k, ts ++ us, by simp, has.append hbs, ?_⟩
  rwa [byteLength_append, ← Nat.add_assoc]

theorem Breaks.extend (h : Breaks offset cs) (k : List Char) : Breaks offset (cs ++ k) := by
  obtain ⟨as, k', ts, rfl, has, hpos⟩ := h
  exact ⟨as, k' ++ k, ts, by simp, has, hpos⟩

theorem Breaks.replace (h : Breaks offset imported) : Breaks offset (asked.replace imported) := by
  rw [ImportLine.replace]
  split_ifs
  · exact h.extend _
  · exact h
  · exact h.extend _

/-- Behind a byte-order mark at the start a text is read as behind other characters. -/
theorem Closed.mark (h : Closed byteOrderMark.utf8Size as ts) : Closed 0 (byteOrderMark :: as) ts := by
  intro k
  obtain ⟨n, rest, hs, hscan⟩ := h k
  rw [byteLength_cons, Nat.zero_add, ← hscan, List.cons_append]
  cases hs with
  | nil => exact ⟨_, _, .nil _ _, scan_mark _⟩
  | cons hfirst he hs => exact ⟨n, rest, .cons ((scan_mark _).trans hfirst) he hs, rfl⟩

/-- **Such a text has no tokens.** -/
theorem Breaks.tokens {s : Source} (h : Breaks 0 s.chars) : ∃ e, s.tokens = .error e := by
  obtain ⟨as, k, ts, hchars, has, hpos⟩ := h
  obtain ⟨n, rest, hs, hscan⟩ := has (byteOrderMark :: k)
  obtain ⟨e, he⟩ := scan_mark_of_pos hpos k
  rw [← hchars] at hs
  obtain ⟨limit, hl, hstream⟩ := hs.ofChars (Nat.lt_succ_self _)
  obtain ⟨limit, rfl⟩ : ∃ l, limit = l + 1 := ⟨limit - 1, by omega⟩
  refine ⟨e, ?_⟩
  rw [Source.tokens, TokenStream.ofSource, hstream, TokenStream.toList_prepend, TokenStream.ofChars, hscan,
    he]
  rfl

end Breaks

/-! ### Lines before a file -/

section Lines
variable {offset : Nat} {before after ls : List (List Char)} {ts : List Token}

theorem ImportsApart.append (h : ImportsApart ts offset (before ++ after)) :
    ImportsApart ts offset before ∧ ImportsApart ts (offset + byteLength before.flatten) after := by
  induction before generalizing offset with
  | nil => exact ⟨trivial, h⟩
  | cons line before ih =>
    obtain ⟨hbefore, hafter⟩ := ih h.2
    rw [List.flatten_cons, byteLength_append, ← Nat.add_assoc]
    exact ⟨⟨h.1, hbefore⟩, hafter⟩

theorem EndsLine.flatten (h : ∀ cs ∈ ls, cs.getLast? = some '\n') : EndsLine ls.flatten := by
  induction ls with
  | nil => exact endsLine_nil
  | cons cs ls ih =>
    obtain ⟨hcs, hls⟩ := List.forall_mem_cons.mp h
    exact (endsLine_of_getLast? hcs).append (ih hls)

end Lines

/-! ### Files -/

namespace FileStore

/-- A line of a file leads to another file, and this does not come first in a text in which the file stands
at an offset. -/
def LeadsBehind (store : FileStore) (chain : List String) (f text file : String) (offset i : Nat) : Prop :=
  ∃ next is chain' path', AsksAt f text i next ∧ store.Route (f :: chain) next is chain' path' ∧
    store.resolve path' = .ok file ∧ (0 < offset ∨ i ≠ 0 ∨ ∃ j ∈ is, j ≠ 0)

section Files
variable {store : FileStore} {chain chain' : List String} {file f path path' text : String} {n offset i : Nat}
  {is : List Nat} {out out' line : List Char} {before after os os' : List (List Char)} {asked : ImportLine}

/-- What takes the place of the lines before an import line is closed. -/
theorem Spliceable.exists_closed_outs (hs : store.Spliceable path) (hopen : store.Opens chain path f text)
    (hlines : lines text.toList = before ++ line :: after) (hread : ImportLine.read? line = some asked)
    (houts : List.Forall₂ (fun line o => store.expandLine (f :: chain) f line = .ok o) before os)
    (hmark : before.flatten.head? = some byteOrderMark → n = 0) :
    ∃ us, Closed n os.flatten us ∧ (before ≠ [] → os.flatten ≠ []) := by
  obtain ⟨ts, hts, hapart⟩ := hs.tokens f text ⟨f, hopen.resolve, .refl⟩ hopen.read
  obtain ⟨us, rfl, htokens⟩ := Source.tokens_eq_ok hts
  have hchars : Source.chars ⟨text, none⟩ = before.flatten ++ (line ++ after.flatten) := by
    rw [Source.chars, ← flatten_lines text.toList, hlines, List.flatten_append, List.flatten_cons]
  rw [hchars] at htokens
  rw [hlines] at hapart
  obtain ⟨hbefore, hafter⟩ := hapart.append
  have hends : ∀ l ∈ before, l.getLast? = some '\n' := fun l hl => by
    have hmem : l ∈ (lines text.toList).dropLast := by
      rw [hlines, List.dropLast_append_of_ne_nil (by simp)]
      exact List.mem_append_left _ hl
    exact getLast_of_mem_lines hmem
  obtain ⟨us₁, us₂, rfl, hclosed, -⟩ := htokens.cut (.flatten hends) rfl fun t ht htext =>
    ((hafter.1 asked hread).2 t (List.mem_append_left _ ht) htext).imp_right
      (Nat.le_trans (Nat.le_add_right _ _))
  obtain ⟨lx, -, us', last', hus', -⟩ := exists_spliceLines_zero (fun _ => expandLine_plain)
    (fun l hl _ _ => hs.exists_imported hopen (fun _ _ h' hs' => splicesTo_of_expandOn h' hs')
      (by rw [hlines]; exact List.mem_append_left _ hl)) houts hclosed.tokenizes
    (fun l hl => hends l (List.dropLast_subset _ hl))
    (hbefore.mono fun t ht => List.mem_append_left _ (List.mem_append_left _ ht)) hmark
  have houtends : ∀ o ∈ os, o.getLast? = some '\n' := fun o ho => by
    obtain ⟨l, hl, ho⟩ := exists_of_forall₂ houts.flip ho
    exact getLast_of_expandLine ho (hends l hl)
  refine ⟨us', hus'.closed (.flatten houtends), fun hne => ?_⟩
  cases houts with
  | nil => exact absurd rfl hne
  | cons ho hos =>
    intro hnil
    rw [(List.append_eq_nil_iff.mp hnil).1] at houtends
    cases houtends [] List.mem_cons_self

/-- A line that does not lead to a file is left alone by a byte-order mark in it. -/
theorem expandLine_mark_of_not_leads (hknown : ∀ f ∈ store.known, store.resolve f = .ok f)
    (hline : (lines text.toList)[i]? = some line) (hi : 0 < offset ∨ i ≠ 0)
    (hnone : ¬ store.LeadsBehind chain f text file offset i) :
    (store.mark file).expandLine (f :: chain) f line = store.expandLine (f :: chain) f line := by
  refine expandLine_congr fun asked hread => expandOn_mark_of_avoids hknown fun is _ _ hroute hresolve => ?_
  have hasks : AsksAt f text i _ := ⟨line, asked, hline, hread, rfl⟩
  exact absurd ⟨_, is, _, _, hasks, hroute, hresolve, hi.imp_right Or.inl⟩ hnone

/-- What takes the place of a first line that leads to a file over first lines alone starts with the mark in
this file. -/
theorem expandLine_mark_of_first (hknown : ∀ f ∈ store.known, store.resolve f = .ok f)
    (hplain : store.StartsPlain file) (hline : (lines text.toList)[0]? = some line)
    (hnone : ¬ store.LeadsBehind chain f text file 0 0) {o o' : List Char}
    (ho : store.expandLine (f :: chain) f line = .ok o)
    (ho' : (store.mark file).expandLine (f :: chain) f line = .ok o') :
    o' = o ∨ o' = byteOrderMark :: o ∧ line.head? ≠ some byteOrderMark := by
  cases hread : ImportLine.read? line with
  | none =>
    rw [expandLine_plain hread] at ho ho'
    cases ho
    cases ho'
    exact Or.inl rfl
  | some asked =>
    obtain ⟨imported, himported, rfl⟩ := (expandLine_eq_ok hread).mp ho
    obtain ⟨imported', himported', rfl⟩ := (expandLine_eq_ok hread).mp ho'
    by_cases havoids : store.Avoids (f :: chain) (Path.join (Path.parent f) asked.target) file
    · rw [expandOn_mark_of_avoids hknown havoids, himported] at himported'
      cases himported'
      exact Or.inl rfl
    · simp only [Avoids, not_forall] at havoids
      obtain ⟨js, chain', path', hroute, hresolve, -⟩ := havoids
      have hasks : AsksAt f text 0 _ := ⟨line, asked, hline, hread, rfl⟩
      have hmarked := expandOn_mark_of_first hknown hplain hroute hresolve (fun ks _ _ hr hf => by
        by_contra hks
        exact hnone ⟨_, ks, _, _, hasks, hr, hf, by simpa using hks⟩) himported
      cases hmarked.symm.trans himported'
      refine Or.inr ⟨ImportLine.replace_mark imported, fun hhead => ?_⟩
      obtain ⟨cs, rfl⟩ := List.head?_eq_some_iff.mp hhead
      rw [ImportLine.read?_mark] at hread
      cases hread

/-- What takes the place of the lines before the first one that leads behind something to a file is closed,
with a byte-order mark at the start of this file, too. -/
theorem exists_closed_outs_mark (hknown : ∀ f ∈ store.known, store.resolve f = .ok f)
    (hplain : store.StartsPlain file) (hs : store.Spliceable path) (hopen : store.Opens chain path f text)
    (hlines : lines text.toList = before ++ line :: after) (hread : ImportLine.read? line = some asked)
    (houts : List.Forall₂ (fun line o => store.expandLine (f :: chain) f line = .ok o) before os)
    (houts' : List.Forall₂ (fun line o => (store.mark file).expandLine (f :: chain) f line = .ok o)
      before os')
    (hnone : ∀ i < before.length, ¬ store.LeadsBehind chain f text file offset i)
    (hmark : before.flatten.head? = some byteOrderMark → offset = 0) :
    ∃ us, Closed offset os'.flatten us ∧ (before ≠ [] → os'.flatten ≠ []) := by
  have hsame : ∀ i, 0 < offset ∨ i ≠ 0 → ∀ l, before[i]? = some l →
      (store.mark file).expandLine (f :: chain) f l = store.expandLine (f :: chain) f l := fun i hi l hl => by
    obtain ⟨hlt, -⟩ := List.getElem?_eq_some_iff.mp hl
    have hline : (lines text.toList)[i]? = some l := by rw [hlines, List.getElem?_append_left hlt, hl]
    exact expandLine_mark_of_not_leads hknown hline hi (hnone i hlt)
  cases houts with
  | nil =>
    cases houts'
    exact hs.exists_closed_outs hopen hlines hread .nil hmark
  | @cons l o ls os ho hos =>
    cases houts' with
    | @cons _ o' _ os' ho' hos' =>
      -- behind the first line nothing changes
      obtain rfl : os' = os := by
        have hrest : ls.mapM ((store.mark file).expandLine (f :: chain) f) =
            ls.mapM (store.expandLine (f :: chain) f) := mapM_congr fun l' hl' => by
          obtain ⟨i, hi⟩ := List.getElem?_of_mem hl'
          exact hsame (i + 1) (Or.inr (Nat.succ_ne_zero i)) l' hi
        rw [mapM_eq_ok.mpr hos', mapM_eq_ok.mpr hos] at hrest
        exact Except.ok.inj hrest
      have hclosed := fun n => hs.exists_closed_outs (n := n) hopen hlines hread (.cons ho hos)
      rcases Nat.eq_zero_or_pos offset with rfl | hpos
      · have hl : (lines text.toList)[0]? = some l := by rw [hlines]; rfl
        rcases expandLine_mark_of_first hknown hplain hl (hnone 0 (by simp)) ho ho' with rfl | ⟨rfl, hhead⟩
        · exact hclosed 0 hmark
        · obtain ⟨us, hus, -⟩ := hclosed byteOrderMark.utf8Size fun hmarked => by
            have hne : l ≠ [] := ne_nil_of_mem_lines (List.mem_of_getElem? hl)
            obtain ⟨c, cs, rfl⟩ := List.exists_cons_of_ne_nil hne
            exact absurd hmarked hhead
          exact ⟨us, hus.mark, fun _ => by simp⟩
      · obtain rfl : o' = o := by
          rw [hsame 0 (Or.inl hpos) l rfl, ho] at ho'
          exact (Except.ok.inj ho').symm
        exact hclosed offset hmark

/-- **A file that is asked for behind something breaks the expanded text with a byte-order mark.** -/
theorem breaks_expandOn_mark (hknown : ∀ f ∈ store.known, store.resolve f = .ok f)
    (hplain : store.StartsPlain file) (hs : store.Spliceable path)
    (h : store.expandOn chain path = .ok out) (h' : (store.mark file).expandOn chain path = .ok out')
    (hroute : store.Route chain path is chain' path') (hresolve : store.resolve path' = .ok file)
    (hbehind : 0 < offset ∨ ∃ i ∈ is, i ≠ 0)
    (hmark : ∀ f text, store.Opens chain path f text →
      text.toList.head? = some byteOrderMark → offset = 0) : Breaks offset out' := by
  induction hn : store.remaining chain using Nat.strong_induction_on
    generalizing chain path out out' is offset chain' path' with
  | _ n ih =>
    subst hn
    obtain ⟨f, text, -, hopen, -, -⟩ := expandOn_eq_ok.mp h
    by_cases hf : f = file
    · subst hf
      have hnil := hroute.eq_nil h hopen.resolve hresolve
      rw [expandOn_mark_self hknown hplain hopen.resolve h] at h'
      cases h'
      exact .of_mark (by simpa [hnil] using hbehind) _
    · cases hroute with
      | here => exact absurd (Except.ok.inj (hopen.resolve.symm.trans hresolve)) hf
      | @step _ _ _ f' text' next _ i is hopen' hasks hrest =>
        obtain ⟨rfl, rfl⟩ := hopen.unique hopen'
        -- the first line that leads behind something to the file
        obtain ⟨j, ⟨next, js, chain'', path'', hasks, hrest, hresolve, hbehind⟩, hfirst⟩ :
            ∃ j, store.LeadsBehind chain f text file offset j ∧
              ∀ k < j, ¬ store.LeadsBehind chain f text file offset k := by
          classical
          have hex : ∃ j, store.LeadsBehind chain f text file offset j :=
            ⟨i, next, is, chain', path', hasks, hrest, hresolve, by simpa using hbehind⟩
          exact ⟨Nat.find hex, Nat.find_spec hex, fun k => Nat.find_min hex⟩
        obtain ⟨before, line, after, asked, hlines, rfl, hread, rfl⟩ := hasks.exists_split
        obtain ⟨os, imported, k, hos, himported, -⟩ := exists_expandOn_split h hopen hlines hread
        obtain ⟨os', imported', k', hos', himported', rfl⟩ :=
          exists_expandOn_split h' (hopen.mark hknown hf) hlines hread
        have hhead : before.flatten.head? = some byteOrderMark → offset = 0 := fun hhead => by
          refine hmark f text hopen ?_
          rw [← flatten_lines text.toList, hlines, List.flatten_append, List.head?_append, hhead]
          rfl
        obtain ⟨us, hus, hne⟩ :=
          exists_closed_outs_mark hknown hplain hs hopen hlines hread hos hos' hfirst hhead
        have hbehind' : 0 < offset + byteLength os'.flatten ∨ ∃ k ∈ js, k ≠ 0 := by
          rcases hbehind with hpos | hj | hjs
          · exact Or.inl (by omega)
          · have := byteLength_pos (hne (List.ne_nil_of_length_pos (Nat.pos_of_ne_zero hj)))
            exact Or.inl (by omega)
          · exact Or.inr hjs
        have hbreaks := ih _ (remaining_lt (store.mem_known hopen.resolve) hopen.fresh)
          (hs.of_asks hopen hasks) himported himported' hrest hresolve hbehind'
          (fun _ _ hopen' hhead' => absurd hhead' (hs.unmarked_of_asks hopen hasks hopen')) rfl
        exact (hbreaks.replace.extend _).append hus

end Files

end FileStore

end QueryDocs
