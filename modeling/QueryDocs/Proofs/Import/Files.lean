import QueryDocs.Proofs.Import.Routes
import QueryDocs.Proofs.Outcomes

/-! # Expansion of one file

The expanded text of a file is put together from what takes the place of its lines, the files of these
lines being expanded on the chain of this file (`FileStore.expandOn_of_opens`); it fails with the first
line that cannot be expanded (`FileStore.expandOn_eq_error`). -/

namespace QueryDocs

open QueryDocs.Text

/-! ### Lines of a file -/

namespace FileStore

/-- What takes the place of a line of a file, where the files of a chain are being expanded. -/
def expandLine (store : FileStore) (chain : List String) (file : String) (line : List Char) :
    Except ExpansionError (List Char) :=
  match ImportLine.read? line with
  | none => .ok line
  | some asked =>
    (store.expandOn chain (Path.join (Path.parent file) asked.target)).map asked.replace

section Expansion
variable {store : FileStore} {chain : List String} {path file text : String} {line out : List Char}
  {asked : ImportLine} {e : ExpansionError}

theorem expandLine_plain (h : ImportLine.read? line = none) :
    store.expandLine chain file line = .ok line := by
  rw [expandLine, h]

theorem expandLine_asked (h : ImportLine.read? line = some asked) :
    store.expandLine chain file line =
      (store.expandOn chain (Path.join (Path.parent file) asked.target)).map asked.replace := by
  rw [expandLine, h]

/-- What takes the place of an import line is made of the text that the line asks for. -/
theorem expandLine_eq_ok (h : ImportLine.read? line = some asked) :
    store.expandLine chain file line = .ok out ↔
      ∃ imported, store.expandOn chain (Path.join (Path.parent file) asked.target) = .ok imported ∧
        out = asked.replace imported := by
  rw [expandLine_asked h, map_eq_ok]

theorem expandOn_of_fails (h : store.Fails chain path e) : store.expandOn chain path = .error e := by
  rw [expandOn]
  split
  · next fault hresolve =>
    cases h <;> simp_all
  · next file hresolve =>
    split
    · cases h <;> simp_all
    · cases h <;> simp_all

/-- **The expanded text of a file is that of its lines.** -/
theorem expandOn_of_opens (h : store.Opens chain path file text) :
    store.expandOn chain path =
      ((lines text.toList).mapM (store.expandLine (file :: chain) file)).map List.flatten := by
  obtain ⟨hresolve, hfresh, hread⟩ := h
  rw [expandOn]
  split
  · next fault hfault => cases hresolve.symm.trans hfault
  · next file' hfile =>
    cases hresolve.symm.trans hfile
    rw [dif_neg hfresh, hread]
    exact (@map_eq_pure_bind (Except ExpansionError) _ _ _ _ List.flatten
      ((lines text.toList).mapM (store.expandLine (file :: chain) file))).symm

/-- A file is expanded where each of its lines is. -/
theorem expandOn_eq_ok : store.expandOn chain path = .ok out ↔
    ∃ file text outs, store.Opens chain path file text ∧
      List.Forall₂ (fun line o => store.expandLine (file :: chain) file line = .ok o)
        (lines text.toList) outs ∧ out = outs.flatten := by
  rcases store.opens_or_fails chain path with ⟨file, text, hopen⟩ | ⟨e, hfails⟩
  · rw [expandOn_of_opens hopen]
    constructor
    · intro h
      obtain ⟨outs, houts, rfl⟩ := map_eq_ok.mp h
      exact ⟨file, text, outs, hopen, mapM_eq_ok.mp houts, rfl⟩
    · rintro ⟨file', text', outs, hopen', houts, rfl⟩
      obtain ⟨rfl, rfl⟩ := hopen.unique hopen'
      rw [mapM_eq_ok.mpr houts]
      rfl
  · rw [expandOn_of_fails hfails]
    constructor
    · intro h
      cases h
    · rintro ⟨file, text, outs, hopen, -⟩
      exact absurd hfails hopen.not_fails

/-- The expanded text of a file around what takes the place of an import line. -/
theorem exists_expandOn_split {before after : List (List Char)} (h : store.expandOn chain path = .ok out)
    (hopen : store.Opens chain path file text) (hlines : lines text.toList = before ++ line :: after)
    (hread : ImportLine.read? line = some asked) : ∃ os imported k,
      List.Forall₂ (fun line o => store.expandLine (file :: chain) file line = .ok o) before os ∧
      store.expandOn (file :: chain) (Path.join (Path.parent file) asked.target) = .ok imported ∧
      out = os.flatten ++ (asked.replace imported ++ k) := by
  obtain ⟨file', text', outs, hopen', houts, rfl⟩ := expandOn_eq_ok.mp h
  obtain ⟨rfl, rfl⟩ := hopen.unique hopen'
  rw [hlines] at houts
  obtain ⟨os, _, rfl, hos, hrest⟩ := exists_of_forall₂_append houts
  cases hrest with
  | @cons _ o _ rest ho _ =>
    obtain ⟨imported, himported, rfl⟩ := (expandLine_eq_ok hread).mp ho
    exact ⟨os, imported, rest.flatten, hos, himported, by rw [List.flatten_append, List.flatten_cons]⟩

theorem exists_expandOn_of_asks (h : store.expandOn chain path = .ok out)
    (hopen : store.Opens chain path file text) {i : Nat} {next : String}
    (hasks : AsksAt file text i next) : ∃ o, store.expandOn (file :: chain) next = .ok o := by
  obtain ⟨file', text', outs, hopen', houts, -⟩ := expandOn_eq_ok.mp h
  obtain ⟨rfl, rfl⟩ := hopen.unique hopen'
  obtain ⟨line, asked, hline, hread, rfl⟩ := hasks
  obtain ⟨o, -, ho⟩ := exists_of_forall₂ houts (List.mem_of_getElem? hline)
  obtain ⟨imported, himported, -⟩ := (expandLine_eq_ok hread).mp ho
  exact ⟨imported, himported⟩

/-- A file is not expanded where it cannot be opened, or where one of its lines cannot be expanded and
all lines before it can. -/
theorem expandOn_eq_error (h : store.expandOn chain path = .error e) :
    store.Fails chain path e ∨ ∃ file text i next, store.Opens chain path file text ∧
      AsksAt file text i next ∧ store.expandOn (file :: chain) next = .error e ∧
      ∀ j < i, ∀ path', AsksAt file text j path' →
        ∃ out, store.expandOn (file :: chain) path' = .ok out := by
  rcases store.opens_or_fails chain path with ⟨file, text, hopen⟩ | ⟨e', hfails⟩
  · rw [expandOn_of_opens hopen] at h
    obtain ⟨i, line, hline, he, hbefore⟩ := mapM_eq_error (map_eq_error.mp h)
    cases hread : ImportLine.read? line with
    | none => rw [expandLine_plain hread] at he; cases he
    | some asked =>
      rw [expandLine_asked hread, map_eq_error] at he
      refine Or.inr ⟨file, text, i, _, hopen, ⟨line, asked, hline, hread, rfl⟩, he, ?_⟩
      rintro j hj path' ⟨line', asked', hline', hread', rfl⟩
      obtain ⟨out, hout⟩ := hbefore j hj line' hline'
      obtain ⟨imported, himported, -⟩ := (expandLine_eq_ok hread').mp hout
      exact ⟨imported, himported⟩
  · rw [expandOn_of_fails hfails] at h
    cases h
    exact Or.inl hfails

end Expansion

end FileStore

end QueryDocs
