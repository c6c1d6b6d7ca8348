import QueryDocs.Files.Store
import QueryDocs.Proofs.Import.Lines

/-! # Expanded texts are expanded

Expansion replaces import lines by texts without such lines, but what stands behind the path of an import
line is kept as it is, behind the last line of what the import line asked for. These are the only places
where new import lines come about (`FileStore.importFree_expandOn`). A text without them is its own
expansion (`FileStore.expand_overwrite`). -/

namespace QueryDocs

open QueryDocs.Text

namespace FileStore

/-- In the expansion of the file that a path leads to, or of a file on the way, a text is put in front of
what stands behind the path of an import line, and this is more than blanks. -/
inductive Joins (store : FileStore) : List String → String → List Char → List Char → Prop where
  | here {chain : List String} {path file text : String} {line imported : List Char} {asked : ImportLine}
    (hopen : store.Opens chain path file text) (hline : line ∈ lines text.toList)
    (hread : ImportLine.read? line = some asked) (hrest : asked.rest.all isBlank = false)
    (himported : store.expandOn (file :: chain) (Path.join (Path.parent file) asked.target) =
      .ok imported) : Joins store chain path imported asked.rest
  | inside {chain : List String} {path file text next : String} {i : Nat} {imported rest : List Char}
    (hopen : store.Opens chain path file text) (hasks : AsksAt file text i next)
    (h : Joins store (file :: chain) next imported rest) : Joins store chain path imported rest

/-- No import line comes about where a text is put in front of what stands behind the path of another
one. -/
def Seamless (store : FileStore) (chain : List String) (path : String) : Prop :=
  ∀ imported rest, store.Joins chain path imported rest →
    ImportLine.read? (lastLine imported ++ rest) = none

section Reexpansion
variable {store : FileStore} {chain : List String} {path file text : String} {out line o : List Char}
  {ls os : List (List Char)}

theorem importFree_flatten
    (h : List.Forall₂ (fun line o => store.expandLine chain file line = .ok o) ls os)
    (hends : ∀ line ∈ ls.dropLast, line.getLast? = some '\n') :
    ImportFree os.flatten ↔ ∀ o ∈ os, ImportFree o := by
  induction h with
  | nil => exact ⟨fun _ => nofun, fun _ => nofun⟩
  | @cons line o ls os hline h ih =>
    rw [List.flatten_cons, List.forall_mem_cons]
    cases ls with
    | nil =>
      cases h
      simp
    | cons second ls =>
      rw [List.dropLast_cons_cons, List.forall_mem_cons] at hends
      rw [importFree_append (Or.inr (getLast_of_expandLine hline hends.1)), ih hends.2]

section Lines
variable (hopen : store.Opens chain path file text)
  (ih : ∀ next imported, store.expandOn (file :: chain) next = .ok imported →
    (ImportFree imported ↔ store.Seamless (file :: chain) next))
include hopen ih

theorem Seamless.importFree (h : store.Seamless chain path) (hline : line ∈ lines text.toList)
    (ho : store.expandLine (file :: chain) file line = .ok o) : ImportFree o := by
  have hends := notMem_dropLast_of_mem_lines hline
  cases hread : ImportLine.read? line with
  | none =>
    cases (expandLine_plain hread).symm.trans ho
    exact (importFree_line hends).mpr hread
  | some asked =>
    obtain ⟨imported, himported, rfl⟩ := (expandLine_eq_ok hread).mp ho
    obtain ⟨i, hasks⟩ := exists_asksAt hline hread
    refine (importFree_replace hread hends).mpr
      ⟨(ih _ _ himported).mpr fun b r hjoins => h b r (.inside hopen hasks hjoins), fun hrest => ?_⟩
    exact h _ _ (.here hopen hline hread hrest himported)

theorem seamless_of_importFree
    (h : ∀ line ∈ lines text.toList, ∃ o, store.expandLine (file :: chain) file line = .ok o ∧ ImportFree o) :
    store.Seamless chain path := by
  have hparts : ∀ {line asked}, line ∈ lines text.toList → ImportLine.read? line = some asked →
      ∃ imported, store.expandOn (file :: chain) (Path.join (Path.parent file) asked.target) =
        .ok imported ∧ ImportFree imported ∧ (asked.rest.all isBlank = false →
          ImportLine.read? (lastLine imported ++ asked.rest) = none) := by
    intro line asked hline hread
    obtain ⟨o, ho, hfree⟩ := h line hline
    obtain ⟨imported, himported, rfl⟩ := (expandLine_eq_ok hread).mp ho
    exact ⟨imported, himported,
      (importFree_replace hread (notMem_dropLast_of_mem_lines hline)).mp hfree⟩
  rintro b r (⟨hopen', hline, hread, hrest, himported⟩ | ⟨hopen', hasks, hjoins⟩)
  · obtain ⟨rfl, rfl⟩ := hopen.unique hopen'
    obtain ⟨imported, himported', -, hseam⟩ := hparts hline hread
    cases himported'.symm.trans himported
    exact hseam hrest
  · obtain ⟨rfl, rfl⟩ := hopen.unique hopen'
    obtain ⟨line, asked, hline, hread, rfl⟩ := hasks
    obtain ⟨imported, himported, hfree, -⟩ := hparts (List.mem_of_getElem? hline) hread
    exact (ih _ _ himported).mp hfree b r hjoins

end Lines

/-- **The expanded text of a file has an import line exactly if a text joins what stands behind the path of
an import line to one.** -/
theorem importFree_expandOn (h : store.expandOn chain path = .ok out) :
    ImportFree out ↔ store.Seamless chain path := by
  -- each file that is opened leaves fewer known files that are not on the chain
  induction hn : store.remaining chain using Nat.strong_induction_on generalizing chain path out with
  | _ n ih =>
    subst hn
    obtain ⟨file, text, os, hopen, hos, rfl⟩ := expandOn_eq_ok.mp h
    have ih' : ∀ next imported, store.expandOn (file :: chain) next = .ok imported →
        (ImportFree imported ↔ store.Seamless (file :: chain) next) := fun _ _ h' =>
      ih _ (remaining_lt (store.mem_known hopen.resolve) hopen.fresh) h' rfl
    rw [importFree_flatten hos fun _ => getLast_of_mem_lines]
    constructor
    · intro hfree
      refine seamless_of_importFree hopen ih' fun line hline => ?_
      obtain ⟨o, hmem, ho⟩ := exists_of_forall₂ hos hline
      exact ⟨o, ho, hfree o hmem⟩
    · intro hseamless o ho
      obtain ⟨line, hline, ho⟩ := exists_of_forall₂ hos.flip ho
      exact hseamless.importFree hopen ih' hline ho

/-- **A text without import lines is its own expansion.** -/
theorem expand_overwrite (hresolve : store.resolve path = .ok file) (hfile : store.resolve file = .ok file)
    (h : ImportFree text.toList) : (store.overwrite path text).expand path = .ok text := by
  have hopen : (store.overwrite path text).Opens [] path file text := by
    rw [overwrite, hresolve]
    exact ⟨hresolve, List.not_mem_nil, by simp [hfile]⟩
  have hplain : (lines text.toList).mapM ((store.overwrite path text).expandLine [file] file) =
      .ok (lines text.toList) :=
    mapM_eq_ok.mpr (List.forall₂_same.mpr fun line hline => expandLine_plain (h line hline))
  rw [expand, expandOn_of_opens hopen, hplain]
  simp [Except.map, flatten_lines]

theorem Joins.exists_line {imported rest : List Char} (h : store.Joins chain path imported rest) :
    ∃ file text line asked, store.Reaches path file ∧ store.read file = .ok text ∧
      line ∈ lines text.toList ∧ ImportLine.read? line = some asked ∧ asked.rest.all isBlank = false := by
  induction h with
  | here hopen hline hread hrest _ =>
    exact ⟨_, _, _, _, ⟨_, hopen.resolve, .refl⟩, hopen.read, hline, hread, hrest⟩
  | inside hopen hasks _ ih =>
    obtain ⟨file, text, line, asked, hreach, h⟩ := ih
    exact ⟨file, text, line, asked, hreach.of_asks hopen hasks, h⟩

/-- **Which expanded texts are free of import lines**, and so their own expansion. An import line is left
only where one comes about in front of what stands behind the path of another one, and so none is left
where nothing but blanks stands there. -/
theorem expand_expand (h : store.expand path = .ok text) :
    ((∀ line ∈ lines text.toList, ImportLine.read? line = none) ↔ store.Seamless [] path) ∧
    ((∀ file contents, store.Reaches path file → store.read file = .ok contents →
      ∀ line ∈ lines contents.toList, ∀ asked ∈ ImportLine.read? line, asked.rest.all isBlank = true) →
      store.Seamless [] path) ∧
    ((∀ f ∈ store.known, store.resolve f = .ok f) → store.Seamless [] path →
      (store.overwrite path text).expand path = .ok text) := by
  obtain ⟨out, hout, rfl⟩ := map_eq_ok.mp h
  have hfree : ImportFree (String.ofList out).toList ↔ store.Seamless [] path := by
    rw [String.toList_ofList]
    exact importFree_expandOn hout
  refine ⟨hfree, fun hblank b r hjoins => ?_, fun hknown hseamless => ?_⟩
  · obtain ⟨file, contents, line, asked, hreach, hread, hline, hasked, hrest⟩ := hjoins.exists_line
    cases hrest.symm.trans (hblank file contents hreach hread line hline asked hasked)
  · obtain ⟨file, _, _, hopen, -⟩ := expandOn_eq_ok.mp hout
    exact expand_overwrite hopen.resolve (hknown file (store.mem_known hopen.resolve))
      (hfree.mpr hseamless)

end Reexpansion

/-- What stands behind a path comes behind a text that breaks off in the middle of a line. -/
theorem expand_expand_comment :
    let store := Snapshot.store ⟨[("/a", .ok "/a"), ("/b", .ok "/b"), ("/c", .ok "/c")],
      [("/a", .ok "#import \"b\" # \"b\"\nquery A \x7b a \x7d\n"), ("/b", .ok "  #import \"c\""),
        ("/c", .ok "query C \x7b c \x7d #import")]⟩
    let text := "query C \x7b c \x7d #import # \"b\"\nquery A \x7b a \x7d\n"
    store.expand "/a" = .ok text ∧ store.Seamless [] "/a" ∧
      (store.overwrite "/a" text).expand "/a" = .ok text := by
  intro store text
  have h : store.expand "/a" = .ok text := by decide +kernel
  obtain ⟨hfree, -, hagain⟩ := expand_expand h
  have hseamless := hfree.mp (by decide +kernel)
  exact ⟨h, hseamless, hagain (by decide +kernel) hseamless⟩

/-- A file with two import lines in one line. -/
def twoImports : FileStore :=
  Snapshot.store ⟨[("/a", .ok "/a"), ("/b", .ok "/b"), ("/c", .ok "/c")],
    [("/a", .ok "#import \"b\"#import \"c\"\n"), ("/b", .ok ""), ("/c", .ok "query C \x7b c \x7d\n")]⟩

/-- The second one is left, and expanded the next time. -/
theorem expand_expand_twoImports : ∃ (store : FileStore) (path text : String),
    (∀ f ∈ store.known, store.resolve f = .ok f) ∧ store.expand path = .ok text ∧
      (∃ line ∈ lines text.toList, ImportLine.read? line ≠ none) ∧
        (store.overwrite path text).expand path ≠ .ok text := by
  have hagain : (twoImports.overwrite "/a" "#import \"c\"\n").expand "/a" =
      .ok "query C \x7b c \x7d\n" := by decide +kernel
  refine ⟨twoImports, "/a", "#import \"c\"\n", by decide +kernel, by decide +kernel,
    ⟨"#import \"c\"\n".toList, by decide +kernel, by decide +kernel⟩, ?_⟩
  rw [hagain]
  simp

end FileStore

end QueryDocs
