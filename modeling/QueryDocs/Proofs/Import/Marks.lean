import QueryDocs.Proofs.FirstFailure
import QueryDocs.Token.Scan

/-! # Byte-order marks in files

What a byte-order mark at the start of a file does to the expanded text. A file that is not opened makes
no difference (`FileStore.expandOn_mark_of_avoids`). A file that comes first, asked for by first lines
alone, and whose own first line asks for nothing puts the mark in front of the expanded text
(`FileStore.expandOn_mark_of_first`). -/

namespace QueryDocs

open QueryDocs.Text

/-- A text with a byte-order mark in front. -/
def withMark (text : String) : String := String.ofList (byteOrderMark :: text.toList)

namespace FileStore

/-- The store after a byte-order mark has been put at the start of a file. -/
def mark (store : FileStore) (file : String) : FileStore :=
  { store with
    read := fun path =>
      match store.resolve path with
      | .ok f => if f = file then (store.read path).map withMark else store.read path
      | .error _ => store.read path }

/-- A file is not opened where a path is expanded while the files of a chain are. -/
def Avoids (store : FileStore) (chain : List String) (path file : String) : Prop :=
  ∀ is chain' path', store.Route chain path is chain' path' → store.resolve path' = .ok file →
    file ∈ chain'

/-- The first line of a file asks for nothing. -/
def StartsPlain (store : FileStore) (file : String) : Prop :=
  ∀ text line, store.read file = .ok text → (lines text.toList).head? = some line →
    ImportLine.read? line = none

end FileStore

/-! ### Lines -/

section Lines
variable {asked : ImportLine} {cs line : List Char}

theorem lines_mark (cs : List Char) : lines (byteOrderMark :: cs) =
    (byteOrderMark :: (lines cs).headD []) :: (lines cs).tail := by
  rw [lines, if_neg (by decide)]
  cases lines cs <;> rfl

theorem ImportLine.read?_mark (line : List Char) : read? (byteOrderMark :: line) = none := by
  rw [read?, List.dropWhile_cons, if_neg (by decide)]
  rfl

theorem ImportLine.replace_mark (imported : List Char) :
    asked.replace (byteOrderMark :: imported) = byteOrderMark :: asked.replace imported := by
  have hlast : (byteOrderMark :: imported).getLast? = some '\n' ↔ imported.getLast? = some '\n' := by
    cases imported with
    | nil => decide
    | cons c cs => rw [List.getLast?_cons_cons]
  simp only [replace, ne_eq, hlast]
  split_ifs <;> rfl

end Lines

namespace FileStore

/-! ### Reading -/

section Mark
variable {store : FileStore} {chain chain' : List String} {file path path' f text : String}
  {is : List Nat} {e : ExpansionError} {out : List Char}

theorem read_mark_self (h : store.resolve path = .ok file) :
    (store.mark file).read path = (store.read path).map withMark := by
  simp only [mark, h, if_true]

theorem read_mark_of_ne (h : store.resolve path = .ok f) (hne : f ≠ file) :
    (store.mark file).read path = store.read path := by
  simp only [mark, h, if_neg hne]

/-- A byte-order mark in another file does not keep a file from being opened. -/
theorem Opens.mark (hknown : ∀ f ∈ store.known, store.resolve f = .ok f)
    (hopen : store.Opens chain path f text) (hne : f ≠ file) : (store.mark file).Opens chain path f text :=
  ⟨hopen.resolve, hopen.fresh,
    (read_mark_of_ne (hknown f (store.mem_known hopen.resolve)) hne).trans hopen.read⟩

theorem startsPlain_of_read (hread : store.read file = .ok text)
    (h : ∀ line ∈ (lines text.toList).head?, ImportLine.read? line = none) : store.StartsPlain file := by
  intro text' line hread' hline
  cases hread.symm.trans hread'
  exact h line hline

theorem Route.subset (h : store.Route chain path is chain' path') : chain ⊆ chain' := by
  induction h with
  | here => exact List.Subset.refl _
  | step _ _ _ ih => exact fun g hg => ih (List.mem_cons_of_mem _ hg)

/-- Where an expansion succeeds, no line of a file leads back to it. -/
theorem Route.eq_nil (hroute : store.Route chain path is chain' path')
    (h : store.expandOn chain path = .ok out) (hresolve : store.resolve path = .ok file)
    (hresolve' : store.resolve path' = .ok file) : is = [] := by
  cases hroute with
  | here => rfl
  | step hopen hasks hrest =>
    cases hresolve.symm.trans hopen.resolve
    exact absurd ⟨chain', path', .step hopen hasks hrest,
      .cycle hresolve' (hrest.subset List.mem_cons_self)⟩ (not_failsAt_of_expandOn h)

theorem avoids_of_mem (h : file ∈ chain) : store.Avoids chain path file :=
  fun _ _ _ hroute _ => hroute.subset h

theorem Avoids.of_asks (h : store.Avoids chain path file) (hopen : store.Opens chain path f text)
    {i : Nat} {next : String} (hasks : AsksAt f text i next) : store.Avoids (f :: chain) next file :=
  fun _ _ _ hroute hresolve => h _ _ _ (.step hopen hasks hroute) hresolve

theorem mapM_congr {α β ε : Type} {g g' : α → Except ε β} {xs : List α}
    (h : ∀ x ∈ xs, g x = g' x) : xs.mapM g = xs.mapM g' := by
  induction xs with
  | nil => rfl
  | cons x xs ih =>
    obtain ⟨hx, hxs⟩ := List.forall_mem_cons.mp h
    rw [List.mapM_cons, List.mapM_cons, hx, ih hxs]

/-! ### Files that are not opened -/

theorem expandLine_congr {store' : FileStore} {line : List Char}
    (h : ∀ asked, ImportLine.read? line = some asked →
      store'.expandOn chain (Path.join (Path.parent f) asked.target) =
        store.expandOn chain (Path.join (Path.parent f) asked.target)) :
    store'.expandLine chain f line = store.expandLine chain f line := by
  cases hread : ImportLine.read? line with
  | none => rw [expandLine_plain hread, expandLine_plain hread]
  | some asked => rw [expandLine_asked hread, expandLine_asked hread, h asked hread]

/-- **A file that is not opened makes no difference.** -/
theorem expandOn_mark_of_avoids (hknown : ∀ f ∈ store.known, store.resolve f = .ok f)
    (h : store.Avoids chain path file) :
    (store.mark file).expandOn chain path = store.expandOn chain path := by
  induction hn : store.remaining chain using Nat.strong_induction_on generalizing chain path with
  | _ n ih =>
    subst hn
    -- the file that is opened or cannot be read is another one
    have hne : ∀ f, store.resolve path = .ok f → f ∉ chain → f ≠ file := by
      rintro f hresolve hfresh rfl
      exact hfresh (h _ _ _ (.here _ _) hresolve)
    rcases store.opens_or_fails chain path with ⟨f, text, hopen⟩ | ⟨e, hfails⟩
    · have hopen' := hopen.mark hknown (hne f hopen.resolve hopen.fresh)
      have hlt := remaining_lt (store.mem_known hopen.resolve) hopen.fresh
      rw [expandOn_of_opens hopen, expandOn_of_opens hopen']
      refine congrArg _ (mapM_congr fun line hline => expandLine_congr fun asked hasked => ?_)
      obtain ⟨i, hasks⟩ := exists_asksAt hline hasked
      exact ih _ hlt (h.of_asks hopen hasks) rfl
    · have hfails' : (store.mark file).Fails chain path e := by
        cases hfails with
        | nowhere hresolve => exact .nowhere hresolve
        | cycle hresolve hmem => exact .cycle hresolve hmem
        | @unreadable f _ hresolve hfresh hfault =>
          refine .unreadable hresolve hfresh (Eq.trans ?_ hfault)
          exact read_mark_of_ne (hknown f (store.mem_known hresolve)) (hne f hresolve hfresh)
      rw [expandOn_of_fails hfails, expandOn_of_fails hfails']

/-! ### Routes -/

theorem asksAt_of_withMark {i : Nat} (h : AsksAt f (withMark text) i path) : AsksAt f text i path := by
  obtain ⟨line, asked, hline, hread, rfl⟩ := h
  rw [withMark, String.toList_ofList, lines_mark] at hline
  cases i with
  | zero =>
    cases hline
    rw [ImportLine.read?_mark] at hread
    cases hread
  | succ i => exact ⟨line, asked, by rwa [List.getElem?_cons_succ, List.getElem?_tail] at hline, hread, rfl⟩

theorem exists_opens_of_mark (h : (store.mark file).Opens chain path f text) :
    ∃ text', store.Opens chain path f text' ∧ (text = text' ∨ text = withMark text') := by
  obtain ⟨hresolve, hfresh, hread⟩ := h
  simp only [mark] at hread
  split at hread
  · split_ifs at hread with hf
    · obtain ⟨text', htext', rfl⟩ := map_eq_ok.mp hread
      exact ⟨text', ⟨hresolve, hfresh, htext'⟩, Or.inr rfl⟩
    · exact ⟨text, ⟨hresolve, hfresh, hread⟩, Or.inl rfl⟩
  · exact ⟨text, ⟨hresolve, hfresh, hread⟩, Or.inl rfl⟩

theorem Route.of_mark (h : (store.mark file).Route chain path is chain' path') :
    store.Route chain path is chain' path' := by
  induction h with
  | here => exact .here _ _
  | step hopen hasks _ ih =>
    obtain ⟨text', hopen', rfl | rfl⟩ := exists_opens_of_mark hopen
    · exact .step hopen' hasks ih
    · exact .step hopen' (asksAt_of_withMark hasks) ih

/-- A byte-order mark keeps no text from being expanded. -/
theorem exists_expandOn_mark (h : store.expandOn chain path = .ok out) :
    ∃ out', (store.mark file).expandOn chain path = .ok out' := by
  rw [expandOn_ok_iff]
  rintro is e ⟨chain', path', hroute, hfails⟩
  suffices hfails' : store.Fails chain' path' e from
    not_failsAt_of_expandOn h ⟨chain', path', hroute.of_mark, hfails'⟩
  cases hfails with
  | nowhere hresolve => exact .nowhere hresolve
  | cycle hresolve hmem => exact .cycle hresolve hmem
  | @unreadable f _ hresolve hfresh hread =>
    refine .unreadable hresolve hfresh ?_
    simp only [mark] at hread
    split at hread
    · split_ifs at hread
      · exact map_eq_error.mp hread
      · exact hread
    · exact hread

/-! ### A file that comes first -/

/-- A file is not opened again while it is being expanded. -/
theorem expandLine_mark_of_mem (hknown : ∀ f ∈ store.known, store.resolve f = .ok f) (h : file ∈ chain)
    (line : List Char) : (store.mark file).expandLine chain f line = store.expandLine chain f line :=
  expandLine_congr fun _ _ => expandOn_mark_of_avoids hknown (avoids_of_mem h)

theorem expandOn_mark_self (hknown : ∀ f ∈ store.known, store.resolve f = .ok f)
    (hplain : store.StartsPlain file) (hresolve : store.resolve path = .ok file)
    (h : store.expandOn chain path = .ok out) :
    (store.mark file).expandOn chain path = .ok (byteOrderMark :: out) := by
  obtain ⟨f, text, outs, hopen, houts, rfl⟩ := expandOn_eq_ok.mp h
  cases hresolve.symm.trans hopen.resolve
  have hread : (store.mark file).read file = .ok (withMark text) := by
    rw [read_mark_self (hknown file (store.mem_known hresolve)), hopen.read]
    rfl
  refine expandOn_eq_ok.mpr ⟨file, withMark text, (byteOrderMark :: outs.headD []) :: outs.tail,
    ⟨hresolve, hopen.fresh, hread⟩, ?_, ?_⟩
  · rw [withMark, String.toList_ofList, lines_mark]
    have hmarked : (store.mark file).expandLine (file :: chain) file
        (byteOrderMark :: (lines text.toList).headD []) = .ok _ :=
      expandLine_plain (ImportLine.read?_mark _)
    cases hl : lines text.toList with
    | nil =>
      rw [hl] at houts hmarked
      cases houts
      exact .cons hmarked .nil
    | cons line rest =>
      rw [hl] at houts hmarked
      cases houts with
      | @cons _ o _ os ho hos =>
        have hline : ImportLine.read? line = none := hplain text line hopen.read (by rw [hl]; rfl)
        rw [expandLine_plain hline] at ho
        cases ho
        refine .cons hmarked (hos.imp fun l o hlo => ?_)
        rwa [expandLine_mark_of_mem hknown List.mem_cons_self]
  · cases outs <;> rfl

/-- **A file that comes first puts its byte-order mark in front of the expanded text.** -/
theorem expandOn_mark_of_first (hknown : ∀ f ∈ store.known, store.resolve f = .ok f)
    (hplain : store.StartsPlain file) (hroute : store.Route chain path is chain' path')
    (hresolve : store.resolve path' = .ok file)
    (hfirst : ∀ js chain'' path'', store.Route chain path js chain'' path'' →
      store.resolve path'' = .ok file → ∀ j ∈ js, j = 0)
    (h : store.expandOn chain path = .ok out) :
    (store.mark file).expandOn chain path = .ok (byteOrderMark :: out) := by
  induction hroute generalizing out with
  | here => exact expandOn_mark_self hknown hplain hresolve h
  | @step chain chain' path f text next path' i is hopen hasks hrest ih =>
    by_cases hf : f = file
    · exact expandOn_mark_self hknown hplain (hf ▸ hopen.resolve) h
    · have hfirst' : ∀ {j : Nat} {next' : String}, AsksAt f text j next' → ∀ js chain'' path'',
          store.Route (f :: chain) next' js chain'' path'' → store.resolve path'' = .ok file →
          j = 0 ∧ ∀ k ∈ js, k = 0 := fun hasks' js _ _ hroute' hresolve' =>
        List.forall_mem_cons.mp (hfirst (_ :: js) _ _ (.step hopen hasks' hroute') hresolve')
      obtain rfl := (hfirst' hasks _ _ _ hrest hresolve).1
      obtain ⟨f', text', outs, hopen', houts, rfl⟩ := expandOn_eq_ok.mp h
      obtain ⟨rfl, rfl⟩ := hopen.unique hopen'
      obtain ⟨before, line, rest, asked, hl, hbefore, hread, rfl⟩ := hasks.exists_split
      obtain rfl := List.length_eq_zero_iff.mp hbefore
      rw [List.nil_append] at hl
      rw [hl] at houts
      cases houts with
      | @cons _ o _ os ho hos =>
        obtain ⟨imported, himported, rfl⟩ := (expandLine_eq_ok hread).mp ho
        refine expandOn_eq_ok.mpr ⟨f, text, (byteOrderMark :: asked.replace imported) :: os,
          hopen.mark hknown hf, ?_, rfl⟩
        rw [hl]
        refine .cons ?_ (mapM_eq_ok.mp ?_)
        · rw [expandLine_asked hread,
            ih hresolve (fun js _ _ hr hf' => (hfirst' hasks js _ _ hr hf').2) himported]
          exact congrArg Except.ok (ImportLine.replace_mark imported)
        · -- no other line leads to the file
          rw [← mapM_eq_ok.mpr hos]
          refine mapM_congr fun l hmem => expandLine_congr fun asked' hread' =>
            expandOn_mark_of_avoids hknown fun js _ _ hroute' hresolve' => ?_
          obtain ⟨k, hk⟩ := List.getElem?_of_mem hmem
          have hasks' : AsksAt f text (k + 1) _ := ⟨l, asked', by rw [hl]; exact hk, hread', rfl⟩
          cases (hfirst' hasks' js _ _ hroute' hresolve').1

end Mark

end FileStore

end QueryDocs
