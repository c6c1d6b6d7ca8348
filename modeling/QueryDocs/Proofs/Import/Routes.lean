import Mathlib.Data.List.Lex
import Mathlib.Logic.Relation
import Mathlib.Tactic.Common
import QueryDocs.Import.Expansion

/-! # Routes along import lines

Expansion follows the import lines of a file, and those of each file that they ask for. A `Route` is a
sequence of such lines, each given by its number in the text of its file; it leads to a path that is
asked for while the files of a chain are being expanded. Routes are short (`Route.length_le`), and the
files of the chain ask for one another (`Route.transGen`). -/

namespace QueryDocs.FileStore

open QueryDocs.Text

/-! ### Lines, files and routes -/

/-- A line of a text asks for a path, as seen from the file with this text. -/
def AsksAt (file text : String) (i : Nat) (path : String) : Prop :=
  ∃ line asked, (lines text.toList)[i]? = some line ∧ ImportLine.read? line = some asked ∧
    path = Path.join (Path.parent file) asked.target

/-- A path leads to a file that is not on a chain and has a text. -/
structure Opens (store : FileStore) (chain : List String) (path file text : String) : Prop where
  resolve : store.resolve path = .ok file
  fresh : file ∉ chain
  read : store.read file = .ok text

/-- A path leads to no file, to a file of a chain or to a file without a text. -/
inductive Fails (store : FileStore) (chain : List String) (path : String) : ExpansionError → Prop where
  | nowhere {fault : FileFault} (h : store.resolve path = .error fault) :
    Fails store chain path (.unreadable path fault)
  | cycle {file : String} (h : store.resolve path = .ok file) (hmem : file ∈ chain) :
    Fails store chain path (.cycle path)
  | unreadable {file : String} {fault : FileFault} (h : store.resolve path = .ok file)
    (hfresh : file ∉ chain) (hread : store.read file = .error fault) :
    Fails store chain path (.unreadable file fault)

/-- Import lines lead from a path, asked for on a chain, to a path that is asked for on a longer one.
Each line is told by its number. -/
inductive Route (store : FileStore) :
    List String → String → List Nat → List String → String → Prop where
  | here (chain : List String) (path : String) : Route store chain path [] chain path
  | step {chain chain' : List String} {path file text next path' : String} {i : Nat} {is : List Nat}
    (hopen : store.Opens chain path file text) (hasks : AsksAt file text i next)
    (h : Route store (file :: chain) next is chain' path') :
    Route store chain path (i :: is) chain' path'

/-- A file has a line that asks for another file. -/
def Imports (store : FileStore) (file file' : String) : Prop :=
  ∃ text i path, store.read file = .ok text ∧ AsksAt file text i path ∧
    store.resolve path = .ok file'

/-- A path leads to a file directly or over import lines. -/
def Reaches (store : FileStore) (path file : String) : Prop :=
  ∃ root, store.resolve path = .ok root ∧ Relation.ReflTransGen store.Imports root file

section Routes
variable {store : FileStore} {chain chain' chain'' : List String} {i : Nat} {is : List Nat}
  {path path' path'' file file' text text' : String} {e e' : ExpansionError}

theorem exists_asksAt {line : List Char} {asked : ImportLine} (hline : line ∈ lines text.toList)
    (hread : ImportLine.read? line = some asked) :
    ∃ i, AsksAt file text i (Path.join (Path.parent file) asked.target) := by
  obtain ⟨i, hi⟩ := List.getElem?_of_mem hline
  exact ⟨i, line, asked, hi, hread, rfl⟩

theorem AsksAt.unique (h : AsksAt file text i path) (h' : AsksAt file text i path') : path = path' := by
  obtain ⟨line, asked, hline, hread, rfl⟩ := h
  obtain ⟨line', asked', hline', hread', rfl⟩ := h'
  cases hline.symm.trans hline'
  cases hread.symm.trans hread'
  rfl

/-- A line that asks for a path stands behind as many lines as its number says. -/
theorem AsksAt.exists_split (h : AsksAt file text i path) : ∃ before line after asked,
    lines text.toList = before ++ line :: after ∧ before.length = i ∧
      ImportLine.read? line = some asked ∧ path = Path.join (Path.parent file) asked.target := by
  obtain ⟨line, asked, hline, hread, rfl⟩ := h
  obtain ⟨hi, rfl⟩ := List.getElem?_eq_some_iff.mp hline
  refine ⟨(lines text.toList).take i, _, (lines text.toList).drop (i + 1), asked, ?_, ?_, hread, rfl⟩
  · rw [← List.drop_eq_getElem_cons, List.take_append_drop]
  · rw [List.length_take, Nat.min_eq_left hi.le]

theorem Opens.unique (h : store.Opens chain path file text) (h' : store.Opens chain path file' text') :
    file = file' ∧ text = text' := by
  cases h.resolve.symm.trans h'.resolve
  cases h.read.symm.trans h'.read
  exact ⟨rfl, rfl⟩

/-- A path either opens a file or fails. -/
theorem opens_or_fails (store : FileStore) (chain : List String) (path : String) :
    (∃ file text, store.Opens chain path file text) ∨ ∃ e, store.Fails chain path e := by
  cases hresolve : store.resolve path with
  | error fault => exact Or.inr ⟨_, .nowhere hresolve⟩
  | ok file =>
    by_cases hmem : file ∈ chain
    · exact Or.inr ⟨_, .cycle hresolve hmem⟩
    · cases hread : store.read file with
      | error fault => exact Or.inr ⟨_, .unreadable hresolve hmem hread⟩
      | ok text => exact Or.inl ⟨file, text, hresolve, hmem, hread⟩

theorem Opens.not_fails (h : store.Opens chain path file text) : ¬ store.Fails chain path e := by
  obtain ⟨hresolve, hfresh, hread⟩ := h
  rintro (h | ⟨h, hmem⟩ | ⟨h, -, hfault⟩)
  · cases hresolve.symm.trans h
  · cases hresolve.symm.trans h
    exact hfresh hmem
  · cases hresolve.symm.trans h
    cases hread.symm.trans hfault

theorem Fails.unique (h : store.Fails chain path e) (h' : store.Fails chain path e') : e = e' := by
  cases h <;> cases h' <;> simp_all

/-- The numbers of its lines tell where a route leads. -/
theorem Route.unique (h : store.Route chain path is chain' path')
    (h' : store.Route chain path is chain'' path'') : chain' = chain'' ∧ path' = path'' := by
  induction h with
  | here =>
    cases h'
    exact ⟨rfl, rfl⟩
  | step hopen hasks _ ih =>
    cases h' with
    | step hopen' hasks' h' =>
      obtain ⟨rfl, rfl⟩ := hopen.unique hopen'
      obtain rfl := hasks.unique hasks'
      exact ih h'

/-- Each line of a route leads to a file that was not on the chain before. -/
theorem Route.length_add_le (h : store.Route chain path is chain' path') :
    is.length + store.remaining chain' ≤ store.remaining chain := by
  induction h with
  | here => simp
  | step hopen _ _ ih =>
    have := remaining_lt (store.mem_known hopen.resolve) hopen.fresh
    rw [List.length_cons]
    omega

/-- **A route has no more lines than the store has files.** -/
theorem Route.length_le (h : store.Route [] path is chain path') : is.length ≤ store.known.length := by
  have hle : store.remaining [] ≤ store.known.length := List.length_filter_le _ _
  have := h.length_add_le
  omega

theorem Route.snoc (h : store.Route chain path is chain' path')
    (hopen : store.Opens chain' path' file text) (hasks : AsksAt file text i path'') :
    store.Route chain path (is ++ [i]) (file :: chain') path'' := by
  induction h with
  | here => exact .step hopen hasks (.here _ _)
  | step hopen' hasks' _ ih => exact .step hopen' hasks' (ih hopen)

/-- Every file on the chain of a route asks, directly or not, for the file at its end. -/
theorem Route.transGen (h : store.Route chain path is chain' path')
    (hchain : ∀ g ∈ chain, ∀ f, store.resolve path = .ok f → Relation.TransGen store.Imports g f) :
    ∀ g ∈ chain', ∀ f, store.resolve path' = .ok f → Relation.TransGen store.Imports g f := by
  induction h with
  | here => exact hchain
  | @step chain chain' path file text next path' i is hopen hasks _ ih =>
    refine ih fun g hg f hf => ?_
    have himports : store.Imports file f := ⟨text, i, next, hopen.read, hasks, hf⟩
    rcases List.mem_cons.mp hg with rfl | hg
    · exact .single himports
    · exact (hchain g hg file hopen.resolve).tail himports

/-- What a path that a file asks for reaches is reached by a path to the file. -/
theorem Reaches.of_asks (hopen : store.Opens chain path file' text) (hasks : AsksAt file' text i path')
    (h : store.Reaches path' file) : store.Reaches path file := by
  obtain ⟨root, hroot, hreach⟩ := h
  exact ⟨file', hopen.resolve, .head ⟨text, i, path', hopen.read, hasks, hroot⟩ hreach⟩

theorem Route.reaches (h : store.Route chain path is chain' path')
    (hresolve : store.resolve path' = .ok file) : store.Reaches path file := by
  induction h with
  | here => exact ⟨file, hresolve, .refl⟩
  | step hopen hasks _ ih => exact (ih hresolve).of_asks hopen hasks

theorem Reaches.mem_known (h : store.Reaches path file) : file ∈ store.known := by
  obtain ⟨root, hroot, hrest⟩ := h
  rcases Relation.ReflTransGen.cases_tail hrest with rfl | ⟨f, -, text, i, next, -, -, hnext⟩
  · exact store.mem_known hroot
  · exact store.mem_known hnext

end Routes

end QueryDocs.FileStore
