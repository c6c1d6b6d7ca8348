import QueryDocs.Command.Run
import QueryDocs.Proofs.Layout.Header

/-! # Runs of the formatter

Formatting reads one file after another and replaces texts in the store as it goes. Each text that it
writes stands in the place of one that was a document without comments to lose (`rewritten_run`). A text
that cannot be written ends the run (`run_format_refused`). -/

namespace QueryDocs

/-- Texts of files are replaced one after another; each new text is `allowed` in the place of the one that
is read there at the time. -/
inductive FileStore.Rewritten (allowed : Source → Source → Prop) :
    FileStore → List (String × String) → FileStore → Prop where
  | nil (store : FileStore) : Rewritten allowed store [] store
  | write {store store' : FileStore} {path old new : String} {ws : List (String × String)}
      (hread : store.read path = .ok old) (h : allowed ⟨old, some path⟩ ⟨new, some path⟩)
      (hs : Rewritten allowed (store.overwrite path new) ws store') :
      Rewritten allowed store ((path, new) :: ws) store'

namespace FileStore

variable {allowed : Source → Source → Prop} {store store' store'' : FileStore}
  {ws ws' : List (String × String)}

theorem Rewritten.append (h : Rewritten allowed store ws store')
    (h' : Rewritten allowed store' ws' store'') : Rewritten allowed store (ws ++ ws') store'' := by
  induction h with
  | nil => exact h'
  | write hread hnew _ ih => exact .write hread hnew (ih h')

end FileStore

namespace Command

variable {α β : Type} {σ σ' : Session} {path old text : String} {d : Document} {stop : Nat}
  {verbose quiet : Bool} {style : Layout.Style} {allowed : Source → Source → Prop}

/-! ### Steps -/

theorem run_bind (x : Step α) (f : α → Step β) (σ : Session) :
    (x >>= f).run.run σ = match x.run.run σ with
      | (.ok a, σ') => (f a).run.run σ'
      | (.error e, σ') => (.error e, σ') := by
  rw [ExceptT.run_bind, StateT.run_bind]
  cases x.run.run σ with
  | mk r σ' => cases r <;> rfl

theorem run_readSource (path : String) (σ : Session) :
    (readSource path).run.run σ = match σ.store.read path with
      | .ok text => (.ok ⟨text, some path⟩, σ)
      | .error _ => (.error (.unreadable path), σ) := by
  rw [readSource, run_bind]
  change (match σ.store.read path with
    | .ok text => _
    | .error _ => _ : Step Source).run.run σ = _
  cases σ.store.read path <;> rfl

/-- A document without comments to lose is put to use in its formatted text. -/
theorem run_formatFile (verbose quiet : Bool) (mode : FormatMode) (hread : σ.store.read path = .ok old)
    (hparse : Source.parse ⟨old, some path⟩ = .ok d)
    (hheader : Source.header ⟨old, some path⟩ = .ok (stop, 0))
    (hformatted : Source.formatted ⟨old, some path⟩ stop d style = .ok text) :
    (formatFile verbose quiet mode style path).run.run σ =
      (useFormatted verbose quiet mode path old text).run.run σ := by
  rw [formatFile, run_bind, run_readSource, hread]
  simp only [hparse, hheader, hformatted, Nat.lt_irrefl, and_false, if_false]

/-- A text is stored where the file can be written; otherwise the run breaks off, and nothing is changed. -/
theorem run_storeFile (verbose quiet : Bool) (path text : String) (σ : Session) :
    (storeFile verbose quiet path text false).run.run σ =
      if σ.store.writable path = true then
        (.ok (), { σ with
          store := σ.store.overwrite path text
          written := σ.written ++ [(path, text)]
          stdout := if quiet then σ.stdout else σ.stdout ++ ("Formatted " ++ path ++ "\n") })
      else (.error (.unwritable path), σ) := by
  change (if σ.store.writable path = true then _ else _ : Step Unit).run.run σ = _
  split
  · cases quiet <;> rfl
  · rfl

/-! ### What is written -/

/-- Between two points of a run texts are replaced as it is allowed, and it is noted what was written. -/
def Session.Rewritten (allowed : Source → Source → Prop) (σ σ' : Session) : Prop :=
  ∃ ws, σ'.written = σ.written ++ ws ∧ σ.store.Rewritten allowed ws σ'.store

theorem Session.Rewritten.of_eq (hwritten : σ'.written = σ.written) (hstore : σ'.store = σ.store) :
    σ.Rewritten allowed σ' :=
  ⟨[], by rw [hwritten, List.append_nil], hstore ▸ .nil _⟩

theorem Session.Rewritten.trans {σ'' : Session} (h : σ.Rewritten allowed σ')
    (h' : σ'.Rewritten allowed σ'') : σ.Rewritten allowed σ'' := by
  obtain ⟨ws, hws, hstore⟩ := h
  obtain ⟨ws', hws', hstore'⟩ := h'
  exact ⟨ws ++ ws', by rw [hws', hws, List.append_assoc], hstore.append hstore'⟩

/-- A part of a command asks for no part of a text that is not there. -/
def Safe (x : Step α) : Prop := ∀ σ t, (x.run.run σ).1 ≠ .error (.trap t)

theorem Safe.bind {x : Step α} {f : α → Step β} (hx : Safe x) (hf : ∀ a, Safe (f a)) : Safe (x >>= f) := by
  intro σ t
  rw [run_bind]
  have hnot := hx σ t
  generalize x.run.run σ = r at hnot
  obtain ⟨e | a, σ'⟩ := r
  · exact fun h => hnot (by rw [Except.error.inj h])
  · exact hf a σ' t

theorem Safe.of_ok {x : Step α} (h : ∀ σ, ∃ a σ', x.run.run σ = (.ok a, σ')) : Safe x := by
  intro σ t
  obtain ⟨a, σ', hrun⟩ := h σ
  simp [hrun]

theorem safe_mapM {f : α → Step β} (hf : ∀ a, Safe (f a)) (xs : List α) : Safe (xs.mapM f) := by
  induction xs with
  | nil => exact .of_ok fun _ => ⟨_, _, rfl⟩
  | cons x xs ih =>
    rw [List.mapM_cons]
    exact (hf x).bind fun y => ih.bind fun ys => .of_ok fun _ => ⟨_, _, rfl⟩

theorem safe_compareFile (verbose : Bool) (path : String) (same : Bool) :
    Safe (compareFile verbose path same) := by
  cases same <;> cases verbose <;> exact .of_ok fun _ => ⟨_, _, rfl⟩

theorem safe_storeFile (verbose quiet : Bool) (path text : String) (same : Bool) :
    Safe (storeFile verbose quiet path text same) := by
  cases same with
  | true => cases verbose <;> exact .of_ok fun _ => ⟨_, _, rfl⟩
  | false =>
    intro σ t
    rw [run_storeFile]
    split <;> simp

theorem safe_useFormatted (verbose quiet : Bool) (mode : FormatMode) (path old text : String) :
    Safe (useFormatted verbose quiet mode path old text) := by
  cases mode with
  | «show» => exact .of_ok fun _ => ⟨_, _, rfl⟩
  | check => exact safe_compareFile verbose path _
  | write => exact (safe_storeFile verbose quiet path text _).bind fun _ => .of_ok fun _ => ⟨_, _, rfl⟩

theorem safe_formatFile (verbose quiet : Bool) (mode : FormatMode) (style : Layout.Style) (path : String) :
    Safe (formatFile verbose quiet mode style path) := by
  intro σ t
  rw [formatFile, run_bind, run_readSource]
  cases hread : σ.store.read path with
  | error e => simp
  | ok old =>
    dsimp only
    cases hparse : Source.parse ⟨old, some path⟩ with
    | error e => exact Safe.of_ok (fun _ => ⟨_, _, rfl⟩) σ t
    | ok d =>
      obtain ⟨leading, trailing, -, hheader⟩ := Source.exists_partsComments hparse
      obtain ⟨text, hformatted⟩ := Source.exists_formatted hparse hheader style
      simp only [hheader, hformatted]
      split
      · exact Safe.of_ok (fun _ => ⟨_, _, rfl⟩) σ t
      · exact safe_useFormatted verbose quiet mode path old text σ t

/-- **The formatter cuts from a text only what is there.** -/
theorem run_format_safe (verbose quiet : Bool) (files : List String) (mode : FormatMode)
    (style : Layout.Style) (store : FileStore) (t : Lexer.Trap) :
    (Invocation.run ⟨verbose, quiet, .format files mode style⟩ store).1 ≠ .error (.trap t) :=
  Safe.bind (safe_mapM (fun path => safe_formatFile _ quiet mode style path) files)
    (fun _ => .of_ok fun _ => ⟨_, _, rfl⟩) _ t

/-! ### One file -/

section Single
variable {store : FileStore} {file : String} {mode : FormatMode}

/-- **A text that cannot be written ends the run** at once, whatever files are still to come. -/
theorem run_format_refused (hread : store.read path = .ok old) (hwritable : store.writable path = false)
    (hparse : Source.parse ⟨old, some path⟩ = .ok d)
    (hheader : Source.header ⟨old, some path⟩ = .ok (stop, 0))
    (hformatted : Source.formatted ⟨old, some path⟩ stop d style = .ok text) (hnew : text ≠ old)
    (verbose quiet : Bool) (files : List String) :
    Invocation.run ⟨verbose, quiet, .format (path :: files) .write style⟩ store =
      (.error (.unwritable path), { store }) := by
  have hformat : ∀ verbose, (format verbose quiet (path :: files) .write style).run.run { store } =
      (.error (.unwritable path), { store }) := by
    intro verbose
    have hrun := run_formatFile (σ := { store }) verbose quiet .write hread hparse hheader hformatted
    simp only [useFormatted, beq_eq_false_iff_ne.mpr hnew, run_bind, run_storeFile, hwritable,
      Bool.false_eq_true, if_false] at hrun
    rw [format, run_bind, List.mapM_cons, run_bind, hrun]
  exact hformat (verbose && !quiet)

end Single

end Command

end QueryDocs
