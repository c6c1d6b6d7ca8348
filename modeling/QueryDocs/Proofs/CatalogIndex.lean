import Mathlib.Data.List.Induction
import Mathlib.Tactic.Common
import QueryDocs.Catalog
import QueryDocs.Files.Store

/-! # What a catalog answers

A catalog is an index of the records that were added to it, whatever calls they came with: it groups them
by file (`groups_ofList`), in the order in which the files come first, and each question to it is answered
as by a search through the list of all records (`indexes_run`). -/

namespace QueryDocs.Catalog

/-- What a catalog answers if it is an index of some records. -/
structure Indexes (c : Catalog) (rs : List OperationRecord) : Prop where
  files : c.files = (rs.map (·.file)).eraseDups
  toList : c.toList = c.files.flatMap fun f => rs.filter (·.file = f)
  inFile : ∀ f, c.inFile f = rs.filter (·.file = f)
  size : c.size = rs.length
  isEmpty : c.isEmpty = true ↔ rs = []
  find : ∀ f, c.find? f = rs.find? (·.file = f)
  findInFile : ∀ f n, c.findInFile? f n = rs.find? fun r => r.file = f ∧ r.name = some n
  findExact : ∀ f n t, c.findExact? f n t = rs.find? fun r => r.file = f ∧ r.name = some n ∧ r.type = t
  findNamed : ∀ n, c.findNamed? n = c.toList.find? (·.name = some n)
  findTyped : ∀ n t, c.findTyped? n t = c.toList.find? fun r => r.name = some n ∧ r.type = t
  findAll : ∀ n, c.findAll n = c.toList.filter (·.name = some n)

/-! ### Groups -/

/-- The records of a file among some records. -/
def group (rs : List OperationRecord) (file : String) : FileOperations :=
  ⟨file, rs.filter (·.file = file)⟩

@[simp] theorem group_name (rs : List OperationRecord) (file : String) : (group rs file).name = file := rfl

section Groups
variable {r : OperationRecord} {rs : List OperationRecord} {fs : List String} {file : String}

theorem nodup_eraseDups (fs : List String) : fs.eraseDups.Nodup := by
  induction fs using List.reverseRecOn with
  | nil => exact List.nodup_nil
  | append_singleton fs f ih =>
    rw [List.eraseDups_append]
    by_cases hf : f ∈ fs
    · simpa [List.removeAll, hf] using ih
    · simpa [List.removeAll, hf, List.eraseDups_cons, List.nodup_append, ih]
        using fun g hg => ne_of_mem_of_not_mem hg hf

theorem insertInto_of_mem (hfs : fs.Nodup) (h : r.file ∈ fs) :
    insertInto r (fs.map (group rs)) = fs.map (group (rs ++ [r])) := by
  -- a record of another file is none of a group
  have hother : ∀ f, r.file ≠ f → group (rs ++ [r]) f = group rs f := fun f hf => by simp [group, hf]
  induction fs with
  | nil => cases h
  | cons f fs ih =>
    obtain ⟨hnew, hfs⟩ := List.nodup_cons.mp hfs
    rw [List.map_cons, List.map_cons, insertInto]
    by_cases hf : f = r.file
    · subst hf
      have hrest : fs.map (group (rs ++ [r])) = fs.map (group rs) :=
        List.map_congr_left fun g hg => hother g (ne_of_mem_of_not_mem hg hnew).symm
      rw [if_pos (group_name rs _), hrest]
      simp [group]
    · have hmem : r.file ∈ fs := (List.mem_cons.mp h).resolve_left (Ne.symm hf)
      rw [group_name, if_neg hf, ih hfs hmem, hother f (Ne.symm hf)]

theorem insertInto_of_not_mem {gs : List FileOperations} (h : r.file ∉ gs.map (·.name)) :
    insertInto r gs = gs ++ [⟨r.file, [r]⟩] := by
  induction gs with
  | nil => rfl
  | cons g gs ih =>
    rw [List.map_cons, List.mem_cons, not_or] at h
    rw [insertInto, if_neg (Ne.symm h.1), ih h.2, List.cons_append]

theorem ofList_concat (rs : List OperationRecord) (r : OperationRecord) :
    ofList (rs ++ [r]) = (ofList rs).insert r := by
  rw [ofList, extend, List.foldl_append]
  rfl

/-- **Records are grouped by file**, in the order in which the files come first. -/
theorem groups_ofList (rs : List OperationRecord) :
    (ofList rs).groups = (rs.map (·.file)).eraseDups.map (group rs) := by
  induction rs using List.reverseRecOn with
  | nil => rfl
  | append_singleton rs r ih =>
    rw [ofList_concat, insert, ih, List.map_append, List.eraseDups_append]
    by_cases hr : r.file ∈ rs.map (·.file)
    · have hold : ([r].map (·.file)).removeAll (rs.map (·.file)) = [] := by
        simpa [List.removeAll] using hr
      rw [hold, List.eraseDups_nil, List.append_nil]
      exact insertInto_of_mem (nodup_eraseDups _) (List.mem_eraseDups.mpr hr)
    · have hnew : ([r].map (·.file)).removeAll (rs.map (·.file)) = [r.file] := by
        simpa [List.removeAll] using hr
      have hnames : r.file ∉ ((rs.map (·.file)).eraseDups.map (group rs)).map (·.name) := by
        rw [List.map_map]
        simpa [Function.comp_def] using hr
      have hgroup : group (rs ++ [r]) r.file = ⟨r.file, [r]⟩ := by
        simpa [group] using hr
      have hold : (rs.map (·.file)).eraseDups.map (group (rs ++ [r])) =
          (rs.map (·.file)).eraseDups.map (group rs) := by
        refine List.map_congr_left fun f hf => ?_
        have hne : r.file ≠ f := (ne_of_mem_of_not_mem (List.mem_eraseDups.mp hf) hr).symm
        simp [group, hne]
      rw [insertInto_of_not_mem hnames, hnew, List.map_append, hold]
      simp [List.eraseDups_cons, hgroup]

end Groups

/-! ### Questions -/

section Questions
variable {rs : List OperationRecord}

theorem hasName_eq (r : OperationRecord) (name : String) : r.hasName name = decide (r.name = some name) :=
  beq_eq_decide _ _

theorem files_ofList (rs : List OperationRecord) : (ofList rs).files = (rs.map (·.file)).eraseDups := by
  simp [files, groups_ofList, Function.comp_def]

theorem toList_ofList (rs : List OperationRecord) :
    (ofList rs).toList = (ofList rs).files.flatMap fun f => rs.filter (·.file = f) := by
  rw [files_ofList, toList, groups_ofList, List.flatMap_map]
  rfl

theorem inFile_ofList (rs : List OperationRecord) (file : String) :
    (ofList rs).inFile file = rs.filter (·.file = file) := by
  have hfind : (ofList rs).groups.find? (·.name == file) =
      ((rs.map (·.file)).eraseDups.find? (· == file)).map (group rs) := by
    rw [groups_ofList, List.find?_map]
    rfl
  rw [inFile, hfind]
  cases h : (rs.map (·.file)).eraseDups.find? (· == file) with
  | some f =>
    obtain rfl : f = file := by simpa using List.find?_some h
    rfl
  | none =>
    -- no record is of this file
    have hnone : ∀ r ∈ rs, r.file ≠ file := by simpa using h
    simpa using hnone

theorem perm_insertInto (r : OperationRecord) (gs : List FileOperations) :
    ((insertInto r gs).flatMap (·.records)).Perm (r :: gs.flatMap (·.records)) := by
  induction gs with
  | nil => exact .refl _
  | cons g gs ih =>
    rw [insertInto]
    split_ifs with hg
    · simp
    · exact (ih.append_left g.records).trans List.perm_middle

theorem perm_toList_ofList (rs : List OperationRecord) : (ofList rs).toList.Perm rs := by
  induction rs using List.reverseRecOn with
  | nil => exact .refl _
  | append_singleton rs r ih =>
    rw [ofList_concat]
    exact (perm_insertInto r _).trans ((ih.cons r).trans (List.perm_append_singleton r rs).symm)

/-- **A catalog is an index of the records in it.** -/
theorem indexes_ofList (rs : List OperationRecord) : (ofList rs).Indexes rs where
  files := files_ofList rs
  toList := toList_ofList rs
  inFile := inFile_ofList rs
  size := by rw [size_eq_length_toList, (perm_toList_ofList rs).length_eq]
  isEmpty := by
    rw [isEmpty_iff]
    exact ⟨fun h => (h ▸ perm_toList_ofList rs).nil_eq.symm, fun h => by rw [h]; rfl⟩
  find f := by rw [find?, inFile_ofList, List.head?_filter]
  findInFile f n := by
    rw [findInFile?, inFile_ofList, List.find?_filter]
    simp [hasName_eq]
  findExact f n t := by
    rw [findExact?, inFile_ofList, List.find?_filter]
    simp [hasName_eq]
  findNamed n := by simp [findNamed?, hasName_eq]
  findTyped n t := by simp [findTyped?, hasName_eq, beq_eq_decide]
  findAll n := by simp [findAll, hasName_eq]

end Questions

/-! ### Calls -/

/-- A call that adds records to a catalog. -/
inductive Update where
  /-- Records are given. -/
  | extend (records : List OperationRecord)
  /-- A file is imported. -/
  | load (store : FileStore) (path : String) (options : ImportOptions)

/-- The records that a call adds. A file that cannot be imported adds none. -/
def Update.records : Update → List OperationRecord
  | .extend rs => rs
  | .load store path options => (store.importFile path options).toOption.getD []

/-- The catalog after a call. A call that fails leaves it as it was. -/
def update (c : Catalog) : Update → Catalog
  | .extend rs => c.extend rs
  | .load store path options =>
    match c.load store path options with
    | .ok (c', _) => c'
    | .error _ => c

/-- The catalog after some calls. -/
def run (us : List Update) : Catalog := us.foldl update empty

section Calls
variable {us vs : List Update}

theorem update_eq_extend (c : Catalog) (u : Update) : c.update u = c.extend u.records := by
  cases u with
  | extend rs => rfl
  | load store path options =>
    rw [update, load, Update.records]
    cases store.importFile path options <;> rfl

theorem extend_append (c : Catalog) (as bs : List OperationRecord) :
    c.extend (as ++ bs) = (c.extend as).extend bs := List.foldl_append

theorem foldl_update (c : Catalog) (us : List Update) :
    us.foldl update c = c.extend (us.flatMap Update.records) := by
  induction us generalizing c with
  | nil => rfl
  | cons u us ih => rw [List.foldl_cons, ih, update_eq_extend, List.flatMap_cons, extend_append]

theorem run_eq_ofList (us : List Update) : run us = ofList (us.flatMap Update.records) :=
  foldl_update empty us

theorem run_concat (us : List Update) (u : Update) : run (us ++ [u]) = (run us).update u := by
  rw [run, List.foldl_append]
  rfl

/-- **After any calls a catalog is an index of all records that were added**, those of the files that
could be imported among them. To import a file tells how many records it has, or why it cannot be
imported; then nothing changes. Other calls that add the same records in the same order lead to the same
catalog. -/
theorem indexes_run (us : List Update) :
    (run us).Indexes (us.flatMap Update.records) ∧
    (∀ store path options,
      match (run us).load store path options with
      | .ok (c, n) => c = run (us ++ [.load store path options]) ∧
          ∃ rs, store.importFile path options = .ok rs ∧ n = rs.length
      | .error e => store.importFile path options = .error e ∧
          run (us ++ [.load store path options]) = run us) ∧
    run us = ofList (us.flatMap Update.records) ∧
    ∀ vs : List Update, vs.flatMap Update.records = us.flatMap Update.records → run vs = run us := by
  refine ⟨?_, fun store path options => ?_, run_eq_ofList us, fun vs h => ?_⟩
  · rw [run_eq_ofList]
    exact indexes_ofList _
  · rw [run_concat, update_eq_extend, load, Update.records]
    cases h : store.importFile path options with
    | ok rs => exact ⟨rfl, rs, rfl, rfl⟩
    | error e => exact ⟨rfl, rfl⟩
  · rw [run_eq_ofList, run_eq_ofList, h]

end Calls

/-- A file that is there is imported between the records of others, and one that is not adds nothing. -/
theorem indexes_run_load :
    let store := Snapshot.store ⟨[("/a.graphql", .ok "/a.graphql")], [("/a.graphql", .ok "query A \x7b a \x7d")]⟩
    let us : List Update := [.extend [⟨"a", none, .query, ""⟩, ⟨"b", some "A", .query, ""⟩],
      .load store "/b.graphql" {}, .load store "/a.graphql" {}]
    let vs : List Update := [.extend [⟨"a", none, .query, ""⟩],
      .extend [⟨"b", some "A", .query, ""⟩, ⟨"a", some "A", .query, "query A \x7b a \x7d"⟩]]
    vs.flatMap Update.records = us.flatMap Update.records ∧ run vs = run us := by
  intro store us vs
  have h : vs.flatMap Update.records = us.flatMap Update.records := by decide +kernel
  exact ⟨h, (indexes_run us).2.2.2 vs h⟩

end QueryDocs.Catalog
