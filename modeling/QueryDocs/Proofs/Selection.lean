import Mathlib.Data.List.Nodup
import QueryDocs.Proofs.Import.Records
import QueryDocs.Proofs.SyntaxErrors

/-! # Records and the operations that they select

Text and name of a record are sent together to have one operation executed. They select it if no other
operation of the text has the same name, and nothing sees to that: the records of a text all select
their operations exactly if their names are distinct (`importText_selects_iff`). A record without a name
always selects its operation, which is the only one. -/

namespace QueryDocs

/-- A record selects its operation: the document in its source has exactly one operation of its name, and
this one is of its type. -/
def OperationRecord.Selects (r : OperationRecord) : Prop :=
  ∀ name, ∃ d op, Source.parse ⟨r.source, name⟩ = .ok d ∧
    d.operations.filter (fun op => op.title? = r.name) = [op] ∧ op.operation = r.type

section Selection
variable {d : Document} {file text : String} {options : ImportOptions} {r : OperationRecord}
  {rs : List OperationRecord}

theorem exists_operations_of_records (h : importText file text options = .ok rs) :
    ∃ d, (∀ name, Source.parse ⟨text, name⟩ = .ok d) ∧
      rs = d.operations.map (fun op => ⟨file, op.title?, op.operation, text⟩) ∧
      (none ∈ rs.map (·.name) → rs.map (·.name) = [none]) := by
  obtain ⟨d, hparse, -, hnames, -, rfl⟩ := importText_eq_ok.mp h
  refine ⟨d, fun name => ?_, ?_, ?_⟩
  · rw [← hparse]
    exact Source.parse_congr rfl
  · rw [Document.operationKeys, List.map_map]
    rfl
  · rw [List.map_map]
    exact hnames

theorem selects_iff (h : importText file text options = .ok rs) (hr : r ∈ rs) :
    r.Selects ↔ (rs.map (·.name)).count r.name = 1 := by
  obtain ⟨d, hparse, rfl, -⟩ := exists_operations_of_records h
  obtain ⟨op, hop, rfl⟩ := List.mem_map.mp hr
  -- the operations of a name are as many as the records with it
  have hcount : ((d.operations.map fun op => (⟨file, op.title?, op.operation, text⟩ : OperationRecord)).map
      (·.name)).count op.title? = (d.operations.filter fun op' => op'.title? = op.title?).length := by
    rw [List.map_map, List.count, List.countP_map, List.countP_eq_length_filter]
    simp only [Function.comp_def, beq_eq_decide]
  have hself : op ∈ d.operations.filter fun op' => op'.title? = op.title? := by simpa using hop
  rw [hcount, List.length_eq_one_iff]
  constructor
  · intro hselects
    obtain ⟨d', op', hd', hfilter, -⟩ := hselects none
    cases (hparse none).symm.trans hd'
    exact ⟨op', hfilter⟩
  · rintro ⟨op', hfilter⟩ name
    rw [hfilter, List.mem_singleton] at hself
    subst hself
    exact ⟨d, op, hparse name, hfilter, rfl⟩

/-- **The records of a text all select their operations exactly if no two have the same name.** A single
record does exactly if no other has its name, and always if it has none. -/
theorem importText_selects_iff (h : importText file text options = .ok rs) :
    ((∀ r ∈ rs, r.Selects) ↔ (rs.map (·.name)).Nodup) ∧
    (∀ r ∈ rs, r.Selects ↔ (rs.map (·.name)).count r.name = 1) ∧
    ∀ r ∈ rs, r.name = none → r.Selects := by
  refine ⟨?_, fun r hr => selects_iff h hr, fun r hr hnone => ?_⟩
  · rw [List.nodup_iff_count_eq_one, List.forall_mem_map]
    exact forall₂_congr fun r hr => selects_iff h hr
  · obtain ⟨-, -, -, halone⟩ := exists_operations_of_records h
    have hmem : none ∈ rs.map (·.name) := hnone ▸ List.mem_map_of_mem hr
    rw [selects_iff h hr, hnone, halone hmem]
    rfl

end Selection

/-- Two operations of different names are selected, though one is a mutation. -/
theorem importText_selects_iff_mutation : ∃ rs, rs.length = 2 ∧
    importText "f" "query A \x7b a \x7d mutation B \x7b b \x7d" {} = .ok rs ∧ ∀ r ∈ rs, r.Selects := by
  have h : importText "f" "query A \x7b a \x7d mutation B \x7b b \x7d" {} = .ok
      [⟨"f", some "A", .query, "query A \x7b a \x7d mutation B \x7b b \x7d"⟩,
        ⟨"f", some "B", .mutation, "query A \x7b a \x7d mutation B \x7b b \x7d"⟩] := by decide +kernel
  exact ⟨_, rfl, h, (importText_selects_iff h).1.mpr (by decide)⟩

/-- Not every record selects its operation: two queries can have one name. -/
theorem importText_selects_duplicate : ¬ ∀ (file text : String) (options : ImportOptions)
    (rs : List OperationRecord), importText file text options = .ok rs → ∀ r ∈ rs, r.Selects := by
  intro hall
  have h : importText "f" "query A \x7b a \x7d query A \x7b b \x7d" {} = .ok
      [⟨"f", some "A", .query, "query A \x7b a \x7d query A \x7b b \x7d"⟩,
        ⟨"f", some "A", .query, "query A \x7b a \x7d query A \x7b b \x7d"⟩] := by decide +kernel
  have hselects := hall _ _ _ _ h _ List.mem_cons_self
  rw [selects_iff h List.mem_cons_self] at hselects
  revert hselects
  decide

end QueryDocs
