import QueryDocs.Proofs.Import.Records

/-! # Rules for the operations of a text

A text that is a document with a table of fragments provides one operation without a name or any number
of operations with names, and none only behind the marker. Each other document breaks one of three rules,
and the first of them that it breaks is reported (`importText_rules`). -/

namespace QueryDocs

/-- **What comes of the operations of a text**, by the rules: a file has an operation, unless its text
starts with the marker, not more than one without a name, and no other ones beside this one. -/
structure OperationRules (file text : String) (options : ImportOptions) (ops : List OperationDefinition)
    (outcome : Except ImportError (List OperationRecord)) : Prop where
  none : outcome = .ok [] ↔ ops = [] ∧ options.Marks text
  noOperations : ∀ f, outcome = .error (.noOperations f) ↔ file = f ∧ ops = [] ∧ ¬ options.Marks text
  multiple : ∀ f, outcome = .error (.multipleAnonymous f) ↔
    file = f ∧ 2 ≤ ops.countP (·.title?.isNone)
  mixed : ∀ f, outcome = .error (.mixedAnonymous f) ↔
    file = f ∧ ops.countP (·.title?.isNone) = 1 ∧ ∃ op ∈ ops, op.title? ≠ Option.none
  records : ops ≠ [] → ¬ 2 ≤ ops.countP (·.title?.isNone) →
    ¬ (ops.countP (·.title?.isNone) = 1 ∧ ∃ op ∈ ops, op.title? ≠ Option.none) →
      outcome = .ok (ops.map fun op => ⟨file, op.title?, op.operation, text⟩)
  names : ∀ rs, outcome = .ok rs → rs ≠ [] →
    (∃ r, rs = [r] ∧ r.isAnonymous = true) ∨ ∀ r ∈ rs, r.isAnonymous = false

section Rules
variable {file text : String} {options : ImportOptions} {ops : List OperationDefinition}

theorem exists_named_iff (h : ops.countP (·.title?.isNone) = 1) :
    (∃ op ∈ ops, op.title? ≠ none) ↔ 1 < ops.length := by
  have hlength := List.length_eq_countP_add_countP (·.title?.isNone) (l := ops)
  have hnamed : (∃ op ∈ ops, op.title? ≠ none) ↔ 0 < ops.countP fun op => ¬ op.title?.isNone := by
    rw [List.countP_pos_iff]
    simp
  rw [hnamed]
  omega

theorem isAnonymous_of_records {rs : List OperationRecord}
    (h : ops.countP (·.title?.isNone) = 0 ∨ ops.length = 1)
    (hrs : rs = ops.map fun op => ⟨file, op.title?, op.operation, text⟩) :
    (∃ r, rs = [r] ∧ r.isAnonymous = true) ∨ ∀ r ∈ rs, r.isAnonymous = false := by
  subst hrs
  rcases h with hzero | hone
  · refine Or.inr fun r hr => ?_
    obtain ⟨op, hop, rfl⟩ := List.mem_map.mp hr
    exact Bool.eq_false_iff.mpr (List.countP_eq_zero.mp hzero op hop)
  · obtain ⟨op, rfl⟩ := List.length_eq_one_iff.mp hone
    cases hname : op.title?.isNone with
    | true => exact Or.inl ⟨_, rfl, hname⟩
    | false => exact Or.inr (by simpa [OperationRecord.isAnonymous] using hname)

theorem operationRules_recordOperations (file text : String) (options : ImportOptions)
    (ops : List OperationDefinition) : OperationRules file text options ops
      (recordOperations file text options (ops.map OperationDefinition.key)) := by
  have hcount : (ops.map OperationDefinition.key).countP (·.1.isNone) = ops.countP (·.title?.isNone) :=
    List.countP_map
  by_cases hnone : ops = []
  · subst hnone
    by_cases hmarks : options.Marks text
    · rw [List.map_nil, recordOperations_nil hmarks]
      constructor <;> simp [hmarks]
    · rw [List.map_nil, recordOperations_nil_of_not_marks hmarks]
      constructor <;> simp [hmarks]
  · by_cases hmany : 2 ≤ ops.countP (·.title?.isNone)
    · have hne : ops.countP (·.title?.isNone) ≠ 1 := by omega
      rw [recordOperations_of_multiple (hcount ▸ hmany)]
      constructor <;> simp [hnone, hmany, hne]
    · by_cases hmixed : ops.countP (·.title?.isNone) = 1 ∧ ∃ op ∈ ops, op.title? ≠ none
      · have hmore := (exists_named_iff hmixed.1).mp hmixed.2
        rw [recordOperations_of_mixed (hcount.trans hmixed.1) (by simpa using hmore)]
        constructor <;> simp [hnone, hmixed]
      · -- one operation without a name is alone here, or all of them have names
        have hmore : ¬ (ops.countP (·.title?.isNone) = 1 ∧ 1 < ops.length) := fun h =>
          hmixed ⟨h.1, (exists_named_iff h.1).mpr h.2⟩
        have hpos := List.length_pos_iff.mpr hnone
        rw [recordOperations_of_named (by simpa using hnone) (hcount ▸ hmany)
          (by rwa [hcount, List.length_map]), List.map_map]
        refine ⟨?_, fun f => ?_, fun f => ?_, fun f => ?_, fun _ _ _ => rfl, fun rs hrs _ => ?_⟩
        · simp [hnone]
        · simp [hnone]
        · simp [hmany]
        · simp [hmixed]
        · exact isAnonymous_of_records (by omega) (Except.ok.inj hrs).symm

theorem recordOperations_ne {keys : List (Option String × OperationType)} {e : ImportError}
    (h : recordOperations file text options keys = .error e) :
    (∀ e', e ≠ .grammar e') ∧ ∀ e', e ≠ .fragments e' := by
  rw [recordOperations] at h
  split_ifs at h <;> cases h <;> simp

/-- **The rules for the operations of a text.** A text that is no document is refused, and so is a document
whose fragments cannot be told by their names; for the others the rules decide. -/
theorem importText_rules (file text : String) (options : ImportOptions) :
    (∀ e, importText file text options = .error (.grammar e) ↔
      Source.parse ⟨text, some file⟩ = .error e) ∧
    ∀ d, Source.parse ⟨text, some file⟩ = .ok d →
      (∀ e, importText file text options = .error (.fragments e) ↔ d.fragmentTable = .error e) ∧
      ∀ table, d.fragmentTable = .ok table →
        OperationRules file text options d.operations (importText file text options) := by
  cases hparse : Source.parse ⟨text, some file⟩ with
  | error e => exact ⟨fun _ => by simp [importText_of_parse_error hparse], fun _ => nofun⟩
  | ok d =>
    -- for a document the first part says that its grammar is not to blame
    suffices h : (∀ e, importText file text options ≠ .error (.grammar e)) ∧
        (∀ e, importText file text options = .error (.fragments e) ↔ d.fragmentTable = .error e) ∧
        ∀ table, d.fragmentTable = .ok table →
          OperationRules file text options d.operations (importText file text options) by
      refine ⟨fun e => iff_of_false (h.1 e) nofun, ?_⟩
      rintro _ ⟨⟩
      exact h.2
    cases htable : d.fragmentTable with
    | error e => simp [importText_of_fragmentTable_error hparse htable]
    | ok table =>
      rw [importText_of_fragmentTable hparse htable]
      exact ⟨fun e h => (recordOperations_ne h).1 e rfl,
        fun e => iff_of_false (fun h => (recordOperations_ne h).2 e rfl) nofun,
        fun _ _ => operationRules_recordOperations file text options d.operations⟩

/-- A query without a name stands between a type and a mutation with a name. -/
theorem importText_rules_mixed : ∃ d table,
    Source.parse ⟨"scalar S \x7b a \x7d mutation B \x7b b \x7d", some "f"⟩ = .ok d ∧
      d.fragmentTable = .ok table ∧ d.operations.length = 2 ∧
        importText "f" "scalar S \x7b a \x7d mutation B \x7b b \x7d" {} = .error (.mixedAnonymous "f") := by
  let d : Document := ⟨[
    .type (.scalar ⟨none, ⟨"S", ⟨7, 8⟩⟩, [], ⟨0, 8⟩⟩),
    .operation ⟨.query, none, [], [], ⟨[.field ⟨none, ⟨"a", ⟨11, 12⟩⟩, [], [], none, ⟨11, 12⟩⟩], ⟨9, 14⟩⟩,
      ⟨9, 14⟩⟩,
    .operation ⟨.mutation, some ⟨"B", ⟨24, 25⟩⟩, [], [],
      ⟨[.field ⟨none, ⟨"b", ⟨28, 29⟩⟩, [], [], none, ⟨28, 29⟩⟩], ⟨26, 31⟩⟩, ⟨15, 31⟩⟩], ⟨0, 31⟩⟩
  have hparse : Source.parse
      ⟨"scalar S \x7b a \x7d mutation B \x7b b \x7d", some "f"⟩ = .ok d := by decide +kernel
  have htable : d.fragmentTable = .ok .empty := by rfl
  obtain ⟨-, hrules⟩ := importText_rules "f" "scalar S \x7b a \x7d mutation B \x7b b \x7d" {}
  obtain ⟨-, hrules⟩ := hrules d hparse
  refine ⟨d, _, hparse, htable, rfl, ((hrules _ htable).mixed "f").mpr ⟨rfl, by decide +kernel, ?_⟩⟩
  exact ⟨_, List.mem_cons_of_mem _ List.mem_cons_self, by decide +kernel⟩

end Rules

end QueryDocs
