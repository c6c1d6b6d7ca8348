import QueryDocs.Proofs.Import.Collection

/-! # The records of a text

Operations are taken from a text exactly if it is a document with a table of fragments in which an
operation without a name is the only one, and which has an operation or starts with the marker
(`importText_eq_ok`). The records tell then what the operations are called and what they do. -/

namespace QueryDocs

/-- Whether a text may provide no operations. -/
def ImportOptions.Marks (options : ImportOptions) (text : String) : Prop :=
  options.marker ≠ "" ∧ options.marker.toList <+: text.toList

/-- The names of the operations of a document are such that a request can do without one only if there is
no choice. -/
def Document.NamesOperations (d : Document) : Prop :=
  none ∈ d.operationKeys.map Prod.fst → d.operationKeys.map Prod.fst = [none]

section Records
variable {d : Document} {file text : String} {options : ImportOptions}
  {rs : List OperationRecord} {keys : List (Option String × OperationType)}

/-! ### Outcomes -/

theorem recordOperations_nil (h : options.Marks text) :
    recordOperations file text options [] = .ok [] :=
  if_pos ⟨h.1, List.isPrefixOf_iff_prefix.mpr h.2⟩

theorem recordOperations_nil_of_not_marks (h : ¬ options.Marks text) :
    recordOperations file text options [] = .error (.noOperations file) :=
  if_neg fun hmarks => h ⟨hmarks.1, List.isPrefixOf_iff_prefix.mp hmarks.2⟩

theorem recordOperations_of_multiple (h : 1 < keys.countP (·.1.isNone)) :
    recordOperations file text options keys = .error (.multipleAnonymous file) := by
  have hne : keys.isEmpty = false := by
    cases keys with
    | nil => cases h
    | cons => rfl
  rw [recordOperations, hne, if_neg Bool.false_ne_true, if_pos h]

theorem recordOperations_of_mixed (h : keys.countP (·.1.isNone) = 1) (hmore : 1 < keys.length) :
    recordOperations file text options keys = .error (.mixedAnonymous file) := by
  have hne : keys.isEmpty = false := by
    cases keys with
    | nil => cases h
    | cons => rfl
  rw [recordOperations, hne, if_neg Bool.false_ne_true, if_neg (by omega), if_pos ⟨h, hmore⟩]

theorem recordOperations_of_named (hne : keys ≠ []) (hone : ¬ 1 < keys.countP (·.1.isNone))
    (hmixed : ¬ (keys.countP (·.1.isNone) = 1 ∧ 1 < keys.length)) :
    recordOperations file text options keys = .ok (keys.map fun key => ⟨file, key.1, key.2, text⟩) := by
  rw [recordOperations, if_neg (by simpa using hne), if_neg hone, if_neg hmixed]

theorem importText_of_parse_error {e : ParseError} (h : Source.parse ⟨text, some file⟩ = .error e) :
    importText file text options = .error (.grammar e) := by
  rw [importText, h]

theorem importText_of_fragmentTable_error {e : FragmentError}
    (hparse : Source.parse ⟨text, some file⟩ = .ok d) (htable : d.fragmentTable = .error e) :
    importText file text options = .error (.fragments e) := by
  rw [importText, hparse]
  simp only [Document.collectOperations_eq, htable, Except.map]

theorem importText_of_fragmentTable {table : FragmentTable}
    (hparse : Source.parse ⟨text, some file⟩ = .ok d) (htable : d.fragmentTable = .ok table) :
    importText file text options = recordOperations file text options d.operationKeys := by
  rw [importText, hparse]
  simp only [Document.collectOperations_eq, htable, Except.map]

/-! ### Names of operations -/

/-- The rules on operations without a name, by counting. -/
theorem namesOperations_iff : d.NamesOperations ↔
    ¬ 1 < d.operationKeys.countP (·.1.isNone) ∧
      ¬ (d.operationKeys.countP (·.1.isNone) = 1 ∧ 1 < d.operationKeys.length) := by
  rw [Document.NamesOperations]
  generalize d.operationKeys = keys
  have hmem : none ∈ keys.map Prod.fst ↔ 0 < keys.countP (·.1.isNone) := by
    rw [List.countP_pos_iff, List.mem_map]
    simp
  have hle : keys.countP (·.1.isNone) ≤ keys.length := List.countP_le_length
  rw [hmem]
  constructor
  · intro h
    by_cases hpos : 0 < keys.countP (·.1.isNone)
    · have hlength := congrArg List.length (h hpos)
      rw [List.length_map, List.length_singleton] at hlength
      omega
    · omega
  · rintro ⟨hone, hmixed⟩ hpos
    obtain ⟨key, rfl⟩ := List.length_eq_one_iff.mp (show keys.length = 1 by omega)
    obtain ⟨key', hkey, hname⟩ := List.countP_pos_iff.mp hpos
    rw [List.mem_singleton.mp hkey] at hname
    simpa using hname

/-- **The texts from which operations are taken, and the records of these.** -/
theorem importText_eq_ok : importText file text options = .ok rs ↔
    ∃ d, Source.parse ⟨text, some file⟩ = .ok d ∧ (∃ table, d.fragmentTable = .ok table) ∧
      d.NamesOperations ∧ (d.operationKeys = [] → options.Marks text) ∧
      rs = d.operationKeys.map fun key => ⟨file, key.1, key.2, text⟩ := by
  cases hparse : Source.parse ⟨text, some file⟩ with
  | error e => simp [importText_of_parse_error hparse]
  | ok d =>
    cases htable : d.fragmentTable with
    | error e => simp [importText_of_fragmentTable_error hparse htable, htable]
    | ok table =>
      simp only [importText_of_fragmentTable hparse htable, Except.ok.injEq, exists_eq_left', htable,
        exists_eq', true_and, namesOperations_iff]
      generalize d.operationKeys = keys
      by_cases hempty : keys = []
      · subst hempty
        by_cases hmarks : options.Marks text
        · simp [recordOperations_nil hmarks, hmarks, eq_comm]
        · simp [recordOperations_nil_of_not_marks hmarks, hmarks]
      · by_cases hone : 1 < keys.countP (·.1.isNone)
        · simp [recordOperations_of_multiple hone, hone]
        · by_cases hmixed : keys.countP (·.1.isNone) = 1 ∧ 1 < keys.length
          · simp [recordOperations_of_mixed hmixed.1 hmixed.2, hmixed]
          · rw [recordOperations_of_named hempty hone hmixed, Except.ok.injEq]
            exact ⟨fun h => ⟨⟨hone, hmixed⟩, fun h' => absurd h' hempty, h.symm⟩, fun h => h.2.2.symm⟩

theorem importText_of_operationKeys_eq_nil {table : FragmentTable}
    (hparse : Source.parse ⟨text, some file⟩ = .ok d) (htable : d.fragmentTable = .ok table)
    (hnone : d.operationKeys = []) (hmarks : ¬ options.Marks text) :
    importText file text options = .error (.noOperations file) := by
  rw [importText_of_fragmentTable hparse htable, hnone, recordOperations_nil_of_not_marks hmarks]

end Records

end QueryDocs
