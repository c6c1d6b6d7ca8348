import Mathlib.Data.List.Nodup
import Mathlib.Tactic.Common
import QueryDocs.Document.FragmentTable
import QueryDocs.Proofs.Document.Relabel

/-! # Tables of fragments

A document has a table of fragments exactly if all fragments have names and no two of them the same one
(`Document.exists_fragmentTable_iff`). So it is a matter of names, and not of where things stand. -/

namespace QueryDocs

/-- What the fragments of a document are called. -/
def Document.fragmentNames (d : Document) : List String := d.fragments.map (·.name.text)

section Fragments
variable {t t' : FragmentTable} {f : FragmentDefinition} {fs : List FragmentDefinition} {d : Document}

theorem FragmentTable.get?_eq_none_iff_not_mem {name : String} :
    t.get? name = none ↔ name ∉ t.entries.map (·.name.text) := by
  simp [get?_eq_none_iff]

theorem FragmentTable.get?_eq_some_iff {name : String} :
    t.get? name = some f ↔ f ∈ t.entries ∧ f.name.text = name := by
  refine ⟨mem_of_get?, ?_⟩
  rintro ⟨hf, rfl⟩
  cases h : t.get? f.name.text with
  | none => exact absurd rfl (get?_eq_none_iff.mp h f hf)
  | some g =>
    obtain ⟨hg, hsame⟩ := mem_of_get? h
    rw [List.inj_on_of_nodup_map t.distinct hg hf hsame]

/-- A fragment is added if its name is a new one. -/
theorem FragmentTable.exists_add (hname : f.name.text ≠ "")
    (hnew : f.name.text ∉ t.entries.map (·.name.text)) : ∃ t', t.add f = .ok t' := by
  rw [add, dif_neg hname]
  split
  · next first hfirst =>
    rw [get?_eq_none_iff_not_mem.mpr hnew] at hfirst
    cases hfirst
  · exact ⟨_, rfl⟩

/-- Only a fragment with a new name is added, and it is added behind the others. -/
theorem FragmentTable.entries_of_add (h : t.add f = .ok t') :
    f.name.text ≠ "" ∧ t'.entries = t.entries ++ [f] := by
  rw [add] at h
  split_ifs at h with hname
  split at h <;> cases h
  exact ⟨hname, rfl⟩

/-- Fragments are added one after the other if their names are new ones and distinct. -/
theorem FragmentTable.exists_foldlM_add_iff : (∃ t', fs.foldlM FragmentTable.add t = .ok t') ↔
    (∀ f ∈ fs, f.name.text ≠ "") ∧ ((t.entries ++ fs).map (·.name.text)).Nodup := by
  induction fs generalizing t with
  | nil => simpa [pure, Except.pure] using t.distinct
  | cons f fs ih =>
    rw [List.foldlM_cons, List.forall_mem_cons]
    cases hadd : t.add f with
    | ok t' =>
      obtain ⟨hname, hentries⟩ := entries_of_add hadd
      change (∃ t'', fs.foldlM FragmentTable.add t' = .ok t'') ↔ _
      rw [ih, hentries, List.append_assoc, List.singleton_append]
      simp [hname]
    | error e =>
      refine ⟨nofun, fun ⟨⟨hname, _⟩, hnodup⟩ => ?_⟩
      rw [List.map_append, List.nodup_append] at hnodup
      obtain ⟨t', ht'⟩ := exists_add hname fun hmem =>
        hnodup.2.2 _ hmem _ List.mem_cons_self rfl
      cases hadd.symm.trans ht'

/-- **A document has a table of fragments exactly if their names are distinct and not empty.** -/
theorem Document.exists_fragmentTable_iff :
    (∃ t, d.fragmentTable = .ok t) ↔ "" ∉ d.fragmentNames ∧ d.fragmentNames.Nodup := by
  rw [fragmentTable, FragmentTable.exists_foldlM_add_iff, fragmentNames]
  simp [FragmentTable.empty]

theorem Document.fragmentNames_relabel (m : Relabeling) (d : Document) :
    (relabel m d).fragmentNames = d.fragmentNames := by
  have hname : (fun f : FragmentDefinition => f.name.text) ∘ relabel m = fun f => f.name.text := rfl
  have hfragment : ∀ x : Definition, (relabel m x).fragment? = x.fragment?.map (relabel m) := fun x => by
    cases x <;> rfl
  change ((d.definitions.map (relabel m)).filterMap Definition.fragment?).map _ = _
  rw [List.filterMap_map, show Definition.fragment? ∘ relabel m = _ from funext hfragment,
    ← List.map_filterMap, List.map_map, hname]
  rfl

end Fragments

end QueryDocs
