import QueryDocs.Proofs.Document.Fragments
import QueryDocs.Proofs.Outcomes
import QueryDocs.Walk.Visitor

/-! # Fragments that cannot be told by their names

A table of fragments holds the fragments of a document under their names. Where there is none, the first
fragment is to blame that has no name or the name of an earlier one (`Document.FirstOffence`), and no walk
begins (`Document.fragmentTable_rules`). -/

namespace QueryDocs

/-- The names of some fragments are not empty, and no two of them are the same. -/
def TellApart (fs : List FragmentDefinition) : Prop :=
  (∀ f ∈ fs, f.name.text ≠ "") ∧ (fs.map (·.name.text)).Nodup

/-- **The first fragment that has no name or that of an earlier one**, in a sequence of fragments, and the
error that reports it. Of an earlier fragment with the same name the first one is named. -/
inductive FirstOffence (fs : List FragmentDefinition) : FragmentError → Prop where
  | unnamed {before after : List FragmentDefinition} {k : FragmentDefinition}
    (hfs : fs = before ++ k :: after) (hbefore : TellApart before) (hk : k.name.text = "") :
    FirstOffence fs (.unnamed k.span)
  | duplicate {before after : List FragmentDefinition} {k first : FragmentDefinition}
    (hfs : fs = before ++ k :: after) (hbefore : TellApart before) (hk : k.name.text ≠ "")
    (hmem : k.name.text ∈ before.map (·.name.text))
    (hfirst : fs.find? (·.name.text == k.name.text) = some first) :
    FirstOffence fs (.duplicate k.name.text first.span k.span)

section Tables
variable {t t' : FragmentTable} {f k : FragmentDefinition} {fs before : List FragmentDefinition}
  {d : Document} {e : FragmentError}

theorem FragmentTable.entries_of_foldlM (h : fs.foldlM add t = .ok t') : t'.entries = t.entries ++ fs := by
  induction fs generalizing t with
  | nil =>
    cases h
    exact (List.append_nil _).symm
  | cons f fs ih =>
    rw [List.foldlM_cons] at h
    cases hadd : t.add f with
    | error e =>
      rw [hadd] at h
      cases h
    | ok t₁ =>
      rw [hadd] at h
      rw [ih h, (entries_of_add hadd).2, List.append_assoc, List.singleton_append]

/-- **A table is made of fragments exactly if these can be told by their names.** -/
theorem FragmentTable.foldlM_empty_iff :
    (∃ t, fs.foldlM add empty = .ok t ∧ t.entries = fs) ↔ TellApart fs := by
  have hiff : (∃ t, fs.foldlM add empty = .ok t) ↔ TellApart fs := exists_foldlM_add_iff
  rw [← hiff]
  constructor
  · rintro ⟨t, ht, -⟩
    exact ⟨t, ht⟩
  · rintro ⟨t, ht⟩
    exact ⟨t, ht, entries_of_foldlM ht⟩

theorem FragmentTable.add_eq_error_iff : t.add k = .error e ↔
    (k.name.text = "" ∧ e = .unnamed k.span) ∨ (k.name.text ≠ "" ∧ ∃ first,
      t.get? k.name.text = some first ∧ e = .duplicate k.name.text first.span k.span) := by
  rw [add]
  split_ifs with hname
  · simp [hname, eq_comm]
  · split
    · next first hfirst => simp [hname, hfirst, eq_comm]
    · next hfree => simp [hname, hfree]

/-- **Adding fragments fails** at the first one that cannot be added to the table of those before it. -/
theorem FragmentTable.foldlM_eq_error_iff : fs.foldlM add t = .error e ↔
    ∃ before k after t', fs = before ++ k :: after ∧ before.foldlM add t = .ok t' ∧
      t'.add k = .error e := by
  induction fs generalizing t with
  | nil => exact ⟨nofun, fun ⟨before, k, after, _, h, _⟩ => by cases before <;> cases h⟩
  | cons f fs ih =>
    rw [List.foldlM_cons]
    cases hadd : t.add f with
    | error e' =>
      constructor
      · rintro ⟨⟩
        exact ⟨[], f, fs, t, rfl, rfl, hadd⟩
      · rintro ⟨before, k, after, t', hfs, hbefore, hk⟩
        cases before with
        | nil =>
          cases hfs
          cases hbefore
          rw [hadd] at hk
          exact hk
        | cons g before =>
          cases hfs
          rw [List.foldlM_cons, hadd] at hbefore
          cases hbefore
    | ok t₁ =>
      change fs.foldlM add t₁ = .error e ↔ _
      rw [ih]
      constructor
      · rintro ⟨before, k, after, t', rfl, hbefore, hk⟩
        refine ⟨f :: before, k, after, t', rfl, ?_, hk⟩
        rw [List.foldlM_cons, hadd]
        exact hbefore
      · rintro ⟨before, k, after, t', hfs, hbefore, hk⟩
        cases before with
        | nil =>
          cases hfs
          cases hbefore
          cases hadd.symm.trans hk
        | cons g before =>
          cases hfs
          rw [List.foldlM_cons, hadd] at hbefore
          exact ⟨before, k, after, t', rfl, hbefore, hk⟩

theorem find?_append_of_mem {name : String} (h : name ∈ before.map (·.name.text))
    (after : List FragmentDefinition) : (before ++ after).find? (·.name.text == name) =
      before.find? (·.name.text == name) := by
  obtain ⟨f, hf, rfl⟩ := List.mem_map.mp h
  rw [List.find?_append]
  cases hfind : before.find? (·.name.text == f.name.text) with
  | none => exact absurd (beq_self_eq_true _) (List.find?_eq_none.mp hfind f hf)
  | some => rfl

/-- **The error that collecting reports** is that of the first offence. -/
theorem Document.fragmentTable_eq_error_iff :
    d.fragmentTable = .error e ↔ FirstOffence d.fragments e := by
  rw [fragmentTable, FragmentTable.foldlM_eq_error_iff]
  constructor
  · -- the table that `k` is added to holds the fragments before it, which so can be told apart
    rintro ⟨before, k, after, t, hfs, hbefore, hk⟩
    have hentries : t.entries = before := FragmentTable.entries_of_foldlM hbefore
    have happart : TellApart before := FragmentTable.foldlM_empty_iff.mp ⟨t, hbefore, hentries⟩
    rcases FragmentTable.add_eq_error_iff.mp hk with ⟨hname, rfl⟩ | ⟨hname, first, hfirst, rfl⟩
    · exact .unnamed hfs happart hname
    · obtain ⟨hmem, hsame⟩ := FragmentTable.mem_of_get? hfirst
      have hmem : k.name.text ∈ before.map (·.name.text) :=
        List.mem_map.mpr ⟨first, hentries ▸ hmem, hsame⟩
      refine .duplicate hfs happart hname hmem ?_
      rw [hfs, find?_append_of_mem hmem, ← hentries]
      exact hfirst
  · rintro (⟨hfs, hbefore, hk⟩ | ⟨hfs, hbefore, hk, hmem, hfirst⟩)
    · obtain ⟨t, ht, -⟩ := FragmentTable.foldlM_empty_iff.mpr hbefore
      exact ⟨_, _, _, t, hfs, ht, FragmentTable.add_eq_error_iff.mpr (.inl ⟨hk, rfl⟩)⟩
    · obtain ⟨t, ht, hentries⟩ := FragmentTable.foldlM_empty_iff.mpr hbefore
      refine ⟨_, _, _, t, hfs, ht, FragmentTable.add_eq_error_iff.mpr (.inr ⟨hk, _, ?_, rfl⟩)⟩
      rwa [hfs, find?_append_of_mem hmem, ← hentries] at hfirst

/-- **What a table of fragments holds**: all fragments, each under its name. -/
theorem Document.get?_fragmentTable (h : d.fragmentTable = .ok t) (name : String) :
    t.get? name = some f ↔ f ∈ d.fragments ∧ f.name.text = name := by
  have hentries : t.entries = d.fragments := FragmentTable.entries_of_foldlM h
  rw [FragmentTable.get?_eq_some_iff, hentries]

theorem Document.visit_of_fragmentTable_error (h : d.fragmentTable = .error e) {σ : Type} (v : Visitor σ)
    (limit : Nat) (s : σ) : (d.visit v limit).run.run s = some (.error e, s) := by
  rw [visit, h]
  rfl

/-- **Fragments by name.** There is a table of the fragments of a document exactly if these can be told by
their names, and it holds each fragment under its name. Otherwise the first offence is reported, and a walk
calls no visitor and leaves its state as it is. -/
theorem Document.fragmentTable_rules (d : Document) :
    ((∃ t, d.fragmentTable = .ok t) ↔ TellApart d.fragments) ∧
    (∀ t, d.fragmentTable = .ok t → t.size = d.fragments.length ∧ ∀ name,
      (t.contains name = true ↔ ∃ f ∈ d.fragments, f.name.text = name) ∧
      ∀ f, t.get? name = some f ↔ f ∈ d.fragments ∧ f.name.text = name) ∧
    ∀ e, (d.fragmentTable = .error e ↔ FirstOffence d.fragments e) ∧
      (d.fragmentTable = .error e → ∀ {σ : Type} (v : Visitor σ) (limit : Nat) (s : σ),
        (d.visit v limit).run.run s = some (.error e, s) ∧
          (d.visit v.recorded limit).run.run (s, #[]) = some (.error e, s, #[])) := by
  refine ⟨?_, fun t ht => ⟨?_, fun name => ⟨?_, fun f => get?_fragmentTable ht name⟩⟩,
    fun e => ⟨fragmentTable_eq_error_iff, fun he σ v limit s =>
      ⟨visit_of_fragmentTable_error he v limit s, visit_of_fragmentTable_error he v.recorded limit _⟩⟩⟩
  · rw [exists_fragmentTable_iff, TellApart, fragmentNames]
    simp
  · rw [FragmentTable.size, FragmentTable.entries_of_foldlM ht]
    rfl
  · rw [FragmentTable.contains, Option.isSome_iff_exists]
    exact exists_congr fun f => get?_fragmentTable ht name

end Tables

/-- A fragment without directives and selections, of so many bytes from an offset on. -/
def bareFragment (name : String) (start stop : Nat) : FragmentDefinition :=
  ⟨⟨name, ⟨start, start⟩⟩, ⟨⟨"T", ⟨start, start⟩⟩, ⟨start, start⟩⟩, [], ⟨[], ⟨start, stop⟩⟩, ⟨start, stop⟩⟩

/-- Between two fragments of one name stand a type and another fragment; a fragment without a name behind
them is not reported, and without the second and the last one there is a table. -/
theorem fragmentTable_rules_duplicate :
    let f := bareFragment "F" 0 9
    let g := bareFragment "G" 9 18
    let s : Definition := .type (.scalar ⟨none, ⟨"S", ⟨25, 26⟩⟩, [], ⟨18, 26⟩⟩)
    let d : Document := ⟨[.fragment f, .fragment g, s, .fragment (bareFragment "F" 26 35),
      .fragment (bareFragment "" 35 44)], ⟨0, 44⟩⟩
    let d' : Document := ⟨[.fragment f, .fragment g, s], ⟨0, 26⟩⟩
    d.fragmentTable = .error (.duplicate "F" ⟨0, 9⟩ ⟨26, 35⟩) ∧
      FirstOffence d.fragments (.duplicate "F" ⟨0, 9⟩ ⟨26, 35⟩) ∧
      (∀ (v : Visitor Nat) (limit : Nat),
        (d.visit v limit).run.run 7 = some (.error (.duplicate "F" ⟨0, 9⟩ ⟨26, 35⟩), 7)) ∧
      ∃ t, d'.fragmentTable = .ok t ∧ t.size = 2 ∧ t.get? "G" = some g ∧ t.contains "S" = false := by
  intro f g s d d'
  have herror : d.fragmentTable = .error (.duplicate "F" ⟨0, 9⟩ ⟨26, 35⟩) := rfl
  have htold : TellApart d'.fragments := by
    unfold TellApart
    decide +kernel
  obtain ⟨-, -, hrules⟩ := Document.fragmentTable_rules d
  obtain ⟨htable, hholds, -⟩ := Document.fragmentTable_rules d'
  obtain ⟨t, ht⟩ := htable.mpr htold
  obtain ⟨hsize, hnames⟩ := hholds t ht
  refine ⟨herror, (hrules _).1.mp herror, fun v limit => ((hrules _).2 herror v limit 7).1, t, ht, hsize,
    ((hnames "G").2 g).mpr ⟨by decide +kernel, rfl⟩, Bool.eq_false_iff.mpr fun h => ?_⟩
  exact absurd ((hnames "S").1.mp h) (by decide +kernel)

end QueryDocs
