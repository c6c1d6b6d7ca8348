import QueryDocs.Proofs.Walk.Alike
import QueryDocs.Proofs.Walk.Calls
import QueryDocs.Walk.Ends

/-! # Visits

A visit of a document whose fragments can be told by their names is a walk of the document. Where it
ends, the calls that are noted are those of the visitor (`Document.exists_walked`), and the limit does
not change what it leaves (`Document.visit_unique`). -/

namespace QueryDocs

variable {σ : Type} {v : Visitor σ} {table : FragmentTable} {d d' : Document} {limit : Nat} {s s' : σ}

/-- A visit ends where the walk of the document does. -/
theorem Document.run_visit_eq_some (h : d.fragmentTable = .ok table) :
    (d.visit v limit).run.run s = some (.ok d', s') ↔
      (Walk.document v table limit d).run s = some (d', s') := by
  rw [run_visit h, Option.map_eq_some_iff]
  simp [Prod.ext_iff]

/-- Where a walk ends, the same walk ends while its calls are noted. -/
theorem Document.exists_trace (htable : d.fragmentTable = .ok table)
    (h : (Walk.document v table limit d).run s = some (d', s')) :
    ∃ calls, d.trace v limit s = .ok (some (d', calls)) ∧
      (Walk.document v.recorded table limit d).run (s, #[]) = some (d', s', calls) := by
  have halike : Option.Rel (fun p q => p.1 = q.1 ∧ p.2 = q.2.1) ((Walk.document v table limit d).run s)
      ((Walk.document v.recorded table limit d).run (s, #[])) :=
    Walk.alike_document (v.alike_recorded table) d s (s, #[]) rfl
  rw [h] at halike
  generalize hrun : (Walk.document v.recorded table limit d).run (s, #[]) = r at halike
  cases halike with
  | @some _ p hp =>
    obtain ⟨d', s', calls⟩ := p
    obtain ⟨rfl, rfl⟩ := hp
    refine ⟨calls, ?_, rfl⟩
    rw [trace, run_visit htable, hrun]
    rfl

/-- **The calls that are noted are those of the visitor.** -/
theorem Document.exists_walked (htable : d.fragmentTable = .ok table)
    (h : (d.visit v limit).run.run s = some (.ok d', s')) :
    ∃ calls, d.trace v limit s = .ok (some (d', calls)) ∧
      Walked v table [.node .document d] s calls.toList [.node .document d'] s' := by
  obtain ⟨calls, htrace, hrun⟩ := exists_trace htable ((run_visit_eq_some htable).mp h)
  obtain ⟨noted, hnoted⟩ := Walk.walks_document hrun
  obtain ⟨hcalls, hwalked⟩ := hnoted.recorded
  obtain rfl : calls.toList = noted := hcalls
  exact ⟨calls, htrace, hwalked⟩

/-- **The limit does not change what a visit leaves**, where the visit ends. -/
theorem Document.visit_unique {limit' : Nat} {d'' : Document} {s'' : σ}
    (h : (d.visit v limit).run.run s = some (.ok d', s'))
    (h' : (d.visit v limit').run.run s = some (.ok d'', s'')) : d' = d'' ∧ s' = s'' := by
  cases htable : d.fragmentTable with
  | error e =>
    rw [visit, htable] at h
    cases h
  | ok table =>
    obtain ⟨calls, -, hwalked⟩ := exists_walked htable h
    obtain ⟨calls', -, hwalked'⟩ := exists_walked htable h'
    obtain ⟨-, hkept, hstate⟩ := hwalked.unique hwalked'
    cases hkept
    exact ⟨rfl, hstate⟩

/-- With limit enough, a visitor that gives back the nodes it is called for before the nodes inside them
has a visit that ends. -/
theorem Document.exists_visit (htable : d.fragmentTable = .ok table) (hv : v.Opens table)
    (hlimit : d.depth ≤ limit) (s : σ) :
    ∃ d' s', (d.visit v limit).run.run s = some (.ok d', s') := by
  obtain ⟨d', s', h⟩ := Walk.ends_document hv d hlimit s
  exact ⟨d', s', (run_visit_eq_some htable).mpr h⟩

end QueryDocs
