import QueryDocs.Grammar.Parse
import QueryDocs.Proofs.Document.Fragments
import QueryDocs.Proofs.Walk.Reached
import QueryDocs.Proofs.Walk.Visit

/-! # Walks of documents

A visitor of a document whose fragments have distinct names is called for the document as `Walked` says:
the calls are well nested, and between the calls before and after a node stand those for the nodes inside
it, in order (`visit_nested`). -/

namespace QueryDocs

/-- Calls reach a document: each of its nodes is entered once and left once, save those inside the
definitions that cannot be executed, and these definitions are passed by in order. -/
structure Document.ReachedBy (d : Document) (calls : List Call) : Prop where
  nodes : ∃ nodes, Node.Listed [.document d] nodes ∧ (calls.filterMap Call.entered?).Perm nodes ∧
    (calls.filterMap Call.left?).Perm nodes
  passed : calls.filterMap Call.passed? = d.definitions.filter (!·.isExecutable)

/-- **A walk calls the visitor in a well-nested order.** Where a visit of a document with distinct
fragments ends, the calls before and after a node stand around the calls for the nodes inside the node
that was given back before, in order. A visitor that gives back what it is called for reaches all nodes,
and its visit ends. -/
theorem visit_nested {σ : Type} {d : Document} (hnamed : "" ∉ d.fragmentNames)
    (hdistinct : d.fragmentNames.Nodup) (v : Visitor σ) (s : σ) :
    ∃ table, d.fragmentTable = .ok table ∧
      (∀ limit d' s', (d.visit v limit).run.run s = some (.ok d', s') →
        ∃ calls, d.trace v limit s = .ok (some (d', calls)) ∧
          Walked v table [.node .document d] s calls.toList [.node .document d'] s' ∧
          (v.Keeps table → d' = d ∧ d.ReachedBy calls.toList)) ∧
      (v.Keeps table → ∀ limit ≥ d.depth,
        ∃ s', (d.visit v limit).run.run s = some (.ok d, s')) := by
  obtain ⟨table, htable⟩ := Document.exists_fragmentTable_iff.mpr ⟨hnamed, hdistinct⟩
  have hends : ∀ limit d' s', (d.visit v limit).run.run s = some (.ok d', s') →
      ∃ calls, d.trace v limit s = .ok (some (d', calls)) ∧
        Walked v table [.node .document d] s calls.toList [.node .document d'] s' ∧
        (v.Keeps table → d' = d ∧ d.ReachedBy calls.toList) := by
    intro limit d' s' h
    obtain ⟨calls, htrace, hwalked⟩ := Document.exists_walked htable h
    refine ⟨calls, htrace, hwalked, fun hv => ⟨?_, ?_⟩⟩
    · have hkept := hwalked.eq_mapLeaves hv.changesLeaves
      simpa using hkept
    · obtain ⟨nodes, hlisted, hentered, hleft, hpassed⟩ := hwalked.reaches hv
      exact ⟨⟨nodes, hlisted, hentered, hleft⟩, by simpa [Item.passes] using hpassed⟩
  refine ⟨table, htable, hends, fun hv limit hlimit => ?_⟩
  obtain ⟨d', s', h⟩ := Document.exists_visit htable (fun k n s _ => hv.node .enter k n s) hlimit s
  obtain ⟨_, _, _, hkeeps⟩ := hends limit d' s' h
  obtain ⟨rfl, -⟩ := hkeeps hv
  exact ⟨s', h⟩

/-- Twelve nodes are entered and left, and a type is passed by. -/
theorem visit_nested_scalar : ∃ d calls,
    Source.parse ⟨"query \x7b a \x7d fragment F on T \x7b b \x7d scalar S", none⟩ = .ok d ∧
      "" ∉ d.fragmentNames ∧ d.fragmentNames.Nodup ∧
      d.trace ({} : Visitor Unit) d.depth () = .ok (some (d, calls)) ∧
      d.ReachedBy calls.toList ∧ calls.size = 25 := by
  let d : Document := ⟨[
    .operation ⟨.query, none, [], [], ⟨[.field ⟨none, ⟨"a", ⟨8, 9⟩⟩, [], [], none, ⟨8, 9⟩⟩], ⟨6, 11⟩⟩,
      ⟨0, 11⟩⟩,
    .fragment ⟨⟨"F", ⟨21, 22⟩⟩, ⟨⟨"T", ⟨26, 27⟩⟩, ⟨26, 27⟩⟩, [],
      ⟨[.field ⟨none, ⟨"b", ⟨30, 31⟩⟩, [], [], none, ⟨30, 31⟩⟩], ⟨28, 33⟩⟩, ⟨12, 33⟩⟩,
    .type (.scalar ⟨none, ⟨"S", ⟨41, 42⟩⟩, [], ⟨34, 42⟩⟩)], ⟨0, 42⟩⟩
  have hparse : Source.parse
      ⟨"query \x7b a \x7d fragment F on T \x7b b \x7d scalar S", none⟩ = .ok d := by decide +kernel
  have hnamed : "" ∉ d.fragmentNames := by decide +kernel
  have hdistinct : d.fragmentNames.Nodup := by decide +kernel
  have hcount : (d.trace ({} : Visitor Unit) d.depth ()).map (·.map (·.2.size)) =
      .ok (some 25) := by decide +kernel
  obtain ⟨table, -, hends, hkeeps⟩ := visit_nested hnamed hdistinct ({} : Visitor Unit) ()
  obtain ⟨s', hrun⟩ := hkeeps ⟨fun _ _ _ _ => rfl, fun _ _ => rfl⟩ d.depth le_rfl
  obtain ⟨calls, htrace, -, hreached⟩ := hends _ _ _ hrun
  obtain ⟨-, hreached⟩ := hreached ⟨fun _ _ _ _ => rfl, fun _ _ => rfl⟩
  refine ⟨d, calls, hparse, hnamed, hdistinct, htrace, hreached, ?_⟩
  rw [htrace] at hcount
  simpa [Except.map] using hcount

end QueryDocs
