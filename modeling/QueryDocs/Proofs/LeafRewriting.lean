import QueryDocs.Grammar.Parse
import QueryDocs.Layout.Document
import QueryDocs.Proofs.Document.Fragments
import QueryDocs.Proofs.Walk.Leaves
import QueryDocs.Proofs.Walk.Visit

/-! # Rewriting leaves

A visitor with a single hook, for one kind of leaves, leaves the document with each leaf of this kind
changed once and all else as it was (`visit_onKind`). It does not matter whether the hook is called
before or after the node. -/

namespace QueryDocs

/-- A change of the nodes of one kind. -/
def NodeMap.only (k : NodeKind) (f : k.Node → k.Node) : NodeMap := Function.update (fun _ => id) k f

/-- The visitor that changes the nodes of one kind when it is called for them in one phase. -/
def Visitor.onKind {σ : Type} (phase : Phase) (k : NodeKind) (f : k.Node → k.Node) : Visitor σ where
  node phase' _ k' n := pure (if phase' = phase then NodeMap.only k f k' n else n)

section OneKind
variable {σ : Type} {k : NodeKind} {f : k.Node → k.Node}

theorem NodeMap.only_of_ne {k' : NodeKind} (h : k' ≠ k) : NodeMap.only k f k' = id :=
  Function.update_of_ne h _ _

theorem NodeMap.only_id : NodeMap.only k id = fun _ => id := Function.update_eq_self _ _

theorem Visitor.onKind_changesLeaves (hk : k.isLeaf = true) (phase : Phase) (table : FragmentTable) :
    (Visitor.onKind phase k f : Visitor σ).ChangesLeaves table (NodeMap.only k f) where
  node phase' k' n s hk' := by
    have hne : k' ≠ k := by
      rintro rfl
      cases hk.symm.trans hk'
    change (if phase' = phase then NodeMap.only k f k' n else n) = n
    rw [NodeMap.only_of_ne hne, id, ite_self]
  leaf k' n s _ := by cases phase <;> rfl
  definition _ _ := rfl

/-- **A rewrite of one kind of leaves** reaches each of these leaves inside the operations and fragments
once, and changes nothing else. -/
theorem visit_onKind {d : Document} (hnamed : "" ∉ d.fragmentNames) (hdistinct : d.fragmentNames.Nodup)
    (hk : k.isLeaf = true) (f : k.Node → k.Node) (phase : Phase) {limit : Nat}
    (hlimit : d.depth ≤ limit) (s : σ) :
    (d.visit (Visitor.onKind phase k f) limit).run.run' s = some (.ok (d.mapLeaves (NodeMap.only k f))) ∧
      d.mapLeaves (NodeMap.only k id) = d := by
  obtain ⟨table, htable⟩ := Document.exists_fragmentTable_iff.mpr ⟨hnamed, hdistinct⟩
  have hv : (Visitor.onKind phase k f : Visitor σ).ChangesLeaves table (NodeMap.only k f) :=
    Visitor.onKind_changesLeaves hk phase table
  obtain ⟨d', s', hvisit⟩ := Document.exists_visit htable (fun k n s => hv.node .enter k n s) hlimit s
  obtain ⟨calls, -, hwalked⟩ := Document.exists_walked htable hvisit
  have hkept : d' = d.mapLeaves (NodeMap.only k f) := by
    simpa [NodeKind.mapLeaves] using hwalked.eq_mapLeaves hv
  refine ⟨?_, by rw [NodeMap.only_id, Document.mapLeaves_id]⟩
  rw [StateT.run'_eq, hvisit, hkept]
  rfl

end OneKind

/-- A text with names as aliases, in types, in defaults and behind directives. -/
def namedText : String := "query ($v: [T!] = \x7bk: [1, E]\x7d) \x7b a: b(c: $v) @d \x7d scalar S"

/-- All names of the operation are changed, and that of the type is not. -/
theorem visit_onKind_name : ∃ d, Source.parse ⟨namedText, none⟩ = .ok d ∧ "" ∉ d.fragmentNames ∧
    d.fragmentNames.Nodup ∧ ∃ d',
      (d.visit (Visitor.onKind .leave .name fun n => { n with text := n.text ++ "x" })
        d.depth).run.run' () = some (.ok d') ∧
      d'.print =
        "query($vx: [Tx!] = \x7bkx: [1, E]\x7d) \x7b\n  ax: bx(cx: $vx) @dx\n\x7d\n\nscalar S\n" := by
  let f : Name → Name := fun n => { n with text := n.text ++ "x" }
  have hprint : (Source.parse ⟨namedText, none⟩).map
      (fun d => (d.fragmentNames, (d.mapLeaves (NodeMap.only .name f)).print)) = .ok ([],
        "query($vx: [Tx!] = \x7bkx: [1, E]\x7d) \x7b\n  ax: bx(cx: $vx) @dx\n\x7d\n\nscalar S\n") := by
    decide +kernel
  cases hparse : Source.parse ⟨namedText, none⟩ with
  | error e =>
    rw [hparse] at hprint
    cases hprint
  | ok d =>
    rw [hparse] at hprint
    obtain ⟨hnames, hprint⟩ := Prod.mk.inj (Except.ok.inj hprint)
    have hnamed : "" ∉ d.fragmentNames := by simp [hnames]
    have hdistinct : d.fragmentNames.Nodup := by simp [hnames]
    obtain ⟨hvisit, -⟩ := visit_onKind (k := .name) hnamed hdistinct rfl f .leave (Nat.le_refl _) ()
    exact ⟨d, rfl, hnamed, hdistinct, _, hvisit, hprint⟩

end QueryDocs
