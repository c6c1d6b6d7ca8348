import QueryDocs.Proofs.Walk.Items
import QueryDocs.Walk.Visitor

/-! # Calls of a walk

`Walked` says which calls a visitor gets for some items, in which state each of them is made, and which
items are kept. The calls are well nested: a call before a node is closed by one after it, and between
them stand the calls for the items inside the node that the visitor gave back. Visitor and state decide
all of this (`Walked.unique`), and it is the same for a visitor that notes its calls
(`Walked.recorded`). -/

namespace QueryDocs

/-- **A visitor gets these calls for some items** and keeps others in their place. -/
inductive Walked {σ : Type} (v : Visitor σ) (table : FragmentTable) :
    List Item → σ → List Call → List Item → σ → Prop where
  | nil (s : σ) : Walked v table [] s [] [] s
  | node {k : NodeKind} {n n₁ n₂ n₃ : k.Node} {items items' : List Item} {inside after : List Call}
      {s s₁ s₂ s₃ s₄ : σ} (henter : (v.node .enter table k n).run s = (n₁, s₁))
      (hinside : Walked v table (k.parts n₁).flatten s₁ inside (k.parts n₂).flatten s₂)
      (hagrees : k.Agrees n₁ n₂) (hleave : (v.node .leave table k n₂).run s₂ = (n₃, s₃))
      (hrest : Walked v table items s₃ after items' s₄) :
      Walked v table (.node k n :: items) s
        (.node .enter k n :: (inside ++ .node .leave k n₂ :: after)) (.node k n₃ :: items') s₄
  | passed {d d₁ : Definition} {items items' : List Item} {after : List Call} {s s₁ s₂ : σ}
      (h : (v.definition table d).run s = (d₁, s₁)) (hrest : Walked v table items s₁ after items' s₂) :
      Walked v table (.passed d :: items) s (.definition d :: after)
        (Item.ofDefinition d₁ :: items') s₂

namespace Walked

variable {σ : Type} {v : Visitor σ} {table : FragmentTable} {items items' items₁ items₁' : List Item}
  {s s' s₁ : σ} {calls calls' : List Call}

theorem append (h : Walked v table items s calls items' s')
    (h' : Walked v table items₁ s' calls' items₁' s₁) :
    Walked v table (items ++ items₁) s (calls ++ calls') (items' ++ items₁') s₁ := by
  induction h with
  | nil => exact h'
  | node henter hinside hagrees hleave _ _ ih =>
    have := Walked.node henter hinside hagrees hleave (ih h')
    simpa using this
  | passed hpass _ ih => exact .passed hpass (ih h')

theorem length_eq (h : Walked v table items s calls items' s') : items.length = items'.length := by
  induction h with
  | nil => rfl
  | node _ _ _ _ _ _ ih => exact congrArg (· + 1) ih
  | passed _ _ ih => exact congrArg (· + 1) ih

/-- **Visitor and state decide the calls.** -/
theorem unique (h : Walked v table items s calls items' s')
    (h' : Walked v table items s calls' items₁' s₁) : calls = calls' ∧ items' = items₁' ∧ s' = s₁ := by
  induction h generalizing calls' items₁' s₁ with
  | nil =>
    cases h'
    exact ⟨rfl, rfl, rfl⟩
  | node henter _ hagrees hleave _ ihinside ihrest =>
    cases h' with
    | node henter' hinside' hagrees' hleave' hrest' =>
      cases henter.symm.trans henter'
      obtain ⟨rfl, hparts, rfl⟩ := ihinside hinside'
      -- the items that are kept inside leave one node to close with
      obtain rfl := (hagrees.symm.trans hagrees').eq_of_parts hparts
      cases hleave.symm.trans hleave'
      obtain ⟨rfl, rfl, rfl⟩ := ihrest hrest'
      exact ⟨rfl, rfl, rfl⟩
  | passed hpass _ ih =>
    cases h' with
    | passed hpass' hrest' =>
      cases hpass.symm.trans hpass'
      obtain ⟨rfl, rfl, rfl⟩ := ih hrest'
      exact ⟨rfl, rfl, rfl⟩

/-- A visitor that notes its calls gets those of the visitor itself, and notes them all. -/
theorem recorded {s s' : σ × Array Call} (h : Walked v.recorded table items s calls items' s') :
    s'.2.toList = s.2.toList ++ calls ∧ Walked v table items s.1 calls items' s'.1 := by
  induction h with
  | nil => exact ⟨(List.append_nil _).symm, .nil _⟩
  | node henter _ hagrees hleave _ ihinside ihrest =>
    obtain ⟨rfl, rfl⟩ := Prod.mk.injEq .. ▸ henter
    obtain ⟨rfl, rfl⟩ := Prod.mk.injEq .. ▸ hleave
    obtain ⟨hinside, hwinside⟩ := ihinside
    obtain ⟨hrest, hwrest⟩ := ihrest
    refine ⟨?_, .node rfl hwinside hagrees rfl hwrest⟩
    rw [hrest, Array.toList_push, hinside, Array.toList_push]
    simp
  | passed hpass _ ih =>
    obtain ⟨rfl, rfl⟩ := Prod.mk.injEq .. ▸ hpass
    obtain ⟨hrest, hwrest⟩ := ih
    refine ⟨?_, .passed rfl hwrest⟩
    rw [hrest, Array.toList_push]
    simp

end Walked

end QueryDocs
