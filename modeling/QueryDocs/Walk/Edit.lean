import QueryDocs.Walk.Depth
import QueryDocs.Walk.Visitor

/-! # Edits

An `Edit` names a call of a walk and what to do with the node at that call. A list of edits is a
visitor, which makes those that fit, in order. -/

namespace QueryDocs

namespace NodeKind

/-- The text of a node: of a leaf what it reads, and of other nodes the name they bear. -/
def text? : (k : NodeKind) → k.Node → Option String
  | name, n => some n.text
  | int, n => some n.text
  | float, n => some n.text
  | string, n => some n.text
  | enum, n => some n.text
  | operation, n => n.title?
  | variableDefinition, n => some n.declared.name.text
  | inline, n => n.typeCondition.map (·.name.text)
  | fragment, n => some n.name.text
  | «variable», n => some n.name.text
  | field, n => some n.name.text
  | spread, n => some n.name.text
  | argument, n => some n.name.text
  | directive, n => some n.name.text
  | objectField, n => some n.name.text
  | namedType, n => some n.name.text
  | _, _ => none

/-- A node with its text changed, where it has one. -/
def mapText (f : String → String) : (k : NodeKind) → k.Node → k.Node
  | name, n => n.mapText f
  | int, n => { n with text := f n.text }
  | float, n => { n with text := f n.text }
  | string, n => { n with text := f n.text }
  | enum, n => { n with text := f n.text }
  | operation, n => { n with name := n.name.map (·.mapText f) }
  | variableDefinition, n =>
    { n with declared := { n.declared with name := n.declared.name.mapText f } }
  | inline, n =>
    { n with typeCondition := n.typeCondition.map fun t => { t with name := t.name.mapText f } }
  | fragment, n => { n with name := n.name.mapText f }
  | «variable», n => { n with name := n.name.mapText f }
  | field, n => { n with name := n.name.mapText f }
  | spread, n => { n with name := n.name.mapText f }
  | argument, n => { n with name := n.name.mapText f }
  | directive, n => { n with name := n.name.mapText f }
  | objectField, n => { n with name := n.name.mapText f }
  | namedType, n => { n with name := n.name.mapText f }
  | _, n => n

/-- A node with its main sequence changed, where it has one. -/
def mapItems (f : {α : Type} → List α → List α) : (k : NodeKind) → k.Node → k.Node
  | document, n => { n with definitions := f n.definitions }
  | operation, n => { n with variableDefinitions := f n.variableDefinitions }
  | selectionSet, n => { n with selections := f n.selections }
  | field, n => { n with arguments := f n.arguments }
  | directive, n => { n with arguments := f n.arguments }
  | list, n => { n with values := f n.values }
  | object, n => { n with fields := f n.fields }
  | _, n => n

/-- A node without its directives. -/
def strip : (k : NodeKind) → k.Node → k.Node
  | operation, n => { n with directives := [] }
  | fragment, n => { n with directives := [] }
  | variableDefinition, n => { n with directives := [] }
  | field, n => { n with directives := [] }
  | spread, n => { n with directives := [] }
  | inline, n => { n with directives := [] }
  | _, n => n

/-- A node without the part that can be left out. -/
def drop : (k : NodeKind) → k.Node → k.Node
  | operation, n => { n with name := none }
  | variableDefinition, n => { n with default := none }
  | field, n => { n with selectionSet := none }
  | inline, n => { n with typeCondition := none }
  | _, n => n

end NodeKind

/-- The selections that a selection stands for: those of the fragment, where a fragment is known by
the name. -/
def Selection.inlined (table : FragmentTable) : Selection → List Selection
  | .spread f =>
    match table.get? f.name.text with
    | some g => g.selectionSet.selections
    | none => [.spread f]
  | x => [x]

/-! ### Actions and edits -/

/-- What to do with a node; nothing is done to a node that the action does not fit. -/
inductive Action where
  /-- Replace the text. -/
  | rename (text : String)
  /-- Put more behind the text. -/
  | append (text : String)
  /-- Turn the main sequence around. -/
  | reverse
  /-- Empty the main sequence. -/
  | clear
  /-- Repeat the main sequence. -/
  | double
  /-- Take the directives away. -/
  | strip
  /-- Leave out the part that can be left out. -/
  | drop
  /-- Give a field its own name as an alias. -/
  | addAlias
  /-- Take the alias of a field away. -/
  | removeAlias
  /-- Negate a truth value, or write a string the other way. -/
  | toggle
  /-- Replace the fragments that are used in a selection set by what they select. -/
  | inline
deriving DecidableEq, Repr

/-- A node after an action. -/
def Action.apply (action : Action) (table : FragmentTable) : (k : NodeKind) → k.Node → k.Node :=
  match action with
  | .rename text => NodeKind.mapText fun _ => text
  | .append text => NodeKind.mapText (· ++ text)
  | .reverse => NodeKind.mapItems List.reverse
  | .clear => NodeKind.mapItems fun _ => []
  | .double => NodeKind.mapItems fun l => l ++ l
  | .strip => NodeKind.strip
  | .drop => NodeKind.drop
  | .addAlias => fun
    | .field, n => { n with aliasName := some n.name }
    | _, n => n
  | .removeAlias => fun
    | .field, n => { n with aliasName := none }
    | _, n => n
  | .toggle => fun
    | .boolean, n => { n with value := !n.value }
    | .string, n => { n with block := !n.block }
    | _, n => n
  | .inline => fun
    | .selectionSet, n => { n with selections := n.selections.flatMap (·.inlined table) }
    | _, n => n

/-- An action with the calls at which it is done. -/
structure Edit where
  /-- Before or after the nodes inside. -/
  phase : Phase
  /-- The kind of node. -/
  kind : NodeKind
  /-- The text that the node has to have, if that matters. -/
  text : Option String
  /-- What to do. -/
  action : Action
deriving DecidableEq, Repr

/-- Whether an edit is meant for a node at a call. -/
def Edit.fits (e : Edit) (phase : Phase) (k : NodeKind) (n : k.Node) : Bool :=
  e.phase == phase && e.kind == k && e.text.all (k.text? n == some ·)

/-- A node after the edits that fit, one after the other. -/
def Edit.applyAll (edits : List Edit) (table : FragmentTable) (phase : Phase) (k : NodeKind)
    (n : k.Node) : k.Node :=
  edits.foldl (fun n e => if e.fits phase k n then e.action.apply table k n else n) n

/-- The visitor that makes edits. -/
def Edit.visitor (edits : List Edit) : Visitor Unit where
  node phase table k n := pure (Edit.applyAll edits table phase k n)

/-- A bound for how deep nodes are nested once fragments have been put where they are used, as long as
no fragment comes to stand inside itself: on the way down each definition is met once. -/
def Document.inlinedDepth (d : Document) : Nat :=
  d.definitions.foldl (fun n definition => n + definition.depth) 0

/-- The document after the edits, with the calls made on the way. Edits that put a fragment into
itself have no result. -/
def Document.edit (d : Document) (edits : List Edit) :
    Except FragmentError (Option (Document × Array Call)) :=
  d.trace (Edit.visitor edits) d.inlinedDepth ()

end QueryDocs
