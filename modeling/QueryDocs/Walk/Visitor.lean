import QueryDocs.Document.FragmentTable
import QueryDocs.Walk.Node

/-! # Walking a document

A `Visitor` is called for each node of the operations and fragments of a document, before the nodes
inside it and again after them, and returns the node to keep. `Document.visit` walks a document and
gives back the document that the visitor kept. Other definitions are passed by as a whole.

A visitor may keep nodes that are larger than those it was given, without an end. A walk thus has a
limit for how deep nodes are nested, and fails where they go deeper. -/

namespace QueryDocs

/-- When a visitor is called for a node: before or after the nodes inside it. -/
inductive Phase where
  | enter
  | leave
deriving DecidableEq, Repr

/-- What to do at each node, with a state of type `σ`. -/
structure Visitor (σ : Type) where
  /-- Called for each node, with the fragments of the document that is walked. -/
  node : Phase → FragmentTable → (k : NodeKind) → k.Node → StateM σ k.Node :=
    fun _ _ _ n => pure n
  /-- Called for each definition that is passed by. -/
  definition : FragmentTable → Definition → StateM σ Definition := fun _ d => pure d

/-- A walk with a state of type `σ`, which fails where nodes are nested too deep. -/
abbrev Walk (σ : Type) := StateT σ Option

namespace Walk

variable {σ : Type} (v : Visitor σ) (table : FragmentTable)

/-- One call of a visitor. -/
def call (phase : Phase) (k : NodeKind) (n : k.Node) : Walk σ k.Node :=
  fun s => some ((v.node phase table k n).run s).run

/-- Calls a visitor before and after the nodes inside a node are walked. -/
def around (k : NodeKind) (inside : k.Node → Walk σ k.Node) (n : k.Node) : Walk σ k.Node := do
  let n ← call v table .enter k n
  let n ← inside n
  call v table .leave k n

/-- A node with no nodes inside. -/
def leaf (k : NodeKind) (n : k.Node) : Walk σ k.Node := around v table k pure n

/-- A name. -/
def name (n : Name) : Walk σ Name := leaf v table .name n

/-- A use of a variable. -/
def variableUse (x : Variable) : Walk σ Variable :=
  around v table .variable (fun x : Variable => do
    let name ← name v table x.name
    return { x with name }) x

/-! ### Types and values -/

/-- A type referred to by its name. -/
def namedType (t : NamedType) : Walk σ NamedType :=
  around v table .namedType (fun t : NamedType => do
    let name ← name v table t.name
    return { t with name }) t

/-- A reference to a type, nested up to a limit. -/
def typeRef : Nat → TypeRef → Walk σ TypeRef
  | 0, _ => failure
  | _ + 1, .named t => .named <$> namedType v table t
  | limit + 1, .list t =>
    .list <$> around v table .listType (fun t : ListType => do
      let item ← typeRef limit t.item
      return { t with item }) t
  | limit + 1, .nonNull t =>
    .nonNull <$> around v table .nonNullType (fun t : NonNullType => do
      let nullable ← typeRef limit t.nullable
      return { t with nullable }) t

/-- A value, nested up to a limit. -/
def value : Nat → Value → Walk σ Value
  | 0, _ => failure
  | _ + 1, .variable x => .variable <$> variableUse v table x
  | _ + 1, .int x => .int <$> leaf v table .int x
  | _ + 1, .float x => .float <$> leaf v table .float x
  | _ + 1, .string x => .string <$> leaf v table .string x
  | _ + 1, .boolean x => .boolean <$> leaf v table .boolean x
  | _ + 1, .null x => .null <$> leaf v table .null x
  | _ + 1, .enum x => .enum <$> leaf v table .enum x
  | limit + 1, .list x =>
    .list <$> around v table .list (fun x : ListValue => do
      let values ← x.values.mapM (value limit)
      return { x with values }) x
  | limit + 1, .object x =>
    .object <$> around v table .object (fun x : ObjectValue => do
      let fields ← x.fields.mapM (around v table .objectField (fun f : ObjectField => do
        let name ← name v table f.name
        let value ← value limit f.value
        return { f with name, value }))
      return { x with fields }) x

/-! ### Selections -/

/-- An argument. -/
def argument (limit : Nat) (a : Argument) : Walk σ Argument :=
  around v table .argument (fun a : Argument => do
    let name ← name v table a.name
    let value ← value v table limit a.value
    return { a with name, value }) a

/-- A directive. -/
def directive (limit : Nat) (d : Directive) : Walk σ Directive :=
  around v table .directive (fun d : Directive => do
    let name ← name v table d.name
    let arguments ← d.arguments.mapM (argument v table limit)
    return { d with name, arguments }) d

/-- A use of a fragment. -/
def spread (limit : Nat) (f : FragmentSpread) : Walk σ FragmentSpread :=
  around v table .spread (fun f : FragmentSpread => do
    let name ← name v table f.name
    let directives ← f.directives.mapM (directive v table limit)
    return { f with name, directives }) f

/-- A field, given how selection sets inside it are walked. -/
def field (limit : Nat) (set : SelectionSet → Walk σ SelectionSet) (f : FieldSelection) :
    Walk σ FieldSelection :=
  around v table .field (fun f : FieldSelection => do
    let fieldName ← name v table f.name
    let aliasName ← f.aliasName.mapM (name v table)
    let arguments ← f.arguments.mapM (argument v table limit)
    let selectionSet ← f.selectionSet.mapM set
    let directives ← f.directives.mapM (directive v table limit)
    return { f with name := fieldName, aliasName, arguments, selectionSet, directives }) f

/-- A fragment in place, given how selection sets inside it are walked. -/
def inline (limit : Nat) (set : SelectionSet → Walk σ SelectionSet) (f : InlineFragment) :
    Walk σ InlineFragment :=
  around v table .inline (fun f : InlineFragment => do
    let typeCondition ← f.typeCondition.mapM (namedType v table)
    let directives ← f.directives.mapM (directive v table limit)
    let selectionSet ← set f.selectionSet
    return { f with typeCondition, directives, selectionSet }) f

/-- A selection, given how selection sets inside it are walked. -/
def selection (limit : Nat) (set : SelectionSet → Walk σ SelectionSet) :
    Selection → Walk σ Selection
  | .field f => .field <$> field v table limit set f
  | .spread f => .spread <$> spread v table limit f
  | .inline f => .inline <$> inline v table limit set f

/-- A selection set, nested up to a limit. -/
def selectionSet : Nat → SelectionSet → Walk σ SelectionSet
  | 0, _ => failure
  | limit + 1, x =>
    around v table .selectionSet (fun x : SelectionSet => do
      let selections ← x.selections.mapM (selection v table limit (selectionSet limit))
      return { x with selections }) x

/-! ### Definitions -/

/-- A declared variable. -/
def variableDefinition (limit : Nat) (d : VariableDefinition) : Walk σ VariableDefinition :=
  around v table .variableDefinition (fun d : VariableDefinition => do
    let declared ← variableUse v table d.declared
    let type ← typeRef v table limit d.type
    let default ← d.default.mapM (value v table limit)
    let directives ← d.directives.mapM (directive v table limit)
    return { d with declared, type, default, directives }) d

/-- An operation. -/
def operation (limit : Nat) (d : OperationDefinition) : Walk σ OperationDefinition :=
  around v table .operation (fun d : OperationDefinition => do
    let name ← d.name.mapM (name v table)
    let variableDefinitions ← d.variableDefinitions.mapM (variableDefinition v table limit)
    let directives ← d.directives.mapM (directive v table limit)
    let selectionSet ← selectionSet v table limit d.selectionSet
    return { d with name, variableDefinitions, directives, selectionSet }) d

/-- A fragment. -/
def fragment (limit : Nat) (d : FragmentDefinition) : Walk σ FragmentDefinition :=
  around v table .fragment (fun d : FragmentDefinition => do
    let typeCondition ← namedType v table d.typeCondition
    let name ← name v table d.name
    let directives ← d.directives.mapM (directive v table limit)
    let selectionSet ← selectionSet v table limit d.selectionSet
    return { d with typeCondition, name, directives, selectionSet }) d

/-- A definition: operations and fragments are walked, all others are passed by. -/
def definition (limit : Nat) : Definition → Walk σ Definition
  | .operation d => .operation <$> operation v table limit d
  | .fragment d => .fragment <$> fragment v table limit d
  | d => fun s => some ((v.definition table d).run s).run

/-- A document. -/
def document (limit : Nat) (d : Document) : Walk σ Document :=
  around v table .document (fun d : Document => do
    let definitions ← d.definitions.mapM (definition v table limit)
    return { d with definitions }) d

end Walk

/-- Walks a document with nodes nested up to a limit. Where its fragments cannot be told by their
names, no call is made. -/
def Document.visit {σ : Type} (d : Document) (v : Visitor σ) (limit : Nat) :
    ExceptT FragmentError (Walk σ) Document :=
  match d.fragmentTable with
  | .ok table => Walk.document v table limit d
  | .error e => throw e

/-! ### Calls of a visitor

The calls that a walk makes, in order, each with the node that it was made for. `Visitor.recorded`
is a visitor that notes them. -/

/-- A call of a visitor. -/
inductive Call where
  /-- A call for a node. -/
  | node (phase : Phase) (k : NodeKind) (n : k.Node)
  /-- A call for a definition that is passed by. -/
  | definition (d : Definition)

/-- The visitor that notes each call and then makes it. -/
def Visitor.recorded {σ : Type} (v : Visitor σ) : Visitor (σ × Array Call) where
  node phase table k n := fun (s, calls) =>
    let (n', s') := (v.node phase table k n).run s
    (n', s', calls.push (.node phase k n))
  definition table d := fun (s, calls) =>
    let (d', s') := (v.definition table d).run s
    (d', s', calls.push (.definition d))

/-- The document that a visitor leaves and the calls made on the way. -/
def Document.trace {σ : Type} (d : Document) (v : Visitor σ) (limit : Nat) (s : σ) :
    Except FragmentError (Option (Document × Array Call)) :=
  match (d.visit v.recorded limit).run.run (s, #[]) with
  | some (.ok d', _, calls) => .ok (some (d', calls))
  | some (.error e, _) => .error e
  | none => .ok none

end QueryDocs
