import QueryDocs.Proofs.Grammar.Lays
import QueryDocs.Proofs.Grammar.ReadsExecutable

/-! # Where the nodes of a document lie

Every rule of the grammar makes a node that covers the tokens it takes, with its children one behind
the other in them. A rule that computes a span from a start of its own is gone through part by part;
what it gathers on the way are the children of the node. -/

namespace QueryDocs.Rule

open Node (Placed Laid ofDescription)

/-! ### Values and types -/

section Values
variable {limit l : Nat} {c : Cursor}

theorem lays_variableUse : Lays limit (fun v => [.value (.variable v)]) variableUse c := by
  refine .start fun n => .take (firm_expect rfl) fun _ d => ?_
  refine .bind lays_name fun name e => ?_
  exact .finish (.inl trivial) (fun _ => rfl) (fun _ => rfl) fun _ => rfl

theorem lays_objectField {r : Rule Value} (h : ∀ c, Lays limit (fun v => [.value v]) r c) :
    Lays limit (fun f => [.objectField f]) (objectField r) c := by
  refine .start fun n => .bind lays_name fun name d => ?_
  refine .take (firm_expect rfl) fun _ e => .bind (h e) fun value f => ?_
  exact .finish (.inl trivial) (fun _ => rfl) (fun _ => rfl) fun _ => rfl

/-- A name is the value it stands for. -/
theorem placed_ofWord {t : Token} (h : t.lexeme = Lexeme.word t.text) :
    Placed (.value (ofWord t.text t.span)) [t] := by
  unfold ofWord
  split_ifs with h1 h2 h3 <;> refine .leaf rfl (fun l hl => ?_) rfl <;> cases hl
  · rw [h, h1]
    rfl
  · rw [h, h2]
    rfl
  · rw [h, h3]
  · rw [h]

theorem lays_value (isConst : Bool) : Lays limit (fun v => [.value v]) (value isConst l) c := by
  induction l generalizing c with
  | zero => exact .fail
  | succ l ih =>
    have htoken : ∀ {v : Value} {k : Token.Kind}, k.hasValue = true → c.current.kind = k →
        (c.current.lexeme = (k, some c.current.text) → Placed (.value v) [c.current]) →
        Lays limit (fun v => [.value v]) (advance >>= fun _ => Pure.pure v) c := fun hvalue hk h =>
      leads_token (isEnd_of_hasValue hvalue hk) fun hv => (h (lexeme_eq_value hv hvalue hk)).laid
    have hadvance : ∀ {k : Token.Kind}, k.isMark = true → c.current.kind = k →
        Firm limit (fun _ _ => True) advance c := fun hk hc => firm_advance (isEnd_of_isMark hk hc)
    unfold value
    refine .get ?_
    dsimp only
    cases hk : c.current.kind <;> simp only <;> try exact .fail
    case dollar => exact .ite (fun _ => .fail) fun _ => lays_variableUse.map fun _ => rfl
    case leftBracket =>
      refine Lays.begin (.take (hadvance rfl hk) fun _ d => ?_)
      refine .bind (lays_upTo rfl fun _ => ih) fun values e => ?_
      exact .finish (.inl trivial) (fun _ => rfl) (fun _ => rfl) fun _ => rfl
    case leftBrace =>
      refine Lays.begin (.take (hadvance rfl hk) fun _ d => ?_)
      refine .bind (lays_upTo rfl fun _ => lays_objectField fun _ => ih) fun fields e => ?_
      exact .finish (.inl trivial) (fun _ => rfl) (fun _ => rfl) fun _ => rfl
    case name => exact htoken rfl hk fun h => placed_ofWord h
    case int => exact htoken rfl hk fun h => .leaf rfl (by simpa [Node.lexeme?] using h) rfl
    case float => exact htoken rfl hk fun h => .leaf rfl (by simpa [Node.lexeme?] using h) rfl
    all_goals exact (lays_stringValue (by simp [isString, hk])).map fun _ => rfl

theorem lays_defaultValue : Lays limit Node.ofDefault (defaultValue l) c := by
  refine Lays.accept rfl (fun _ => ?_) (Lays.pure rfl)
  exact (lays_value true).map fun _ => rfl

/-- What may stand behind the core of a reference to a type wraps it. -/
theorem builds_afterCore {n : Nat} {core : TypeRef} :
    Builds limit .typeRef n False [.typeRef core] (afterCore n core) c :=
  .accept rfl (fun _ => .finish (.inl trivial) (fun _ => rfl) (fun _ => rfl) fun _ => rfl) .done

theorem lays_typeRef : Lays limit (fun t => [.typeRef t]) (typeRef l) c := by
  induction l generalizing c with
  | zero => exact .fail
  | succ l ih =>
    unfold typeRef
    refine .start fun n => .accept rfl (fun d => ?_) ?_
    · have hlist : Builds limit .typeRef n True [] (do
          let item ← typeRef l
          expect .rightBracket
          let s ← spanFrom n
          Pure.pure (TypeRef.list ⟨item, s⟩)) d :=
        .bind ih fun _ _ => .take (firm_expect rfl) fun _ _ =>
          .finish (.inl trivial) (fun _ => rfl) (fun _ => rfl) fun _ => rfl
      have hwrap := hlist.wrap fun _ _ => builds_afterCore
      simp only [bind_assoc, pure_bind] at hwrap
      exact hwrap
    · simp only [Bool.false_eq_true, if_false]
      exact .bind lays_namedType fun _ _ => builds_afterCore

end Values

/-! ### Arguments, directives and selections -/

section Executable
variable {limit l : Nat} {c : Cursor}

theorem lays_argument (isConst : Bool) :
    Lays limit (fun a => [.argument a]) (argument l isConst) c := by
  refine .start fun n => .bind lays_name fun name d => ?_
  refine .take (firm_expect rfl) fun _ e => .bind (lays_value isConst) fun value f => ?_
  exact .finish (.inl trivial) (fun _ => rfl) (fun _ => rfl) fun _ => rfl

theorem lays_directive (isConst : Bool) :
    Lays limit (fun d => [.directive d]) (directive l isConst) c := by
  refine .start fun n => .take (firm_expect rfl) fun _ d => .bind lays_name fun name e => ?_
  refine .bind (lays_optionalBetween rfl rfl fun _ => lays_argument isConst) fun arguments f => ?_
  exact .finish (.inl trivial) (fun _ => rfl) (fun _ => rfl) fun _ => rfl

theorem lays_directives (isConst : Bool) :
    Lays limit (fun ds => ds.map .directive) (directives l isConst) c :=
  lays_repeatWhile spreads_map (fun _ _ => lays_directive isConst) l c

section Set
variable {set : Rule SelectionSet} (hset : ∀ c, Lays limit (fun x => [.selectionSet x]) set c)
include hset

theorem builds_afterNames {n : Nat} {taken : Prop} (names : Option Name × Name) :
    Builds limit (fun f => .selection (.field f)) n taken
      (names.1.toList.map .name ++ [.name names.2]) (afterNames n l set names) c := by
  refine .bind (lays_optionalBetween rfl rfl fun _ => lays_argument false) fun arguments d => ?_
  refine .bind (lays_directives false) fun directives e => ?_
  refine .bind (lays_optional fun _ => hset e) fun selectionSet f => ?_
  refine .finish (.inr (by simp)) (fun _ => rfl) (fun _ => rfl) fun _ => ?_
  simp [Node.children, Node.ofSelection]

theorem lays_field : Lays limit (fun f => [.selection (.field f)]) (field l set) c := by
  refine .start fun n => .bind lays_name fun first d => .accept rfl (fun e => ?_) ?_
  · simp only [if_true, pure_bind]
    exact .bind lays_name fun name _ => builds_afterNames hset (some first, name)
  · simp only [Bool.false_eq_true, if_false, pure_bind]
    exact builds_afterNames hset (none, first)

theorem lays_fragmentSelection :
    Lays limit (fun x => [.selection x]) (fragmentSelection l set) c := by
  refine .start fun n => .take (firm_expect rfl) fun _ d => .get (.ite (fun _ => ?_) fun _ => ?_)
  · refine .bind lays_name fun name e => .bind (lays_directives false) fun directives f => ?_
    refine .finish (.inl trivial) (fun _ => rfl) (fun _ => rfl) fun _ => ?_
    simp [Node.children, Node.ofSelection]
  · have hcondition : Lays limit (fun o => o.toList.map .named)
        (optional (·.isWord "on") (do advance; namedType)) d :=
      lays_optional fun hd => .after (firm_advance (isEnd_of_isWord hd)).lays fun _ _ => lays_namedType
    refine .bind hcondition fun typeCondition e => .bind (lays_directives false) fun directives f => ?_
    refine .bind (hset f) fun selectionSet g => ?_
    refine .finish (.inl trivial) (fun _ => rfl) (fun _ => rfl) fun _ => ?_
    simp [Node.children, Node.ofSelection]

theorem lays_selection : Lays limit (fun x => [.selection x]) (selection l set) c :=
  .ifToken (fun _ => lays_fragmentSelection hset) fun _ => (lays_field hset).map fun _ => rfl

end Set

theorem lays_selectionSet : Lays limit (fun x => [.selectionSet x]) (selectionSet l) c := by
  induction l generalizing c with
  | zero => exact .fail
  | succ l ih =>
    refine .start fun n => ?_
    refine .between rfl rfl (fun _ => lays_selection fun _ => ih) fun selections d => ?_
    exact .finish (.inl trivial) (fun _ => rfl) (fun _ => rfl) fun _ => rfl

/-! ### Operations and fragments -/

theorem lays_variableDefinition :
    Lays limit (fun v => [.variableDefinition v]) (variableDefinition l) c := by
  refine .start fun n => .bind lays_variableUse fun declared d => ?_
  refine .take (firm_expect rfl) fun _ e => .bind lays_typeRef fun type f => ?_
  refine .bind lays_defaultValue fun default g => .bind (lays_directives true) fun directives k => ?_
  refine .finish (.inl trivial) (fun _ => rfl) (fun _ => rfl) fun _ => ?_
  simp [Node.children]

theorem lays_operation :
    Lays limit (fun d => [.definition (.operation d)]) (operation l) c := by
  refine .start fun n => .ifToken (fun _ => ?_) fun _ => ?_
  · refine .bind lays_selectionSet fun selectionSet d => ?_
    exact .finish (.inr (by simp)) (fun _ => rfl) (fun _ => rfl) fun _ => rfl
  · refine .take firm_keyword fun operation d => ?_
    refine .bind (lays_optional fun _ => lays_name) fun title e => ?_
    refine .bind (lays_optionalBetween rfl rfl fun _ => lays_variableDefinition) fun declared f => ?_
    refine .bind (lays_directives false) fun directives g => ?_
    refine .bind lays_selectionSet fun selectionSet k => ?_
    refine .finish (.inl trivial) (fun _ => rfl) (fun _ => rfl) fun _ => ?_
    simp [Node.children, Node.ofDefinition]

theorem lays_fragment : Lays limit (fun d => [.definition (.fragment d)]) (fragment l) c := by
  refine .start fun n => .take firm_expectWord fun _ d => ?_
  refine .ifToken (fun _ _ _ _ => .fail) fun _ => .bind lays_name fun name e => ?_
  refine .take firm_expectWord fun _ f => .bind lays_namedType fun typeCondition g => ?_
  refine .bind (lays_directives false) fun directives k => ?_
  refine .bind lays_selectionSet fun selectionSet m => ?_
  refine .finish (.inl trivial) (fun _ => rfl) (fun _ => rfl) fun _ => ?_
  simp [Node.children, Node.ofDefinition]

end Executable

/-! ### Definitions of types and directives -/

section TypeSystem
variable {limit l : Nat} {c : Cursor}

theorem lays_inputValue : Lays limit (fun d => [.inputValue d]) (inputValue l) c := by
  refine .described fun description n d => .bind lays_name fun name e => ?_
  refine .take (firm_expect rfl) fun _ f => .bind lays_typeRef fun type g => ?_
  refine .bind lays_defaultValue fun default k => .bind (lays_directives true) fun directives m => ?_
  refine .finish (.inl trivial) (fun _ => rfl) (fun _ => rfl) fun _ => ?_
  simp [Node.children]

theorem lays_fieldDefinition :
    Lays limit (fun d => [.fieldDefinition d]) (fieldDefinition l) c := by
  refine .described fun description n d => .bind lays_name fun name e => ?_
  refine .bind (lays_optionalBetween rfl rfl fun _ => lays_inputValue) fun arguments f => ?_
  refine .take (firm_expect rfl) fun _ g => .bind lays_typeRef fun type k => ?_
  refine .bind (lays_directives true) fun directives m => ?_
  refine .finish (.inl trivial) (fun _ => rfl) (fun _ => rfl) fun _ => ?_
  simp [Node.children]

theorem lays_enumValue : Lays limit (fun d => [.enumValue d]) (enumValue l) c := by
  refine .described fun description n d => .ifToken (fun _ _ _ _ => .fail) fun _ => ?_
  refine .bind lays_name fun name e => .bind (lays_directives true) fun directives f => ?_
  refine .finish (.inr (by simp)) (fun _ => rfl) (fun _ => rfl) fun _ => ?_
  simp [Node.children]

theorem lays_interfaces : Lays limit (fun ts => ts.map .named) (interfaces l) c := by
  refine .ifToken (fun hc => ?_) fun _ => Lays.pure rfl
  refine Lays.after (firm_advance (isEnd_of_isWord hc)).lays fun _ d => ?_
  exact lays_namedType.append
    (fun _ e => lays_repeatWhile spreads_map (fun _ _ => lays_namedType) l e) fun _ _ => rfl

/-- The bar before the first item is not a part of any item. -/
theorem lays_leadingBar {α : Type} {r : Rule α} {N : α → List Node} {L : List α → List Node}
    (hL : Spreads N L) (h : ∀ c, Lays limit N r c) : Lays limit L (do
      let _ ← accept .pipe
      separated l .pipe r) c :=
  Lays.accept rfl (fun _ => lays_separated rfl hL h) (lays_separated rfl hL h)

theorem lays_unionMembers : Lays limit (fun ts => ts.map .named) (unionMembers l) c := by
  refine Lays.accept rfl (fun _ => ?_) (Lays.pure rfl)
  exact lays_leadingBar spreads_map fun _ => lays_namedType

section Definitions
variable {n : Nat} {v : Option StringValue}

/-- The rules for types start with a word and a name and go on with the rest. -/
theorem builds_typeHead {α : Type} {node : α → Node} {k : Name → Rule α} {w : String}
    (hc : c.current.isWord w = true)
    (hk : ∀ x d, Builds limit node n True (ofDescription v ++ [.name x]) (k x) d) :
    Builds limit node n False (ofDescription v) (do
      advance
      let x ← name
      k x) c :=
  .take (firm_advance (isEnd_of_isWord hc)) fun _ _ => .bind lays_name hk

theorem builds_composite {node : CompositeDefinition → Node} {w : String}
    (hc : c.current.isWord w = true) (hspan : ∀ d, (node d).span = d.span)
    (hlexeme : ∀ d, (node d).lexeme? = none)
    (hchildren : ∀ d, (node d).children = ofDescription d.description ++ .name d.name ::
      d.interfaces.map .named ++ d.directives.map .directive ++ d.fields.map .fieldDefinition) :
    Builds limit node n False (ofDescription v) (composite l n v) c := by
  refine builds_typeHead hc fun name d => .bind lays_interfaces fun interfaces e => ?_
  refine .bind (lays_directives true) fun directives f => ?_
  refine .bind (lays_optionalBetween rfl rfl fun _ => lays_fieldDefinition) fun fields g => ?_
  refine .finish (.inl trivial) (fun _ => hspan _) (fun _ => hlexeme _) fun _ => ?_
  simp [hchildren]

theorem builds_membered {α β : Type} {node : β → Node} {w : String}
    {make : Option StringValue → Name → List Directive → α → Span → β} {members : Rule α}
    {N : α → List Node} (hc : c.current.isWord w = true) (hmembers : ∀ d, Lays limit N members d)
    (hspan : ∀ x ds xs s, (node (make v x ds xs s)).span = s)
    (hlexeme : ∀ y, (node y).lexeme? = none)
    (hchildren : ∀ x ds xs s, (node (make v x ds xs s)).children =
      ofDescription v ++ .name x :: ds.map .directive ++ N xs) :
    Builds limit node n False (ofDescription v) (membered make members l n v) c := by
  refine builds_typeHead hc fun name d => .bind (lays_directives true) fun directives e => ?_
  refine .bind (hmembers e) fun members f => ?_
  refine .finish (.inl trivial) (fun _ => hspan _ _ _ _) (fun _ => hlexeme _) fun _ => ?_
  simp [hchildren]

theorem builds_typeDefinition :
    Builds limit (fun d => .definition (.type d)) n False (ofDescription v)
      (typeDefinition l n v) c := by
  refine .get (.ite (fun hc => .map ?_) fun _ => .ite (fun hc => .map ?_) fun _ =>
    .ite (fun hc => .map ?_) fun _ => .ite (fun hc => .map ?_) fun _ => .ite (fun hc => .map ?_)
    fun _ => .ite (fun hc => .map ?_) fun _ _ _ _ => .fail)
  · refine builds_typeHead hc fun name d => .bind (lays_directives true) fun directives e => ?_
    refine .finish (.inl trivial) (fun _ => rfl) (fun _ => rfl) fun _ => ?_
    simp [Node.children, Node.ofDefinition, Node.ofType]
  · exact builds_composite hc (fun _ => rfl) (fun _ => rfl) fun _ => rfl
  · exact builds_composite hc (fun _ => rfl) (fun _ => rfl) fun _ => rfl
  · exact builds_membered hc (fun _ => lays_unionMembers) (fun _ _ _ _ => rfl) (fun _ => rfl)
      fun _ _ _ _ => rfl
  · exact builds_membered hc (fun _ => lays_optionalBetween rfl rfl fun _ => lays_enumValue)
      (fun _ _ _ _ => rfl) (fun _ => rfl) fun _ _ _ _ => rfl
  · exact builds_membered hc (fun _ => lays_optionalBetween rfl rfl fun _ => lays_inputValue)
      (fun _ _ _ _ => rfl) (fun _ => rfl) fun _ _ _ _ => rfl

/-- The type that is extended starts behind the word `extend`, at a start of its own. -/
theorem lays_extension : Lays limit (fun d => [.definition (.extension d)]) (extension l) c := by
  refine .start fun outer => .take firm_expectWord fun _ d => ?_
  have htype : Lays limit (fun d => [.definition (.type d)]) (do
      let inner ← start
      typeDefinition l inner none) d := .start fun _ => builds_typeDefinition (v := none)
  have hbuilds : Builds limit (fun d => .definition (.extension d)) outer True [] ((do
      let inner ← start
      typeDefinition l inner none) >>= fun definition => spanFrom outer >>= fun s =>
        Pure.pure (TypeExtension.mk definition s)) d :=
    .bind htype fun _ _ => .finish (.inl trivial) (fun _ => rfl) (fun _ => rfl) fun _ => rfl
  rwa [bind_assoc] at hbuilds

theorem lays_rootOperationType :
    Lays limit (fun d => [.rootOperationType d]) rootOperationType c := by
  refine .start fun _ => .bind lays_name fun keyword d => .take (firm_expect rfl) fun _ e => ?_
  refine .bind lays_namedType fun type f => ?_
  exact .finish (.inl trivial) (fun _ => rfl) (fun _ => rfl) fun _ => rfl

theorem builds_schema (hc : c.current.isWord "schema" = true) :
    Builds limit (fun d => .definition (.schema d)) n False (ofDescription v) (schema l n v) c := by
  refine .take (firm_advance (isEnd_of_isWord hc)) fun _ d => ?_
  refine .bind (lays_directives true) fun directives e => ?_
  refine .between rfl rfl (fun _ => lays_rootOperationType) fun operationTypes f => ?_
  refine .finish (.inl trivial) (fun _ => rfl) (fun _ => rfl) fun _ => ?_
  simp [Node.children, Node.ofDefinition]

theorem builds_directiveDefinition (hc : c.current.isWord "directive" = true) :
    Builds limit (fun d => .definition (.directive d)) n False (ofDescription v)
      (directiveDefinition l n v) c := by
  -- the places where the directive can stand are no nodes
  have hplaces : ∀ (name : Name) (arguments : List InputValueDefinition) (repeatable : Bool)
      (d : Cursor), Builds limit (fun d => .definition (.directive d)) n True
        (ofDescription v ++ [.name name] ++ arguments.map .inputValue) (do
          expectWord "on"
          let _ ← accept .pipe
          let locations ← separated l .pipe directiveLocation
          let s ← spanFrom n
          return ⟨v, name, arguments, repeatable, locations, s⟩) d := by
    intro name arguments repeatable d
    refine .take firm_expectWord fun _ e => ?_
    have hbar : Lays limit (fun _ => []) (do
        let _ ← accept .pipe
        separated l .pipe directiveLocation) e :=
      lays_leadingBar ⟨rfl, fun _ _ => rfl⟩ fun _ => firm_keyword.lays
    rw [← bind_assoc]
    refine .bind hbar fun locations f => ?_
    refine .finish (.inl trivial) (fun _ => rfl) (fun _ => rfl) fun _ => ?_
    simp [Node.children, Node.ofDefinition]
  refine .take (firm_advance (isEnd_of_isWord hc)) fun _ d => .take (firm_expect rfl) fun _ e => ?_
  refine .bind lays_name fun name f => ?_
  refine .bind (lays_optionalBetween rfl rfl fun _ => lays_inputValue) fun arguments g => ?_
  refine .atToken (fun hg => ?_) fun _ => hplaces name arguments false g
  exact .take (firm_advance (isEnd_of_isWord hg)) fun _ k => hplaces name arguments true k

/-- A definition that cannot be executed covers its description too. -/
theorem lays_typeSystemDefinition {us : List Token} {b : Cursor} (hv : Described v us)
    (hp : b.Passes us c) :
    Leads limit (fun d ts => Laid [.definition d] (us ++ ts)) (typeSystemDefinition l v) c :=
  Builds.startOf hv hp fun _ => .get (.ite (fun hc => .map (builds_schema hc)) fun _ =>
    .ite (fun hc => .map (builds_directiveDefinition hc)) fun _ => .map builds_typeDefinition)

end Definitions

theorem lays_definition : Lays limit (fun d => [.definition d]) (definition l) c := by
  refine .get (.ite (fun _ => ?_) fun _ => .ite (fun hc => ?_) fun _ => .ite (fun _ => ?_) fun _ =>
    .ite (fun _ => ?_) fun _ => ?_)
  · exact lays_operation.map fun _ => rfl
  · exact (leads_stringValue hc).bind fun v d ts hp hv => lays_typeSystemDefinition hv hp
  · exact lays_fragment.map fun _ => rfl
  · exact lays_extension.map fun _ => rfl
  · exact lays_typeSystemDefinition .none (.nil c)

/-- **The definitions of a text lie over its tokens.** -/
theorem Run.laid {xs : List Definition} {d : Cursor} (h : Run limit c xs d) (hc : c.Within limit) :
    ∃ ts, c.Passes ts d ∧ Laid (xs.map .definition) ts := by
  induction h with
  | nil => exact ⟨[], .nil _, .nil []⟩
  | cons _ hx _ ih =>
    obtain ⟨ts, hp, hts⟩ := lays_definition hc _ _ hx
    obtain ⟨us, hps, hus⟩ := ih (hc.passes hp)
    exact ⟨ts ++ us, hp.append hps, hts.append hus⟩

end TypeSystem

end QueryDocs.Rule
