import QueryDocs.Layout.Document
import QueryDocs.Proofs.Layout.Pieces

/-! # The tokens of a printed document

Every node is laid out for its tokens, in every style and on every level. -/

namespace QueryDocs

open QueryDocs.Layout Lexeme

section Layout
variable (style : Style) (level : Nat)

/-! ### Blanks -/

theorem isIndent_of_mem_margin {c : Char} (h : c ∈ style.margin level) :
    Block.isIndent c = true := by
  unfold Style.margin at h
  split_ifs at h
  · rw [List.eq_of_mem_replicate h]
    rfl
  · rw [List.eq_of_mem_replicate h]
    rfl

variable {ps qs : List Piece} {ls ms : List Lexeme}

theorem led_mark {k : Token.Kind} (h : k ≠ .spread) : Led (.mark k :: ps) := h

theorem Prints.space (h : Prints ps ls) : Prints (space :: ps) ls :=
  .ignored (by decide) (by decide) h

theorem Prints.newline (h : Prints ps ls) : Prints (newline style level :: ps) ls := by
  refine .blank (by simp) (fun c hc => ?_) h
  rw [String.toList_ofList] at hc
  rcases List.mem_cons.mp hc with rfl | hc
  · rfl
  · have := isIndent_of_mem_margin style level hc
    simp only [Block.isIndent, Bool.or_eq_true, beq_iff_eq] at this
    rcases this with rfl | rfl <;> rfl

/-! ### Lists -/

variable {α : Type} {f : α → List Piece} {g : α → List Lexeme}

theorem prints_intercalate {sep : List Piece} {ks : List Lexeme} (hled : Led sep)
    (hne : sep ≠ []) (hsep : ∀ {ps ls}, Prints ps ls → Prints (sep ++ ps) (ks ++ ls))
    {x : α} {xs : List α} (h : ∀ y ∈ x :: xs, Prints (f y) (g y)) :
    Prints (sep.intercalate ((x :: xs).map f)) (g x ++ xs.flatMap fun y => ks ++ g y) := by
  induction xs generalizing x with
  | nil => simpa [List.intercalate_singleton] using h x (by simp)
  | cons y ys ih =>
    have hrest := hsep (ih fun z hz => h z (List.mem_cons_of_mem _ hz))
    rw [List.map_cons, List.intercalate_cons_of_ne_nil (by simp), List.append_assoc]
    have hx := (h x (by simp)).append hrest ((by
      obtain ⟨p, sep, rfl⟩ := List.exists_cons_of_ne_nil hne
      cases p <;> exact hled))
    simpa using hx

theorem prints_commaSeparated {xs : List α} (h : ∀ x ∈ xs, Prints (f x) (g x)) :
    Prints (commaSeparated (xs.map f)) (xs.flatMap g) := by
  cases xs with
  | nil => exact .nil
  | cons x xs =>
    have hsep : ∀ {ps ls}, Prints ps ls → Prints ([Piece.blank ", "] ++ ps) ([] ++ ls) :=
      fun h => .ignored (by decide) (by decide) h
    have hled : Led [Piece.blank ", "] := trivial
    simpa [commaSeparated] using prints_intercalate hled (by simp) hsep h

theorem prints_flatMap (f : α → List Piece) (g : α → List Lexeme) {xs : List α}
    (h : ∀ x ∈ xs, Prints (f x) (g x)) (hl : ∀ x, Led (f x)) :
    Prints (xs.flatMap f) (xs.flatMap g) ∧ Led (xs.flatMap f) := by
  induction xs with
  | nil => exact ⟨.nil, trivial⟩
  | cons x xs ih =>
    obtain ⟨h1, h2⟩ := List.forall_mem_cons.mp h
    obtain ⟨h3, h4⟩ := ih h2
    exact ⟨h1.append h3 h4, (hl x).append h4⟩

theorem prints_enclosed {opening close : Token.Kind} (hc : close ≠ .spread) {xs : List α}
    (h : ∀ x ∈ xs, Prints (f x) (g x)) :
    Prints (.mark opening :: commaSeparated (xs.map f) ++ [.mark close])
      (mark opening :: xs.flatMap g ++ [mark close]) :=
  .mark ((prints_commaSeparated h).append (.mark .nil) hc)

theorem prints_body {opening close : Token.Kind} {xs : List α}
    (h : ∀ x ∈ xs, Prints (f x) (g x)) :
    Prints (body style level opening close (xs.map f))
      (mark opening :: xs.flatMap g ++ [mark close]) := by
  have hitems := (prints_flatMap (fun x => newline style (level + 1) :: f x) g
    (fun x hx => (h x hx).newline style (level + 1)) fun x => trivial).1
  have hend : Prints [newline style level, .mark close] [mark close] :=
    .newline style level (.mark .nil)
  have := Prints.mark (k := opening) (hitems.append hend trivial)
  simpa [body, List.flatMap_map] using this

theorem prints_optionalBody {xs : List α} (h : ∀ x ∈ xs, Prints (f x) (g x)) :
    Prints (optionalBody style level (xs.map f)) (bodyLexemes g xs) := by
  cases xs with
  | nil => exact .nil
  | cons x xs => exact (prints_body style level h).space

theorem led_optionalBody (items : List (List Piece)) : Led (optionalBody style level items) := by
  unfold optionalBody
  split_ifs <;> trivial

/-! ### Values and types -/

theorem prints_stringValue (v : StringValue) (h : Prints ps ls) (hl : Led ps) :
    Prints (stringValue style level v :: ps) (v.lexeme :: ls) :=
  .string (fun _ hc => isIndent_of_mem_margin style level hc) h hl

theorem values_eq_map (vs : List Value) : values style level vs = vs.map (value style level) := by
  induction vs with
  | nil => rfl
  | cons v vs ih => rw [values, ih, List.map_cons]

/-- A field of an object. -/
def objectField (f : ObjectField) : List Piece :=
  .word f.name.text :: .mark .colon :: space :: value style level f.value

theorem objectFields_eq_map (fs : List ObjectField) :
    objectFields style level fs = fs.map (objectField style level) := by
  induction fs with
  | nil => rfl
  | cons f fs ih => cases f; rw [objectFields, ih, List.map_cons]; rfl

mutual

theorem prints_value : ∀ v : Value, Prints (value style level v) v.lexemes
  | .variable v => .mark (.word .nil trivial)
  | .int v => .int .nil trivial
  | .float v => .float .nil trivial
  | .string v => prints_stringValue style level v .nil trivial
  | .boolean v => .word .nil trivial
  | .null v => .word .nil trivial
  | .enum v => .word .nil trivial
  | .list ⟨vs, s⟩ => by
    rw [value, Value.lexemes_list, values_eq_map]
    exact prints_enclosed (by decide) (prints_values vs)
  | .object ⟨fs, s⟩ => by
    rw [value, Value.lexemes_object, objectFields_eq_map]
    exact prints_enclosed (by decide) (prints_objectFields fs)

theorem prints_values : ∀ vs : List Value, ∀ v ∈ vs, Prints (value style level v) v.lexemes
  | [] => by simp
  | v :: vs => List.forall_mem_cons.mpr ⟨prints_value v, prints_values vs⟩

theorem prints_objectFields : ∀ fs : List ObjectField, ∀ f ∈ fs,
    Prints (objectField style level f) f.lexemes
  | [] => by simp
  | ⟨_, v, _⟩ :: fs => List.forall_mem_cons.mpr
    ⟨.word (.mark (prints_value v).space) (led_mark (by decide)), prints_objectFields fs⟩

end

theorem prints_typeRef : ∀ t : TypeRef, Prints (typeRef t) t.lexemes
  | .named t => .word .nil trivial
  | .list ⟨t, _⟩ => .mark ((prints_typeRef t).append (.mark .nil) (led_mark (by decide)))
  | .nonNull ⟨t, _⟩ => (prints_typeRef t).append (.mark .nil) (led_mark (by decide))

theorem prints_defaultValue (v : Option Value) :
    Prints (defaultValue style level v) (defaultLexemes v) ∧ Led (defaultValue style level v) := by
  cases v with
  | none => exact ⟨.nil, trivial⟩
  | some v => exact ⟨.space (.mark (prints_value style level v).space), trivial⟩

/-! ### Selections -/

theorem prints_argument (a : Argument) : Prints (argument style level a) a.lexemes :=
  .word (.mark (prints_value style level a.value).space) (led_mark (by decide))

theorem prints_arguments (as : List Argument) :
    Prints (arguments style level as) (argumentLexemes as) ∧ Led (arguments style level as) := by
  cases as with
  | nil => exact ⟨.nil, trivial⟩
  | cons a as =>
    exact ⟨prints_enclosed (by decide) fun a _ => prints_argument style level a,
      led_mark (by decide)⟩

theorem prints_directives (ds : List Directive) :
    Prints (directives style level ds) (directiveLexemes ds) ∧ Led (directives style level ds) :=
  prints_flatMap _ _ (fun d _ => .space (.mark (.word (prints_arguments style level d.arguments).1
    (prints_arguments style level d.arguments).2))) fun _ => trivial

theorem prints_typeCondition (c : Option NamedType) :
    Prints (typeCondition c) (conditionLexemes c) ∧ Led (typeCondition c) := by
  cases c with
  | none => exact ⟨.nil, trivial⟩
  | some t => exact ⟨.space (.word (.space (.word .nil trivial)) trivial), trivial⟩

theorem prints_fieldHead (a : Option Name) (n : Name) (as : List Argument) (ds : List Directive) :
    Prints (fieldHead style level a n as ds) (headLexemes a n as ds) := by
  obtain ⟨has, hasl⟩ := prints_arguments style level as
  obtain ⟨hds, hdsl⟩ := prints_directives style level ds
  have hname := Prints.word (w := n.text) (has.append hds hdsl) (hasl.append hdsl)
  cases a with
  | none => simpa [fieldHead, headLexemes, ofOption] using hname
  | some a =>
    simpa [fieldHead, headLexemes, ofOption] using
      Prints.word (w := a.text) (.mark (k := .colon) hname.space) (led_mark (by decide))

theorem selections_eq_map (xs : List Selection) :
    selections style level xs = xs.map (selection style level) := by
  induction xs with
  | nil => rfl
  | cons x xs ih => rw [selections, ih, List.map_cons]

mutual

theorem prints_selection : ∀ (level : Nat) (x : Selection),
    Prints (selection style level x) x.lexemes
  | level, .field f => by
    rw [selection, Selection.lexemes]
    exact prints_field level f
  | level, .spread f => by
    obtain ⟨hds, hdsl⟩ := prints_directives style level f.directives
    rw [selection, Selection.lexemes]
    exact .mark (.word hds hdsl)
  | level, .inline f => by
    rw [selection, Selection.lexemes]
    exact prints_inline level f

theorem prints_field : ∀ (level : Nat) (f : FieldSelection),
    Prints (field style level f) f.lexemes
  | level, ⟨a, n, as, ds, none, s⟩ => by
    rw [field, FieldSelection.lexemes]
    exact prints_fieldHead style level a n as ds
  | level, ⟨a, n, as, ds, some x, s⟩ => by
    rw [field, FieldSelection.lexemes]
    exact (prints_fieldHead style level a n as ds).append (prints_selectionSet level x).space trivial

theorem prints_inline : ∀ (level : Nat) (f : InlineFragment),
    Prints (inline style level f) f.lexemes
  | level, ⟨c, ds, x, s⟩ => by
    obtain ⟨hds, hdsl⟩ := prints_directives style level ds
    obtain ⟨hc, hcl⟩ := prints_typeCondition c
    rw [Layout.inline, InlineFragment.lexemes]
    have := (hc.append hds hdsl).append (prints_selectionSet level x).space trivial
    simpa using Prints.mark (k := .spread) this

theorem prints_selectionSet : ∀ (level : Nat) (x : SelectionSet),
    Prints (selectionSet style level x) x.lexemes
  | level, ⟨xs, s⟩ => by
    rw [selectionSet, SelectionSet.lexemes_mk, selections_eq_map]
    exact prints_body style level (prints_selections (level + 1) xs)

theorem prints_selections : ∀ (level : Nat) (xs : List Selection), ∀ x ∈ xs,
    Prints (selection style level x) x.lexemes
  | _, [] => by simp
  | level, x :: xs =>
    List.forall_mem_cons.mpr ⟨prints_selection level x, prints_selections level xs⟩

end

/-! ### Operations and fragments -/

theorem prints_variableDefinition (d : VariableDefinition) :
    Prints (variableDefinition style d) d.lexemes := by
  obtain ⟨hv, hvl⟩ := prints_defaultValue style 0 d.default
  obtain ⟨hds, hdsl⟩ := prints_directives style 0 d.directives
  have := ((prints_typeRef d.type).append hv hvl).append hds hdsl
  simpa [variableDefinition, VariableDefinition.lexemes] using
    Prints.mark (k := .dollar) (.word (w := d.declared.name.text) (.mark (k := .colon) this.space)
      (led_mark (by decide)))

theorem prints_operation (d : OperationDefinition) :
    Prints (operation style d) (d.lexemes false) := by
  have hset := prints_selectionSet style 0 d.selectionSet
  rw [operation, operationHead, OperationDefinition.lexemes]
  by_cases hs : d.isShorthand = true
  · rw [if_pos hs, if_pos hs]
    exact hset
  · rw [if_neg hs, if_neg hs]
    obtain ⟨hv, hvl⟩ : Prints (if d.variableDefinitions.isEmpty then []
        else .mark .leftParen :: commaSeparated (d.variableDefinitions.map (variableDefinition style))
          ++ [.mark .rightParen]) (enclosed .leftParen .rightParen VariableDefinition.lexemes
            d.variableDefinitions) ∧ Led (if d.variableDefinitions.isEmpty then []
        else .mark .leftParen :: commaSeparated (d.variableDefinitions.map (variableDefinition style))
          ++ [.mark .rightParen]) := by
      cases d.variableDefinitions with
      | nil => exact ⟨.nil, trivial⟩
      | cons x xs =>
        exact ⟨prints_enclosed (by decide) fun x _ => prints_variableDefinition style x,
          led_mark (by decide)⟩
    obtain ⟨hds, hdsl⟩ := prints_directives style 0 d.directives
    have hrest := (hv.append hds hdsl).append hset.space trivial
    have hsetl : Led (space :: selectionSet style 0 d.selectionSet) := trivial
    have hrestl := (hvl.append hdsl).append hsetl
    cases hn : d.name with
    | none => simpa [ofOption] using Prints.word (w := d.operation.keyword) hrest hrestl
    | some n =>
      simpa [ofOption] using Prints.word (w := d.operation.keyword)
        (.space (.word (w := n.text) hrest hrestl)) trivial

theorem prints_fragment (d : FragmentDefinition) : Prints (fragment style d) d.lexemes := by
  obtain ⟨hc, hcl⟩ := prints_typeCondition (some d.typeCondition)
  obtain ⟨hds, hdsl⟩ := prints_directives style 0 d.directives
  have hset := (prints_selectionSet style 0 d.selectionSet).space
  have := Prints.word (w := "fragment") (.space (.word (w := d.name.text)
    (hc.append (hds.append hset trivial) (hdsl.append trivial)) (hcl.append (hdsl.append trivial))))
    trivial
  simpa [fragment, FragmentDefinition.lexemes, conditionLexemes, ofOption] using this

/-! ### Types and directives -/

theorem Prints.description (d : Option StringValue) (h : Prints ps ls) :
    Prints (description style level d ++ ps) (descriptionLexemes d ++ ls) := by
  cases d with
  | none => exact h
  | some d => exact prints_stringValue style level d (h.newline style level) trivial

theorem prints_inputValue (d : InputValueDefinition) :
    Prints (inputValue style level d) d.lexemes := by
  obtain ⟨hv, hvl⟩ := prints_defaultValue style level d.default
  obtain ⟨hds, hdsl⟩ := prints_directives style level d.directives
  have := ((prints_typeRef d.type).append hv hvl).append hds hdsl
  have := Prints.description style level d.description
    (.word (w := d.name.text) (.mark (k := .colon) this.space) (led_mark (by decide)))
  simpa [inputValue, InputValueDefinition.lexemes] using this

theorem prints_declaredArguments (ds : List InputValueDefinition) :
    Prints (declaredArguments style level ds) (declaredLexemes ds) ∧
      Led (declaredArguments style level ds) := by
  cases ds with
  | nil => exact ⟨.nil, trivial⟩
  | cons d ds =>
    rw [declaredArguments, if_neg (by simp)]
    split_ifs
    · exact ⟨prints_body style level fun d _ => prints_inputValue style (level + 1) d,
        led_mark (by decide)⟩
    · exact ⟨prints_enclosed (by decide) fun d _ => prints_inputValue style level d,
        led_mark (by decide)⟩

theorem prints_fieldDefinition (d : FieldDefinition) :
    Prints (fieldDefinition style level d) d.lexemes := by
  obtain ⟨has, hasl⟩ := prints_declaredArguments style level d.arguments
  obtain ⟨hds, hdsl⟩ := prints_directives style level d.directives
  have htype := Prints.mark (k := .colon) ((prints_typeRef d.type).append hds hdsl).space
  have := Prints.description style level d.description
    (.word (w := d.name.text) (has.append htype (led_mark (by decide)))
      (hasl.append (led_mark (by decide))))
  simpa [fieldDefinition, FieldDefinition.lexemes] using this

theorem prints_enumValue (d : EnumValueDefinition) :
    Prints (enumValue style level d) d.lexemes := by
  obtain ⟨hds, hdsl⟩ := prints_directives style level d.directives
  exact Prints.description style level d.description (.word hds hdsl)

theorem prints_interfaces (ts : List NamedType) :
    Prints (interfaces ts) (interfaceLexemes ts) ∧ Led (interfaces ts) := by
  cases ts with
  | nil => exact ⟨.nil, trivial⟩
  | cons t ts =>
    have hitem : ∀ u ∈ t :: ts, Prints [space, .word u.name.text] u.lexemes :=
      fun u _ => .space (.word .nil trivial)
    obtain ⟨h, hl⟩ := prints_flatMap (fun t : NamedType => [space, .word t.name.text])
      NamedType.lexemes hitem fun _ => trivial
    exact ⟨.space (.word h hl), trivial⟩

theorem prints_unionMembers (ts : List NamedType) :
    Prints (unionMembers ts) (memberLexemes false ts) ∧ Led (unionMembers ts) := by
  cases ts with
  | nil => exact ⟨.nil, trivial⟩
  | cons t ts =>
    have hitem : ∀ t ∈ ts, Prints [space, .mark .pipe, space, .word t.name.text]
        (mark .pipe :: t.lexemes) := fun t _ => .space (.mark (.space (.word .nil trivial)))
    obtain ⟨h, hl⟩ := prints_flatMap
      (fun t : NamedType => [space, .mark .pipe, space, .word t.name.text])
      (fun t => mark .pipe :: t.lexemes) hitem fun _ => trivial
    exact ⟨.space (.mark (.space (.word h hl))), trivial⟩

theorem Prints.typeHead (d : Option StringValue) (keyword : String) (name : Name)
    (h : Prints ps ls) (hl : Led ps) :
    Prints (Layout.description style 0 d ++ .word keyword :: Layout.space :: .word name.text :: ps)
      (typeLexemes d keyword name ++ ls) := by
  have := Prints.description style 0 d
    (.word (w := keyword) (.space (.word (w := name.text) h hl)) trivial)
  simpa [typeLexemes] using this

theorem prints_composite (keyword : String) (d : CompositeDefinition) :
    Prints (composite style keyword d) (d.lexemes keyword) := by
  obtain ⟨hi, hil⟩ := prints_interfaces d.interfaces
  obtain ⟨hds, hdsl⟩ := prints_directives style 0 d.directives
  have hfields : ∀ f ∈ d.fields, Prints (fieldDefinition style 1 f) f.lexemes :=
    fun f _ => prints_fieldDefinition style 1 f
  have hb := prints_optionalBody style 0 hfields
  have hbl := led_optionalBody style 0 (d.fields.map (fieldDefinition style 1))
  have := Prints.typeHead style d.description keyword d.name
    ((hi.append hds hdsl).append hb hbl) ((hil.append hdsl).append hbl)
  simpa [composite, CompositeDefinition.lexemes] using this

theorem prints_typeDefinition (d : TypeDefinition) :
    Prints (typeDefinition style d) (d.lexemes false) := by
  cases d with
  | scalar d =>
    obtain ⟨hds, hdsl⟩ := prints_directives style 0 d.directives
    exact Prints.typeHead style d.description "scalar" d.name hds hdsl
  | object d => exact prints_composite style "type" d
  | interface d => exact prints_composite style "interface" d
  | union d =>
    obtain ⟨hds, hdsl⟩ := prints_directives style 0 d.directives
    obtain ⟨hm, hml⟩ := prints_unionMembers d.members
    have := Prints.typeHead style d.description "union" d.name (hds.append hm hml) (hdsl.append hml)
    simpa [typeDefinition, TypeDefinition.lexemes] using this
  | enum d =>
    obtain ⟨hds, hdsl⟩ := prints_directives style 0 d.directives
    have hvalues : ∀ v ∈ d.values, Prints (enumValue style 1 v) v.lexemes :=
      fun v _ => prints_enumValue style 1 v
    have hb := prints_optionalBody style 0 hvalues
    have hbl := led_optionalBody style 0 (d.values.map (enumValue style 1))
    have := Prints.typeHead style d.description "enum" d.name (hds.append hb hbl) (hdsl.append hbl)
    simpa [typeDefinition, TypeDefinition.lexemes] using this
  | input d =>
    obtain ⟨hds, hdsl⟩ := prints_directives style 0 d.directives
    have hfields : ∀ f ∈ d.fields, Prints (inputValue style 1 f) f.lexemes :=
      fun f _ => prints_inputValue style 1 f
    have hb := prints_optionalBody style 0 hfields
    have hbl := led_optionalBody style 0 (d.fields.map (inputValue style 1))
    have := Prints.typeHead style d.description "input" d.name (hds.append hb hbl) (hdsl.append hbl)
    simpa [typeDefinition, TypeDefinition.lexemes] using this

theorem prints_rootOperationType (d : RootOperationType) :
    Prints (rootOperationType d) d.lexemes :=
  .word (.mark (.space (.word .nil trivial))) (led_mark (by decide))

theorem prints_schema (d : SchemaDefinition) : Prints (schema style d) d.lexemes := by
  obtain ⟨hds, hdsl⟩ := prints_directives style 0 d.directives
  have hb : Prints (body style 0 .leftBrace .rightBrace (d.operationTypes.map rootOperationType))
      (mark .leftBrace :: d.operationTypes.flatMap RootOperationType.lexemes
        ++ [mark .rightBrace]) := prints_body style 0 fun t _ => prints_rootOperationType t
  have := Prints.description style 0 d.description
    (.word (w := "schema") (hds.append hb.space trivial) (hdsl.append trivial))
  simpa [schema, SchemaDefinition.lexemes] using this

theorem prints_locations (ls : List DirectiveLocation) :
    Prints ([space, Piece.mark .pipe, space].intercalate (ls.map fun l => [.word l.keyword]))
      (barred (fun l => [word l.keyword]) ls) := by
  cases ls with
  | nil => exact .nil
  | cons l ls =>
    have hled : Led [space, Piece.mark .pipe, space] := trivial
    have hsep : ∀ {ps ls}, Prints ps ls →
        Prints ([space, .mark .pipe, space] ++ ps) ([mark .pipe] ++ ls) :=
      fun h => .space (.mark h.space)
    exact prints_intercalate hled (by simp) hsep fun l _ => .word .nil trivial

theorem prints_directiveDefinition (d : DirectiveDefinition) :
    Prints (directiveDefinition style d) (d.lexemes false) := by
  obtain ⟨has, hasl⟩ := prints_declaredArguments style 0 d.arguments
  have hon := (Prints.word (w := "on") (prints_locations d.locations).space trivial).space
  have htail : Prints ((if d.repeatable then [space, .word "repeatable"] else []) ++
      space :: .word "on" :: space ::
        [space, Piece.mark .pipe, space].intercalate (d.locations.map fun l => [.word l.keyword]))
      ((if d.repeatable then [word "repeatable"] else []) ++
        word "on" :: barred (fun l => [word l.keyword]) d.locations) ∧
      Led ((if d.repeatable then [space, .word "repeatable"] else []) ++
      space :: .word "on" :: space ::
        [space, Piece.mark .pipe, space].intercalate (d.locations.map fun l => [.word l.keyword])) := by
    cases d.repeatable
    · exact ⟨hon, trivial⟩
    · exact ⟨(Prints.word hon trivial).space, trivial⟩
  have := Prints.description style 0 d.description
    (.word (w := "directive") (.space (.mark (k := .atSign) (.word (w := d.name.text)
      (has.append htail.1 htail.2) (hasl.append htail.2)))) trivial)
  simpa [directiveDefinition, DirectiveDefinition.lexemes, leadingBar] using this

/-! ### Documents -/

theorem prints_definition (d : Definition) : Prints (definition style d) (d.lexemes false) := by
  cases d with
  | operation d => exact prints_operation style d
  | fragment d => exact prints_fragment style d
  | schema d => exact prints_schema style d
  | type d => exact prints_typeDefinition style d
  | directive d => exact prints_directiveDefinition style d
  | extension d => exact .word (prints_typeDefinition style d.definition).space trivial

/-- **A document is laid out for its tokens.** -/
theorem prints_document (d : Document) : Prints (document style d) d.lexemes := by
  obtain ⟨xs, span⟩ := d
  cases xs with
  | nil => exact .nil
  | cons x xs =>
    have hled : Led [Piece.blank "\n\n"] := trivial
    have hsep : ∀ {ps ls}, Prints ps ls → Prints ([Piece.blank "\n\n"] ++ ps) ([] ++ ls) :=
      fun h => .ignored (by decide) (by decide) h
    have hend : Prints [.blank "\n"] [] := .ignored (by decide) (by decide) .nil
    have hxs : ∀ y ∈ x :: xs, Prints (definition style y) (y.lexemes false) :=
      fun y _ => prints_definition style y
    have := (prints_intercalate hled (by simp) hsep hxs).append hend trivial
    simpa [document, Document.lexemes] using this

end Layout

end QueryDocs
