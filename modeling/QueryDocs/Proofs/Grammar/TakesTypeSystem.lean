import QueryDocs.Proofs.Document.Neighbours
import QueryDocs.Proofs.Grammar.TakesExecutable

/-! # Types and directives are read back -/

namespace QueryDocs.Rule

open Lexeme (mark word ofOption enclosed barred first first_append_ne trailing)

variable {block : String → Bool} {limit : Nat} {ks : List Lexeme}

/-! ### Descriptions -/

theorem takes_description (v : Option StringValue)
    (hk : v = none → isString (head block ks) = false) :
    Takes block limit description (descriptionLexemes v) v ks :=
  takes_optional (fun v _ => takes_stringValue v) hk

theorem Takes.startOf {α : Type} [Labeled α] {K : Nat → Rule α} {ls : List Lexeme} {x : α}
    (v : Option StringValue) (h : Takes block limit (K 0) ls x ks) :
    Takes block limit (startOf (relabel (.plain block) v) >>= K) ls x ks := by
  cases v with
  | none => exact .start h
  | some v => exact h

/-! ### Fields and arguments -/

theorem takes_inputValue {d : InputValueDefinition} (hd : d.Shaped) (hk : Loose ks) :
    Takes block limit (inputValue limit) d.lexemes d ks := by
  obtain ⟨v, n, t, o, ds, s⟩ := d
  obtain ⟨ht, ho, hds⟩ := hd
  rw [InputValueDefinition.lexemes]
  simp only [List.cons_append, List.append_assoc]
  refine .bind (takes_description v (by simp [isString])) (.startOf v ?_)
  refine .bind (takes_name n) ?_
  refine .bind takes_expect ?_
  refine .bind (takes_typeRef ht (by simpa using hk.past_default o ds)) ?_
  refine .bind (takes_defaultValue ho (hk.past_directives ds (by decide) (by decide))) ?_
  exact .spanned (takes_directives hds hk) rfl

/-- What may have a description starts with it or with its name. -/
theorem first_described {v : Option StringValue} {n : String} {ls : List Lexeme} {close : Token.Kind}
    (hclose : close.isMark = true) : first (descriptionLexemes v ++ word n :: ls) ≠ close ∧
      Loose (descriptionLexemes v ++ word n :: ls) := by
  cases v with
  | none => exact ⟨(by rintro rfl; cases hclose), by simp [Loose, trailing]⟩
  | some v =>
    obtain ⟨text, b, s⟩ := v
    cases b
    · exact ⟨(by rintro rfl; cases hclose), (by decide : Token.Kind.string ∉ trailing)⟩
    · exact ⟨(by rintro rfl; cases hclose), (by decide : Token.Kind.blockString ∉ trailing)⟩

theorem takes_inputValues {opening close : Token.Kind} {ds : List InputValueDefinition}
    (hopening : opening.isMark = true) (hclose : close.isMark = true) (hF : close ∉ trailing)
    (hds : ∀ d ∈ ds, d.Shaped) (hk : first ks ≠ opening) :
    Takes block limit (optionalBetween limit opening (inputValue limit) close)
      (enclosed opening close InputValueDefinition.lexemes ds) ds ks := by
  refine takes_optionalBetween (F := Loose) hclose (fun d hd _ => takes_inputValue (hds d hd))
    (fun d _ ks => ?_) (fun _ => hF) hopening fun _ => hk
  rw [InputValueDefinition.lexemes]
  simp only [List.cons_append, List.append_assoc]
  exact first_described hclose

theorem takes_fieldDefinition {d : FieldDefinition} (hd : d.Shaped) (hk : Loose ks) :
    Takes block limit (fieldDefinition limit) d.lexemes d ks := by
  obtain ⟨v, n, as, t, ds, s⟩ := d
  obtain ⟨has, ht, hds⟩ := hd
  have hbang := hk.past_directives ds (k := .bang) (by decide) (by decide)
  rw [FieldDefinition.lexemes]
  simp only [List.cons_append, List.append_assoc]
  refine .bind (takes_description v (by simp [isString])) (.startOf v ?_)
  refine .bind (takes_name n) ?_
  refine .bind (takes_inputValues rfl rfl (by decide) has (by simp)) ?_
  refine .bind takes_expect ?_
  refine .bind (takes_typeRef ht hbang) ?_
  exact .spanned (takes_directives hds hk) rfl

theorem takes_enumValue {d : EnumValueDefinition} (hd : d.Shaped) (hk : Loose ks) :
    Takes block limit (enumValue limit) d.lexemes d ks := by
  obtain ⟨v, n, ds, s⟩ := d
  obtain ⟨hn, hds⟩ := hd
  rw [EnumValueDefinition.lexemes]
  refine .bind (takes_description v (by simp [isString])) (.startOf v (.ifFalse ?_ ?_))
  · simpa [reservedValues, Token.text] using hn
  · exact .bind (takes_name n) (.spanned (takes_directives hds hk) rfl)

/-! ### Types -/

/-- A definition may start here. -/
def Begins (ks : List Lexeme) : Prop :=
  first ks ∈ [.leftBrace, .string, .blockString] ∨ ∃ w ∈ definitionWords, ∃ ls, ks = word w :: ls

/-- A definition may start here, or the text ends. -/
def Starts (ks : List Lexeme) : Prop := ks = [] ∨ Begins ks

theorem Starts.loose (h : Starts ks) : Loose ks := by
  rcases h with rfl | h | ⟨w, -, ls, rfl⟩
  · exact (by decide : Token.Kind.endOfText ∉ trailing)
  · exact fun hk => (by decide : ∀ k ∈ trailing, k ∉ [.leftBrace, .string, .blockString]) _ hk h
  · simp [Loose, trailing]

/-- No interfaces follow, and no list of interfaces goes on. -/
def EndsInterfaces (block : String → Bool) (ks : List Lexeme) : Prop :=
  continuesInterfaces (head block ks) = false ∧ (head block ks).isWord "implements" = false

theorem endsInterfaces_of_ne_name (h : first ks ≠ .name) : EndsInterfaces block ks := by
  have hname : (head block ks).kind ≠ .name := by
    rwa [Ne, kind_head (by decide) (by decide)]
  exact ⟨by simp [continuesInterfaces, hname], by simp [Token.isWord, hname]⟩

theorem Starts.endsInterfaces (h : Starts ks) : EndsInterfaces block ks := by
  rcases h with rfl | h | ⟨w, hw, ls, rfl⟩
  · exact endsInterfaces_of_ne_name (by decide : Token.Kind.endOfText ≠ .name)
  · refine endsInterfaces_of_ne_name fun hk => ?_
    simp [hk] at h
  · refine ⟨by simp [continuesInterfaces, Token.text, hw], ?_⟩
    have hne : w ≠ "implements" := by
      rintro rfl
      exact absurd hw (by decide)
    simp [Token.isWord, Token.text, hne]

theorem takes_interfaces {ts : List NamedType}
    (hts : ∀ t ∈ ts.tail, t.name.text ∉ definitionWords) (hk : EndsInterfaces block ks) :
    Takes block limit (interfaces limit) (interfaceLexemes ts) ts ks := by
  cases ts with
  | nil => exact .ifFalse hk.2 (.pure rfl)
  | cons t ts =>
    rw [interfaceLexemes, List.flatMap_cons]
    refine .ifTrue (by simp [Token.isWord, Token.text]) (.advance (.bind (takes_namedType t) (.map
      (takes_repeatWhile (F := fun _ => True) (fun t _ _ _ => takes_namedType t)
        (fun t ht ks => ⟨?_, trivial⟩) trivial hk.1 le_rfl) rfl)))
    simpa [continuesInterfaces, NamedType.lexemes, Token.text] using hts t ht

theorem takes_unionMembers {full : Bool} {ts : List NamedType} (hk : Loose ks) :
    Takes block limit (unionMembers limit) (memberLexemes full ts) ts ks := by
  cases ts with
  | nil => exact .decline (by simpa [kind_head_mark (k := .equals) rfl] using hk.ne (by decide)) (.pure rfl)
  | cons t ts =>
    have hsep : Takes block limit (separated limit .pipe namedType)
        (barred NamedType.lexemes (t :: ts)) (t :: ts) ks :=
      takes_separated (F := fun _ => True) (fun t _ _ _ => takes_namedType t) (fun _ => trivial)
        trivial (hk.ne (by decide)) (by simp)
    cases full with
    | true => exact .accept (.accept hsep)
    | false => exact .accept (.decline (by simp [leadingBar, barred, NamedType.lexemes]) hsep)

section Definitions
variable {description : Option StringValue}

theorem takes_scalar {d : ScalarDefinition} (hds : ∀ x ∈ d.directives, x.Shaped true)
    (hk : Loose ks) :
    Takes block limit (scalar limit 0 (relabel (.plain block) d.description))
      (word "scalar" :: word d.name.text :: directiveLexemes d.directives) d ks :=
  .advance (.bind (takes_name d.name) (.spanned (takes_directives hds hk) rfl))

/-- A body in braces, if its items can be read back. -/
theorem takes_body {α : Type} [Labeled α] {item : Rule α} {g : α → List Lexeme} {xs : List α}
    (hitem : ∀ x ∈ xs, ∀ ks, Loose ks → Takes block limit item (g x) x ks)
    (hfirst : ∀ x ∈ xs, ∀ ks, first (g x ++ ks) ≠ .rightBrace ∧ Loose (g x ++ ks))
    (hbrace : xs = [] → first ks ≠ .leftBrace) :
    Takes block limit (optionalBetween limit .leftBrace item .rightBrace) (bodyLexemes g xs) xs ks :=
  takes_optionalBetween rfl hitem hfirst (fun _ => by simp [Loose, trailing]) rfl hbrace

theorem loose_body {α : Type} {g : α → List Lexeme} (xs : List α) (hk : Loose ks) :
    Loose (bodyLexemes g xs ++ ks) := by
  cases xs with
  | nil => exact hk
  | cons x xs => simp [bodyLexemes, enclosed, Loose, trailing]

theorem takes_composite {keyword : String} {d : CompositeDefinition} (hd : d.Shaped)
    (hk : Starts ks) (hbrace : d.fields = [] → first ks ≠ .leftBrace) :
    Takes block limit (composite limit 0 (relabel (.plain block) d.description))
      (word keyword :: word d.name.text :: (interfaceLexemes d.interfaces
        ++ (directiveLexemes d.directives ++ bodyLexemes FieldDefinition.lexemes d.fields))) d ks := by
  obtain ⟨v, n, ts, ds, fs, s⟩ := d
  obtain ⟨hts, hds, hfs⟩ := hd
  have hfields : Takes block limit
      (optionalBetween limit .leftBrace (fieldDefinition limit) .rightBrace)
      (bodyLexemes FieldDefinition.lexemes fs) fs ks := by
    refine takes_body (fun f hf _ => takes_fieldDefinition (hfs f hf)) (fun f _ ks => ?_) hbrace
    rw [FieldDefinition.lexemes]
    simp only [List.cons_append, List.append_assoc]
    exact first_described rfl
  have hends : EndsInterfaces block
      (directiveLexemes ds ++ (bodyLexemes FieldDefinition.lexemes fs ++ ks)) := by
    cases ds with
    | cons d ds => exact endsInterfaces_of_ne_name (by simp [directiveLexemes, Directive.lexemes])
    | nil =>
      cases fs with
      | cons f fs => exact endsInterfaces_of_ne_name (by simp [bodyLexemes, enclosed])
      | nil => exact hk.endsInterfaces
  refine .advance (.bind (takes_name n) ?_)
  refine .bind (takes_interfaces hts (by simpa using hends)) ?_
  exact .bind (takes_directives hds (loose_body fs hk.loose)) (.spanned hfields rfl)

theorem takes_membered {α β : Type} [Labeled α] [Labeled β]
    {make : Option StringValue → Name → List Directive → α → Span → β} {keyword : String}
    {members : Rule α} {n : Name} {ds : List Directive} {xs : α} {ms : List Lexeme} {s : Span}
    (hds : ∀ x ∈ ds, x.Shaped true) (hparen : first (ms ++ ks) ≠ .leftParen)
    (hat : first (ms ++ ks) ≠ .atSign) (hmembers : Takes block limit members ms xs ks)
    (hmake : relabel (.plain block) (make description n ds xs s) =
      make (relabel (.plain block) description) (relabel (.plain block) n)
        (relabel (.plain block) ds) (relabel (.plain block) xs) (.empty 0)) :
    Takes block limit (membered make members limit 0 (relabel (.plain block) description))
      (word keyword :: word n.text :: (directiveLexemes ds ++ ms)) (make description n ds xs s) ks := by
  refine .advance (.bind (takes_name n) ?_)
  exact .bind (takes_directives_of_ne hds hparen hat) (.spanned hmembers hmake)

theorem takes_union {full : Bool} {d : UnionDefinition} (hds : ∀ x ∈ d.directives, x.Shaped true)
    (hk : Loose ks) :
    Takes block limit (union limit 0 (relabel (.plain block) d.description))
      (word "union" :: word d.name.text :: (directiveLexemes d.directives
        ++ memberLexemes full d.members)) d ks := by
  obtain ⟨v, n, ds, ts, s⟩ := d
  have hmembers : ∀ {k : Token.Kind}, k ∈ trailing → k ≠ .equals →
      first (memberLexemes full ts ++ ks) ≠ k := by
    intro k hk' hne
    cases ts with
    | nil => exact hk.ne hk'
    | cons t ts => exact hne.symm
  exact takes_membered hds (hmembers (by decide) (by decide)) (hmembers (by decide) (by decide))
    (takes_unionMembers hk) rfl

theorem takes_enum {d : EnumDefinition} (hds : ∀ x ∈ d.directives, x.Shaped true)
    (hvs : ∀ v ∈ d.values, v.Shaped) (hk : Starts ks)
    (hbrace : d.values = [] → first ks ≠ .leftBrace) :
    Takes block limit (enum limit 0 (relabel (.plain block) d.description))
      (word "enum" :: word d.name.text :: (directiveLexemes d.directives
        ++ bodyLexemes EnumValueDefinition.lexemes d.values)) d ks := by
  have hbehind := loose_body (g := EnumValueDefinition.lexemes) d.values hk.loose
  refine takes_membered hds (hbehind.ne (by decide)) (hbehind.ne (by decide)) (takes_body
    (fun v hv _ => takes_enumValue (hvs v hv)) (fun v _ ks => ?_) hbrace) rfl
  rw [EnumValueDefinition.lexemes]
  simp only [List.cons_append, List.append_assoc]
  exact first_described rfl

theorem takes_input {d : InputDefinition} (hds : ∀ x ∈ d.directives, x.Shaped true)
    (hfs : ∀ f ∈ d.fields, f.Shaped) (hk : Starts ks)
    (hbrace : d.fields = [] → first ks ≠ .leftBrace) :
    Takes block limit (input limit 0 (relabel (.plain block) d.description))
      (word "input" :: word d.name.text :: (directiveLexemes d.directives
        ++ bodyLexemes InputValueDefinition.lexemes d.fields)) d ks := by
  have hbehind := loose_body (g := InputValueDefinition.lexemes) d.fields hk.loose
  refine takes_membered hds (hbehind.ne (by decide)) (hbehind.ne (by decide)) (takes_body
    (fun f hf _ => takes_inputValue (hfs f hf)) (fun f _ ks => ?_) hbrace) rfl
  rw [InputValueDefinition.lexemes]
  simp only [List.cons_append, List.append_assoc]
  exact first_described rfl

/-- **The definition of a type is read back** behind its description. -/
theorem takes_typeDefinition {full : Bool} {d : TypeDefinition} {ls : List Lexeme} (hd : d.Shaped)
    (hls : d.lexemes full = descriptionLexemes d.description ++ ls) (hk : Starts ks)
    (hbrace : d.lacksBody = true → first ks ≠ .leftBrace) :
    Takes block limit (typeDefinition limit 0 (relabel (.plain block) d.description)) ls d ks := by
  simp only [TypeDefinition.lexemes, typeLexemes, CompositeDefinition.lexemes,
    TypeDefinition.description] at hls
  cases d with
  | scalar d =>
    obtain rfl : _ = ls := by simpa using hls
    exact .get (.map (takes_scalar hd hk.loose) rfl)
  | object d =>
    obtain rfl : _ = ls := by simpa using hls
    exact .get (.map (takes_composite hd hk fun h => hbrace (List.isEmpty_iff.mpr h)) rfl)
  | interface d =>
    obtain rfl : _ = ls := by simpa using hls
    exact .get (.map (takes_composite hd hk fun h => hbrace (List.isEmpty_iff.mpr h)) rfl)
  | union d =>
    obtain rfl : _ = ls := by simpa using hls
    exact .get (.map (takes_union hd hk.loose) rfl)
  | enum d =>
    obtain rfl : _ = ls := by simpa using hls
    exact .get (.map (takes_enum hd.1 hd.2 hk fun h => hbrace (List.isEmpty_iff.mpr h)) rfl)
  | input d =>
    obtain rfl : _ = ls := by simpa using hls
    exact .get (.map (takes_input hd.1 hd.2 hk fun h => hbrace (List.isEmpty_iff.mpr h)) rfl)

end Definitions

/-! ### Schemas and directives -/

theorem takes_rootOperationType {d : RootOperationType} (hd : d.Shaped) :
    Takes block limit rootOperationType d.lexemes d ks := by
  obtain ⟨o, n, t, s⟩ := d
  obtain rfl : o = OperationType.ofKeyword? n.text := hd
  refine .start (.bind (takes_name n) ?_)
  exact .bind takes_expect (.spanned (takes_namedType t) rfl)

theorem takes_schema {d : SchemaDefinition} (hd : d.Shaped) :
    Takes block limit (schema limit 0 (relabel (.plain block) d.description))
      (word "schema" :: (directiveLexemes d.directives ++ (mark .leftBrace
        :: d.operationTypes.flatMap RootOperationType.lexemes ++ [mark .rightBrace]))) d ks := by
  obtain ⟨hds, hne, hts⟩ := hd
  exact .advance (.bind (takes_directives hds (by simp [Loose, trailing])) (.spanned
    (takes_between (F := fun _ => True) rfl (fun t ht _ _ => takes_rootOperationType (hts t ht))
      (fun t _ ks => ⟨by simp [RootOperationType.lexemes], trivial⟩) (fun _ => trivial) hne) rfl))

/-- The places of a directive, with a bar before the first one or without it. -/
theorem takes_places {α : Type} [Labeled α] {K : List DirectiveLocation → Rule α} {full : Bool}
    {os : List DirectiveLocation} {x : α} (hos : os ≠ []) (hk : first ks ≠ .pipe)
    (h : Takes block limit (K os) [] x ks) :
    Takes block limit
      (do
        expectWord "on"
        let _ ← accept .pipe
        let os ← separated limit .pipe directiveLocation
        K os)
      (word "on" :: (leadingBar full ++ barred (fun o => [word o.keyword]) os)) x ks := by
  have hsep : Takes block limit (separated limit .pipe directiveLocation >>= K)
      (barred (fun o : DirectiveLocation => [word o.keyword]) os) x ks := by
    rw [← List.append_nil (barred _ _)]
    refine .bind (takes_separated (F := fun _ => True) (fun o _ _ _ =>
      takes_keyword DirectiveLocation.ofKeyword?_eq_some (x := o) rfl)
      (fun _ => trivial) trivial hk hos) ?_
    rw [show relabel _ os = os from List.map_id os]
    exact h
  obtain ⟨o, os, rfl⟩ := List.exists_cons_of_ne_nil hos
  refine .bind takes_expectWord ?_
  cases full with
  | true => exact .accept hsep
  | false => exact .decline (by simp [leadingBar, barred]) hsep

theorem takes_directiveDefinition {full : Bool} {d : DirectiveDefinition} (hd : d.Shaped)
    (hk : first ks ≠ .pipe) :
    Takes block limit (directiveDefinition limit 0 (relabel (.plain block) d.description))
      (word "directive" :: mark .atSign :: word d.name.text :: (declaredLexemes d.arguments
        ++ ((if d.repeatable then [word "repeatable"] else []) ++ word "on" :: (leadingBar full
        ++ barred (fun o => [word o.keyword]) d.locations)))) d ks := by
  obtain ⟨v, n, as, r, os, s⟩ := d
  obtain ⟨has, hos⟩ := hd
  refine .advance (.bind takes_expect ?_)
  refine .bind (takes_name n) ?_
  refine .bind (takes_inputValues rfl rfl (by decide) has ?_) (.atToken (b := r) ?_ ?_)
  · cases r <;> simp
  · cases r <;> simp [Token.isWord, Token.text]
  · cases r with
    | true => exact .advance (takes_places hos hk (.spanFrom (.pure rfl)))
    | false => exact takes_places hos hk (.spanFrom (.pure rfl))

end QueryDocs.Rule
