import QueryDocs.Proofs.Grammar.ReadsExecutable

/-! # What the rules for types and directives read -/

namespace QueryDocs.Rule

open Lexeme (mark word ofOption enclosed barred)

section TypeSystem
variable {φ : Nat → Nat} (hφ : Monotone φ) {l limit : Nat} {c : Cursor} (hc : c.Within l)

/-! ### Descriptions -/

include hc in
theorem reads_description :
    Reads φ limit description description c (Spelled descriptionLexemes fun _ => True) :=
  (reads_optional (P := fun _ => True) hc (fun t => by simp [isString]) fun h =>
    reads_stringValue hc h).imp fun _ _ h => ⟨h.1, trivial⟩

/-- The start of a definition with a description is known, that of one without is looked up. -/
theorem Reads.startOf {β : Type} [Labeled β] {M : β → List Lexeme → Prop} {K K' : Nat → Rule β}
    (description : Option StringValue) (h : ∀ n, Reads φ limit (K n) (K' (φ n)) c M) :
    Reads φ limit (startOf description >>= K)
      (Rule.startOf (relabel (.move φ) description) >>= K') c M := by
  cases description with
  | none => exact Reads.start (h _)
  | some d => exact h d.span.start

include hφ hc

/-! ### Fields and arguments -/

theorem reads_inputValue :
    Reads φ limit (inputValue l) (inputValue limit) c
      (Spelled InputValueDefinition.lexemes InputValueDefinition.Shaped) := by
  let t₀ : TypeRef := .named ⟨⟨"a", .empty 0⟩, .empty 0⟩
  have ht₀ : t₀.Shaped := trivial
  refine Reads.bind hc (reads_description hc) (fun s d _ hd => ?_) fun s _ =>
    ⟨[word "a", mark .colon, word "a"], ⟨s, ⟨"a", .empty 0⟩, t₀, none, [], .empty 0⟩, by decide, by
      simp [InputValueDefinition.lexemes, t₀, TypeRef.lexemes, NamedType.lexemes], ht₀, by simp,
      by simp⟩
  refine Reads.startOf s fun start => ?_
  refine Reads.bind hd (reads_name hd) (fun n e _ he => ?_) fun n _ =>
    ⟨[mark .colon, word "a"], ⟨s, n, t₀, none, [], .empty 0⟩, by decide, by
      simp [InputValueDefinition.lexemes, t₀, TypeRef.lexemes, NamedType.lexemes], ht₀, by simp, by simp⟩
  refine Reads.bind he (reads_expect he rfl) (fun _ f _ hf => ?_) fun _ _ =>
    ⟨[word "a"], ⟨s, n, t₀, none, [], .empty 0⟩, by decide, by
      simp [InputValueDefinition.lexemes, t₀, TypeRef.lexemes, NamedType.lexemes], ht₀, by simp, by simp⟩
  refine Reads.bind hf (reads_typeRef hφ hf) (fun t g ht hg => ?_) fun t ht =>
    ⟨[], ⟨s, n, t, none, [], .empty 0⟩, rfl, by
      simp [InputValueDefinition.lexemes],
      ht, by simp, by simp⟩
  refine Reads.bind hg (reads_defaultValue hφ hg) (fun v h hv hh => ?_) fun v hv =>
    ⟨[], ⟨s, n, t, v, [], .empty 0⟩, rfl, by
      simp [InputValueDefinition.lexemes], ht, hv, by simp⟩
  refine Reads.bind hh (reads_directives hφ hh true) (fun ds _ hds _ => ?_) fun ds hds =>
    ⟨[], ⟨s, n, t, v, ds, .empty 0⟩, rfl, by simp [InputValueDefinition.lexemes], ht, hv, hds⟩
  exact Reads.spanFrom hφ fun _ => .pure ⟨by simp [InputValueDefinition.lexemes], ht, hv, hds⟩ rfl

omit hφ hc in
theorem sample_inputValue :
    Sample InputValueDefinition.lexemes InputValueDefinition.Shaped
      ⟨none, ⟨"a", .empty 0⟩, .named ⟨⟨"a", .empty 0⟩, .empty 0⟩, none, [], .empty 0⟩ :=
  ⟨⟨trivial, by simp, by simp⟩, by decide⟩

omit hφ hc in
theorem lexemes_inputValue_ne_nil (d : InputValueDefinition) : d.lexemes ≠ [] := by
  simp [InputValueDefinition.lexemes]

theorem reads_declaredArguments :
    Reads φ limit (declaredArguments l) (declaredArguments limit) c
      (Spelled declaredLexemes fun ds => ∀ d ∈ ds, d.Shaped) :=
  reads_optionalBetween rfl rfl sample_inputValue (fun _ hc => reads_inputValue hφ hc)
    (fun d _ => lexemes_inputValue_ne_nil d) hc

theorem reads_fieldDefinition :
    Reads φ limit (fieldDefinition l) (fieldDefinition limit) c
      (Spelled FieldDefinition.lexemes FieldDefinition.Shaped) := by
  let t₀ : TypeRef := .named ⟨⟨"a", .empty 0⟩, .empty 0⟩
  have ht₀ : t₀.Shaped := trivial
  refine Reads.bind hc (reads_description hc) (fun s d _ hd => ?_) fun s _ =>
    ⟨[word "a", mark .colon, word "a"], ⟨s, ⟨"a", .empty 0⟩, [], t₀, [], .empty 0⟩, by decide, by
      simp [FieldDefinition.lexemes, t₀, TypeRef.lexemes, NamedType.lexemes], by simp, ht₀, by simp⟩
  refine Reads.startOf s fun start => ?_
  refine Reads.bind hd (reads_name hd) (fun n e _ he => ?_) fun n _ =>
    ⟨[mark .colon, word "a"], ⟨s, n, [], t₀, [], .empty 0⟩, by decide, by
      simp [FieldDefinition.lexemes, t₀, TypeRef.lexemes, NamedType.lexemes], by simp, ht₀, by simp⟩
  refine Reads.bind he (reads_declaredArguments hφ he) (fun as f has hf => ?_) fun as has =>
    ⟨[mark .colon, word "a"], ⟨s, n, as, t₀, [], .empty 0⟩, by decide, by
      simp [FieldDefinition.lexemes, t₀, TypeRef.lexemes, NamedType.lexemes],
      has, ht₀, by simp⟩
  refine Reads.bind hf (reads_expect hf rfl) (fun _ g _ hg => ?_) fun _ _ =>
    ⟨[word "a"], ⟨s, n, as, t₀, [], .empty 0⟩, by decide, by
      simp [FieldDefinition.lexemes, t₀, TypeRef.lexemes, NamedType.lexemes],
      has, ht₀, by simp⟩
  refine Reads.bind hg (reads_typeRef hφ hg) (fun t h ht hh => ?_) fun t ht =>
    ⟨[], ⟨s, n, as, t, [], .empty 0⟩, rfl, by simp [FieldDefinition.lexemes],
      has, ht, by simp⟩
  refine Reads.bind hh (reads_directives hφ hh true) (fun ds _ hds _ => ?_) fun ds hds =>
    ⟨[], ⟨s, n, as, t, ds, .empty 0⟩, rfl, by simp [FieldDefinition.lexemes], has, ht, hds⟩
  exact Reads.spanFrom hφ fun _ => .pure ⟨by simp [FieldDefinition.lexemes], has, ht, hds⟩ rfl

omit hφ hc in
theorem sample_fieldDefinition :
    Sample FieldDefinition.lexemes FieldDefinition.Shaped
      ⟨none, ⟨"a", .empty 0⟩, [], .named ⟨⟨"a", .empty 0⟩, .empty 0⟩, [], .empty 0⟩ :=
  ⟨⟨by simp, trivial, by simp⟩, by decide⟩

theorem reads_enumValue :
    Reads φ limit (enumValue l) (enumValue limit) c
      (Spelled EnumValueDefinition.lexemes EnumValueDefinition.Shaped) := by
  have ha : ("a" : String) ∉ reservedValues := by decide
  refine Reads.bind hc (reads_description hc) (fun s d _ hd => ?_) fun s _ =>
    ⟨[word "a"], ⟨s, ⟨"a", .empty 0⟩, [], .empty 0⟩, by decide, by
      simp [EnumValueDefinition.lexemes], ha, by simp⟩
  refine Reads.startOf s fun start => Reads.ifToken (fun _ => rfl) (fun _ => .fail
    ⟨[word "a"], ⟨s, ⟨"a", .empty 0⟩, [], .empty 0⟩, by decide, by
      simp [EnumValueDefinition.lexemes], ha, by simp⟩) fun hreserved => ?_
  refine Reads.bind hd (reads_name_of (P := (· ∉ reservedValues)) hd (fun _ => ?_) fun _ => ha)
    (fun n e hn he => ?_) fun n hn => ⟨[], ⟨s, n, [], .empty 0⟩, rfl, by
      simp [EnumValueDefinition.lexemes], hn, by simp⟩
  · simpa [reservedValues] using hreserved
  refine Reads.bind he (reads_directives hφ he true) (fun ds _ hds _ => ?_) fun ds hds =>
    ⟨[], ⟨s, n, ds, .empty 0⟩, rfl, by simp [EnumValueDefinition.lexemes], hn, hds⟩
  exact Reads.spanFrom hφ fun _ => .pure ⟨by simp [EnumValueDefinition.lexemes], hn, hds⟩ rfl

omit hφ hc in
theorem sample_enumValue :
    Sample EnumValueDefinition.lexemes EnumValueDefinition.Shaped
      ⟨none, ⟨"a", .empty 0⟩, [], .empty 0⟩ :=
  ⟨⟨by decide, by simp⟩, by decide⟩

/-! ### Types -/

omit hφ in
theorem reads_interfaces :
    Reads φ limit (interfaces l) (interfaces limit) c
      (Spelled interfaceLexemes fun ts => ∀ t ∈ ts.tail, t.name.text ∉ definitionWords) := by
  have ha : ("a" : String) ∉ definitionWords := by decide
  have hmore : ∀ c : Cursor, c.Within l → continuesInterfaces c.current = true →
      Reads φ limit namedType namedType c
        (Spelled NamedType.lexemes fun t => t.name.text ∉ definitionWords) := by
    intro c hc h
    have hword : c.current.text ∉ definitionWords := by
      simp only [continuesInterfaces, Bool.and_eq_true, Bool.not_eq_true', List.contains_eq_mem,
        decide_eq_false_iff_not] at h
      exact h.2
    exact Reads.bind hc (reads_name_of (P := (· ∉ definitionWords)) hc (fun _ => hword) fun _ => ha)
      (fun n _ hn _ => .pure ⟨rfl, hn⟩ rfl) fun n hn => ⟨[], ⟨n, .empty 0⟩, rfl, rfl, hn⟩
  refine Reads.ifToken (fun _ => rfl) (fun h => Reads.advance_word hc h fun d hd => ?_) fun _ =>
    .pure ⟨rfl, by simp⟩ rfl
  refine Reads.bind hd (reads_namedType hd) (fun t e _ he => ?_) fun t _ =>
    ⟨[], [t], rfl, by simp [interfaceLexemes], by simp⟩
  refine Reads.bind he (reads_repeatWhile (fun _ => rfl) hmore (by simp [NamedType.lexemes])
    he) (fun ts _ hts _ => .pure ⟨by simp [interfaceLexemes], hts⟩ rfl) fun ts hts =>
    ⟨[], t :: ts, rfl, by simp [interfaceLexemes], hts⟩

omit hφ in
/-- The members of a union, with a bar before the first one or without it. -/
theorem reads_unionMembers :
    Reads φ limit (unionMembers l) (unionMembers limit) c
      fun ts ls => ∃ full, ls = memberLexemes full ts := by
  have hsample : Sample NamedType.lexemes (fun _ => True) ⟨⟨"a", .empty 0⟩, .empty 0⟩ :=
    ⟨trivial, by decide⟩
  refine Reads.accept hc rfl (fun _ d hd => ?_) fun _ => .pure ⟨false, rfl⟩ rfl
  refine (reads_leadingBar hsample (fun _ hc => reads_namedType hc) hd).imp fun ts ls h => ?_
  obtain ⟨⟨full, rfl⟩, hne, -⟩ := h
  obtain ⟨t, ts, rfl⟩ := List.exists_cons_of_ne_nil hne
  exact ⟨full, rfl⟩

section Definitions
variable (start : Nat) (description : Option StringValue)

theorem reads_scalar (h : c.current.isWord "scalar" = true) :
    Reads φ limit (scalar l start description)
      (scalar limit (φ start) (relabel (.move φ) description)) c fun d ls =>
        descriptionLexemes description ++ ls =
          typeLexemes d.description "scalar" d.name ++ directiveLexemes d.directives ∧
        d.description = description ∧ ∀ x ∈ d.directives, x.Shaped true := by
  refine Reads.advance_word hc h fun d hd => ?_
  refine Reads.bind hd (reads_name hd) (fun n e _ he => ?_) fun n _ =>
    ⟨[], ⟨description, n, [], .empty 0⟩, rfl, by simp [typeLexemes], rfl, by simp⟩
  refine Reads.bind he (reads_directives hφ he true) (fun ds _ hds _ => ?_) fun ds hds =>
    ⟨[], ⟨description, n, ds, .empty 0⟩, rfl, by simp [typeLexemes], rfl, hds⟩
  exact Reads.spanFrom hφ fun _ => .pure ⟨by simp [typeLexemes], rfl, hds⟩ rfl

theorem reads_composite {keyword : String} (h : c.current.isWord keyword = true) :
    Reads φ limit (composite l start description)
      (composite limit (φ start) (relabel (.move φ) description)) c fun d ls =>
        descriptionLexemes description ++ ls = d.lexemes keyword ∧
        d.description = description ∧ d.Shaped := by
  refine Reads.advance_word hc h fun d hd => ?_
  refine Reads.bind hd (reads_name hd) (fun n e _ he => ?_) fun n _ =>
    ⟨[], ⟨description, n, [], [], [], .empty 0⟩, rfl,
      by simp [CompositeDefinition.lexemes, typeLexemes], rfl, by simp, by simp, by simp⟩
  refine Reads.bind he (reads_interfaces he) (fun ts f hts hf => ?_) fun ts hts =>
    ⟨[], ⟨description, n, ts, [], [], .empty 0⟩, rfl,
      by simp [CompositeDefinition.lexemes, typeLexemes], rfl, hts, by simp, by simp⟩
  refine Reads.bind hf (reads_directives hφ hf true) (fun ds g hds hg => ?_) fun ds hds =>
    ⟨[], ⟨description, n, ts, ds, [], .empty 0⟩, rfl,
      by simp [CompositeDefinition.lexemes, typeLexemes], rfl, hts, hds, by simp⟩
  refine Reads.bind hg (reads_optionalBetween rfl rfl sample_fieldDefinition
    (fun _ hc => reads_fieldDefinition hφ hc) (fun f _ => by simp [FieldDefinition.lexemes]) hg)
    (fun fs _ hfs _ => ?_) fun fs hfs => ⟨[], ⟨description, n, ts, ds, fs, .empty 0⟩, rfl,
      by simp [CompositeDefinition.lexemes, typeLexemes, bodyLexemes], rfl, hts, hds, hfs⟩
  exact Reads.spanFrom hφ fun _ => .pure
    ⟨by simp [CompositeDefinition.lexemes, typeLexemes, bodyLexemes], rfl, hts, hds, hfs⟩ rfl

/-- What the rule for a type with members reads behind a description, if the members are read as `N`
says. -/
def MemberedRead {α β : Type}
    (make : Option StringValue → Name → List Directive → List α → Span → β) (keyword : String)
    (N : List α → List Lexeme → Prop) (description : Option StringValue) (x : β) (ls : List Lexeme) :
    Prop :=
  ∃ n ds xs s ms, x = make description n ds xs s ∧ (∀ d ∈ ds, d.Shaped true) ∧ N xs ms ∧
    ls = word keyword :: word n.text :: (directiveLexemes ds ++ ms)

/-- **A type with members is read as it is written**, given how its members are read. -/
theorem reads_membered {α β : Type} [Labeled α] [Labeled β]
    {make : Option StringValue → Name → List Directive → List α → Span → β} {keyword : String}
    {members members' : Rule (List α)} {N : List α → List Lexeme → Prop} (hnil : N [] [])
    (hmembers : ∀ {d : Cursor}, d.Within l → Reads φ limit members members' d N)
    (hmake : ∀ n ds xs s, relabel (.move φ) (make description n ds xs s) =
      make (relabel (.move φ) description) (relabel (.move φ) n) (relabel (.move φ) ds)
        (relabel (.move φ) xs) (relabel (.move φ) s))
    (h : c.current.isWord keyword = true) :
    Reads φ limit (membered make members l start description)
      (membered make members' limit (φ start) (relabel (.move φ) description)) c
      (MemberedRead make keyword N description) := by
  refine Reads.advance_word hc h fun d hd => ?_
  refine Reads.bind hd (reads_name hd) (fun n e _ he => ?_) fun n _ =>
    ⟨[], _, rfl, n, [], [], .empty 0, [], rfl, by simp, hnil, by simp⟩
  refine Reads.bind he (reads_directives hφ he true) (fun ds f hds hf => ?_) fun ds hds =>
    ⟨[], _, rfl, n, ds, [], .empty 0, [], rfl, hds, hnil, by simp⟩
  -- what the members are spelled as is not a function of them, as a bar may stand before the first one
  refine (hmembers hf).bind_within (fun _ _ _ _ _ hw hp => hw.passes hp)
    (fun xs _ ts _ _ hxs => ?_) fun _ _ _ xs ms hxs => ?_
  · exact Reads.spanFrom hφ fun s => .pure ⟨n, ds, xs, s, _, rfl, hds, hxs, by simp⟩ (hmake n ds xs s)
  · exact ⟨[], _, rfl, n, ds, xs, .empty 0, ms, rfl, hds, hxs, by simp⟩

/-- What the rule for the definition of a type reads behind a description. -/
def TypeRead (description : Option StringValue) (d : TypeDefinition) (ls : List Lexeme) : Prop :=
  (∃ full, descriptionLexemes description ++ ls = d.lexemes full) ∧ d.description = description ∧
    d.Shaped

omit hφ hc in
theorem completable_typeRead : Completable (TypeRead description) [] :=
  ⟨[word "scalar", word "a"], .scalar ⟨description, ⟨"a", .empty 0⟩, [], .empty 0⟩, by decide,
    ⟨false, by simp [TypeDefinition.lexemes, typeLexemes]⟩, rfl, by simp [TypeDefinition.Shaped]⟩

/-- **The definition of a type is read as it is written.** -/
theorem reads_typeDefinition :
    Reads φ limit (typeDefinition l start description)
      (typeDefinition limit (φ start) (relabel (.move φ) description)) c
      (TypeRead description) := by
  refine Reads.get (fun c' h => by rw [h]) ?_
  refine Reads.ite (fun h => ?_) fun _ => ?_
  · exact (reads_scalar hφ hc start description h).map
      (fun d ls h => ⟨⟨false, h.1⟩, h.2.1, h.2.2⟩) fun _ => rfl
  refine Reads.ite (fun h => ?_) fun _ => ?_
  · exact (reads_composite hφ hc start description h).map
      (fun d ls h => ⟨⟨false, h.1⟩, h.2.1, h.2.2⟩) fun _ => rfl
  refine Reads.ite (fun h => ?_) fun _ => ?_
  · exact (reads_composite hφ hc start description h).map
      (fun d ls h => ⟨⟨false, h.1⟩, h.2.1, h.2.2⟩) fun _ => rfl
  refine Reads.ite (fun h => ?_) fun _ => ?_
  · refine (reads_membered hφ hc start description ⟨false, rfl⟩ (fun hd => reads_unionMembers hd)
      (fun _ _ _ _ => rfl) h).map (fun d ls h => ?_) fun _ => rfl
    obtain ⟨n, ds, ts, s, _, rfl, hds, ⟨full, rfl⟩, rfl⟩ := h
    exact ⟨⟨full, by simp [TypeDefinition.lexemes, typeLexemes]⟩, rfl, hds⟩
  refine Reads.ite (fun h => ?_) fun _ => ?_
  · refine (reads_membered hφ hc start description ⟨rfl, by simp⟩ (fun hd => reads_optionalBetween rfl rfl
      sample_enumValue (fun _ hc => reads_enumValue hφ hc)
      (fun v _ => by simp [EnumValueDefinition.lexemes]) hd) (fun _ _ _ _ => rfl) h).map
      (fun d ls h => ?_) fun _ => rfl
    obtain ⟨n, ds, vs, s, _, rfl, hds, ⟨rfl, hvs⟩, rfl⟩ := h
    exact ⟨⟨false, by simp [TypeDefinition.lexemes, typeLexemes, bodyLexemes]⟩, rfl, hds, hvs⟩
  refine Reads.ite (fun h => ?_) fun _ => .fail (completable_typeRead description)
  refine (reads_membered hφ hc start description ⟨rfl, by simp⟩ (fun hd => reads_optionalBetween rfl rfl
    sample_inputValue (fun _ hc => reads_inputValue hφ hc)
    (fun f _ => lexemes_inputValue_ne_nil f) hd) (fun _ _ _ _ => rfl) h).map
    (fun d ls h => ?_) fun _ => rfl
  obtain ⟨n, ds, fs, s, _, rfl, hds, ⟨rfl, hfs⟩, rfl⟩ := h
  exact ⟨⟨false, by simp [TypeDefinition.lexemes, typeLexemes, bodyLexemes]⟩, rfl, hds, hfs⟩

/-! ### Schemas and directives -/

omit hc in
theorem reads_rootOperationType (hc : c.Within l) :
    Reads φ limit rootOperationType rootOperationType c
      (Spelled RootOperationType.lexemes RootOperationType.Shaped) := by
  let t₀ : NamedType := ⟨⟨"a", .empty 0⟩, .empty 0⟩
  refine Reads.start ?_
  refine Reads.bind hc (reads_name hc) (fun n d _ hd => ?_) fun n _ =>
    ⟨[mark .colon, word "a"], ⟨OperationType.ofKeyword? n.text, n, t₀, .empty 0⟩, by decide, rfl,
      rfl⟩
  refine Reads.bind hd (reads_expect hd rfl) (fun _ e _ he => ?_) fun _ _ =>
    ⟨[word "a"], ⟨OperationType.ofKeyword? n.text, n, t₀, .empty 0⟩, by decide, rfl, rfl⟩
  refine Reads.bind he (reads_namedType he) (fun t _ _ _ => ?_) fun t _ =>
    ⟨[], ⟨OperationType.ofKeyword? n.text, n, t, .empty 0⟩, rfl, rfl, rfl⟩
  exact Reads.spanFrom hφ fun _ => .pure ⟨rfl, rfl⟩ rfl

theorem reads_schema (h : c.current.isWord "schema" = true) :
    Reads φ limit (schema l start description)
      (schema limit (φ start) (relabel (.move φ) description)) c fun d ls =>
        descriptionLexemes description ++ ls = d.lexemes ∧ d.Shaped := by
  have hsample : Sample RootOperationType.lexemes RootOperationType.Shaped
      ⟨none, ⟨"a", .empty 0⟩, ⟨⟨"a", .empty 0⟩, .empty 0⟩, .empty 0⟩ := ⟨rfl, by decide⟩
  let r₀ : RootOperationType := ⟨none, ⟨"a", .empty 0⟩, ⟨⟨"a", .empty 0⟩, .empty 0⟩, .empty 0⟩
  refine Reads.advance_word hc h fun d hd => ?_
  refine Reads.bind hd (reads_directives hφ hd true) (fun ds e hds he => ?_) fun ds hds =>
    ⟨mark .leftBrace :: r₀.lexemes ++ [mark .rightBrace], ⟨description, ds, [r₀], .empty 0⟩,
      by decide, by simp [SchemaDefinition.lexemes], hds, by simp, by simpa using hsample.1⟩
  refine Reads.bind he (reads_between rfl rfl hsample (fun _ hc => reads_rootOperationType hφ hc)
    (fun t _ => by simp [RootOperationType.lexemes]) he) (fun ts _ hts _ => ?_) fun ts hts =>
    ⟨[], ⟨description, ds, ts, .empty 0⟩, rfl, by simp [SchemaDefinition.lexemes], hds, hts⟩
  exact Reads.spanFrom hφ fun _ => .pure ⟨by simp [SchemaDefinition.lexemes], hds, hts⟩ rfl

omit hφ in
/-- The places of a directive, with a bar before the first one or without it, and what follows. -/
theorem reads_places {β : Type} [Labeled β] {K K' : List DirectiveLocation → Rule β}
    {M : β → List Lexeme → Prop}
    (h : ∀ os d full, os ≠ [] → d.Within l → Reads φ limit (K os) (K' os) d fun y ls =>
      M y (word "on" :: leadingBar full ++ barred (fun o : DirectiveLocation => [word o.keyword]) os ++ ls))
    (hs : ∀ os full, os ≠ [] →
      Completable M (word "on" :: leadingBar full ++ barred (fun o : DirectiveLocation => [word o.keyword]) os)) :
    Reads φ limit
      (do
        expectWord "on"
        let _ ← accept .pipe
        let os ← separated l .pipe directiveLocation
        K os)
      (do
        expectWord "on"
        let _ ← accept .pipe
        let os ← separated limit .pipe directiveLocation
        K' os) c M := by
  have hsample : Sample (fun o : DirectiveLocation => [word o.keyword]) (fun _ => True) .query :=
    ⟨trivial, by decide⟩
  obtain ⟨w, x, hw, hx⟩ := hs [.query] false (by simp)
  have hplain : (word "QUERY" :: w).all Lexeme.isPlain = true := by
    rw [List.all_cons, hw]
    decide
  refine Reads.bind hc (reads_expectWord hc (by decide)) (fun _ d _ hd => ?_) fun _ _ =>
    ⟨word "QUERY" :: w, x, hplain, hx⟩
  have hplace : ∀ c : Cursor, c.Within l → Reads φ limit directiveLocation directiveLocation c
      (Spelled (fun o => [word o.keyword]) fun _ => True) := fun _ hc =>
    reads_keyword hc DirectiveLocation.ofKeyword?_eq_some (fun _ => rfl) hsample
  have hbar : Reads φ limit _ _ d _ := reads_leadingBar hsample hplace hd
  rw [← bind_assoc, ← bind_assoc]
  refine hbar.bind_within (fun _ _ _ _ _ hw hp => hw.passes hp) (fun os e ts _ hp hn => ?_)
    fun _ _ _ os ls hn => ?_
  · obtain ⟨⟨full, hls⟩, hne, -⟩ := hn
    have hos : relabel (.move φ) os = os := List.map_id os
    rw [hls, hos]
    simpa using h os e full hne (hd.passes hp)
  · obtain ⟨⟨full, rfl⟩, hne, -⟩ := hn
    exact hs os full hne

/-- **The definition of a directive is read as it is written.** -/
theorem reads_directiveDefinition (h : c.current.isWord "directive" = true) :
    Reads φ limit (directiveDefinition l start description)
      (directiveDefinition limit (φ start) (relabel (.move φ) description)) c fun d ls =>
        (∃ full, descriptionLexemes description ++ ls = d.lexemes full) ∧ d.Shaped := by
  have hwritten : ∀ (n : Name) (as : List InputValueDefinition) (repeatable : Bool) (full : Bool)
      (os : List DirectiveLocation) (s : Span), descriptionLexemes description ++ (word "directive"
      :: mark .atSign :: word n.text :: (declaredLexemes as ++ ((if repeatable then
        [word "repeatable"] else []) ++ (word "on" :: leadingBar full ++
          barred (fun o : DirectiveLocation => [word o.keyword]) os)))) =
      DirectiveDefinition.lexemes full ⟨description, n, as, repeatable, os, s⟩ := by
    simp [DirectiveDefinition.lexemes]
  have hne : [DirectiveLocation.query] ≠ [] := by simp
  refine Reads.advance_word hc h fun d hd => ?_
  refine Reads.bind hd (reads_expect hd rfl) (fun _ e _ he => ?_) fun _ _ =>
    ⟨[word "a", word "on", word "QUERY"], ⟨_, _, _, _, _, .empty 0⟩, by decide,
      ⟨false, hwritten ⟨"a", .empty 0⟩ [] false false [.query] _⟩, by simp, hne⟩
  refine Reads.bind he (reads_name he) (fun n f _ hf => ?_) fun n _ =>
    ⟨[word "on", word "QUERY"], ⟨_, _, _, _, _, .empty 0⟩, by decide,
      ⟨false, hwritten n [] false false [.query] _⟩, by simp, hne⟩
  refine Reads.bind hf (reads_declaredArguments hφ hf) (fun as g has hg => ?_) fun as has =>
    ⟨[word "on", word "QUERY"], ⟨_, _, _, _, _, .empty 0⟩, by decide,
      ⟨false, hwritten n as false false [.query] _⟩, has, hne⟩
  refine Reads.atToken (fun _ => rfl) ?_
  generalize hb : g.current.isWord "repeatable" = b
  cases b with
  | true =>
    refine Reads.advance_word hg hb fun k hk => reads_places hk (fun os m full hos _ => ?_)
      fun os full hos => ⟨[], ⟨description, n, as, true, os, .empty 0⟩, rfl, ⟨full, ?_⟩, has, hos⟩
    · refine Reads.spanFrom hφ fun s => .pure ⟨⟨full, ?_⟩, has, hos⟩ rfl
      simpa using hwritten n as true full os s
    · simpa using hwritten n as true full os (.empty 0)
  | false =>
    refine reads_places hg (fun os m full hos _ => ?_)
      fun os full hos => ⟨[], ⟨description, n, as, false, os, .empty 0⟩, rfl, ⟨full, ?_⟩, has, hos⟩
    · refine Reads.spanFrom hφ fun s => .pure ⟨⟨full, ?_⟩, has, hos⟩ rfl
      simpa using hwritten n as false full os s
    · simpa using hwritten n as false full os (.empty 0)

end Definitions

end TypeSystem

end QueryDocs.Rule
