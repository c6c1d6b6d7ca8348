import QueryDocs.Proofs.Document.Nested
import QueryDocs.Proofs.Grammar.Whole

/-! # Bodies of braces that belong elsewhere

Before a selection set alone, a definition that lacks its body takes the braces for it. Either what
stands between them cannot be read as a body, or the whole selection set is taken
(`takesOnly_definition`): an operation gets lost. -/

namespace QueryDocs

open Lexeme (mark word first trailing)

theorem Nested.relabel {ls : List Lexeme} (h : Nested ls) (m : Relabeling) :
    Nested (ls.map (relabel m)) := by
  induction h with
  | nil => exact .nil
  | @token l hl =>
    refine .token ?_
    obtain ⟨k, v⟩ := l
    rcases v with _ | v
    · cases k <;> exact hl
    · cases k with
      | blockString =>
        change Lexeme.isFlat (if m.block v then .blockString else .string, some v) = true
        split_ifs <;> rfl
      | _ => exact hl
  | append _ _ ih ih' =>
    rw [List.map_append]
    exact .append ih ih'
  | braces _ ih =>
    rw [List.map_append, List.map_cons, List.map_singleton, relabel_mark, relabel_mark]
    exact .braces ih

theorem passes_plain {m : Relabeling} {ls : List Lexeme} {ts : List Token} {d : Cursor}
    (h : (Cursor.plain m ls).Passes ts d) :
    ∃ us vs, ls = us ++ vs ∧ ts.map Token.lexeme = us.map (relabel m) ∧ d = .plain m vs := by
  induction ls generalizing ts with
  | nil =>
    cases h with
    | nil => exact ⟨[], [], rfl, rfl, rfl⟩
    | cons he => cases he
  | cons l ls ih =>
    cases h with
    | nil => exact ⟨[], l :: ls, rfl, rfl, rfl⟩
    | cons he ha hs =>
      rw [Rule.advance_plain] at ha
      cases ha
      obtain ⟨us, vs, rfl, hus, hd⟩ := ih hs
      exact ⟨l :: us, vs, rfl, by rw [List.map_cons, hus]; rfl, hd⟩

namespace Rule

section Steps
variable {α β : Type} {block : String → Bool} {limit : Nat} {r : Rule α} {ls ms ks : List Lexeme}

/-- A rule that succeeds on tokens before others takes just these. -/
def TakesOnly (block : String → Bool) (limit : Nat) (r : Rule α) (ls ks : List Lexeme) : Prop :=
  (ls ++ ks).length < limit → ∀ y c, r (.plain (.plain block) (ls ++ ks)) = .ok (y, c) →
    c = .plain (.plain block) ks

theorem TakesOnly.bind [Labeled α] {x : α} {k : α → Rule β} (h : Takes block limit r ls x (ms ++ ks))
    (hk : TakesOnly block limit (k (relabel (.plain block) x)) ms ks) :
    TakesOnly block limit (r >>= k) (ls ++ ms) ks := by
  intro hlen y c hr
  rw [List.append_assoc] at hlen hr
  rw [bind_ok (h hlen)] at hr
  exact hk (by rw [List.length_append] at hlen; omega) y c hr

theorem TakesOnly.map {f : α → β} (h : TakesOnly block limit r ls ks) :
    TakesOnly block limit (r >>= fun x => Pure.pure (f x)) ls ks := by
  intro hlen y c hr
  obtain ⟨x, d, hx, hk⟩ := bind_eq_ok hr
  cases hk
  exact h hlen x c hx

theorem TakesOnly.spanned {start : Nat} {f : α → Span → β} (h : TakesOnly block limit r ls ks) :
    TakesOnly block limit (r >>= fun x => spanFrom start >>= fun s => Pure.pure (f x s)) ls ks := by
  intro hlen y c hr
  obtain ⟨x, d, hx, hk⟩ := bind_eq_ok hr
  cases hk
  exact h hlen x c hx

theorem TakesOnly.advance {l : Lexeme} {k : Unit → Rule α} (h : TakesOnly block limit (k ()) ls ks) :
    TakesOnly block limit (Rule.advance >>= k) (l :: ls) ks :=
  TakesOnly.bind takes_advance h

theorem TakesOnly.get {f : Cursor → Rule α}
    (h : TakesOnly block limit (f (.plain (.plain block) (ls ++ ks))) ls ks) :
    TakesOnly block limit (MonadState.get >>= f) ls ks := h

theorem TakesOnly.start {k : Nat → Rule α} (h : TakesOnly block limit (k 0) ls ks) :
    TakesOnly block limit (start >>= k) ls ks := by
  intro hlen y c hr
  change k (head block (ls ++ ks)).span.start _ = _ at hr
  rw [span_head] at hr
  exact h hlen y c hr

theorem TakesOnly.startOf {k : Nat → Rule α} (v : Option StringValue)
    (h : TakesOnly block limit (k 0) ls ks) :
    TakesOnly block limit (startOf (relabel (.plain block) v) >>= k) ls ks := by
  cases v with
  | none => exact .start h
  | some v => exact h

theorem TakesOnly.else {b : Bool} {a a' : Rule α} (hb : b = false)
    (h : TakesOnly block limit a' ls ks) :
    TakesOnly block limit (if b = true then a else a') ls ks := by
  rwa [if_neg (by simp [hb])]

end Steps

/-! ### Selection sets read as bodies -/

section Bodies
variable {block : String → Bool} {limit : Nat} {ks : List Lexeme} {set : SelectionSet}

/-- Where a body can be read, it is the whole selection set that is taken for it. -/
theorem takesOnly_body {α : Type} [Labeled α] {item item' : Rule α} {g : α → List Lexeme} {P : α → Prop}
    {x₀ : α} (hx₀ : Sample g P x₀)
    (hitem : ∀ c : Cursor, c.Within limit → Reads id 0 item item' c (Spelled g P))
    (hne : ∀ x, P x → g x ≠ []) (hg : ∀ x, Nested (g x)) (hv : ∀ l ∈ set.lexemes ++ ks, l.Valid) :
    TakesOnly block limit (optionalBetween limit .leftBrace item .rightBrace) set.lexemes ks := by
  intro hlen xs c hr
  have hwithin : (Cursor.plain (.plain block) (set.lexemes ++ ks)).Within limit :=
    (plain_within fun l hl => (hv l hl).relabel _).mono hlen
  obtain ⟨ts, hp, ⟨hts, -⟩, -⟩ := (reads_optionalBetween rfl rfl hx₀ hitem hne hwithin).ok hr
  obtain ⟨us, vs, hsplit, hus, rfl⟩ := passes_plain hp
  cases xs with
  | nil =>
    obtain rfl : us = [] := List.map_eq_nil_iff.mp (hus.symm.trans hts)
    have hbrace := ends_optionalBetween _ _ _ hr rfl
    rw [← List.nil_append vs, ← hsplit] at hbrace
    exact absurd ((kind_head_mark rfl).mpr (first_selectionSet set ks)) hbrace
  | cons x xs =>
    -- the closing brace of the selection set is the one of the body
    have hbody : us.map (relabel (.plain block)) =
        mark .leftBrace :: (x :: xs).flatMap g ++ [mark .rightBrace] := hus.symm.trans hts
    obtain ⟨ys, s⟩ := set
    have hboth : (SelectionSet.lexemes ⟨ys, s⟩).map (relabel (.plain block)) ++
        ks.map (relabel (.plain block)) = us.map (relabel (.plain block)) ++
          vs.map (relabel (.plain block)) := by
      rw [← List.map_append, ← List.map_append, hsplit]
    rw [hbody, SelectionSet.lexemes] at hboth
    simp only [List.map_append, List.map_cons, List.map_nil, relabel_mark, List.cons_append,
      List.append_assoc, List.nil_append, List.cons.injEq, true_and] at hboth
    have hys := (Selection.nested_all ys).relabel (.plain block)
    obtain ⟨-, hks⟩ := hys.close_unique (.flatMap fun x _ => hg x) hboth
    have hlength : ks.length = vs.length := by simpa using congrArg List.length hks
    rw [(List.append_inj' hsplit hlength).2]

section Definitions
variable (hv : ∀ l ∈ set.lexemes ++ ks, l.Valid)
include hv

theorem takesOnly_composite {keyword : String} {d : CompositeDefinition} (hd : d.Shaped) :
    TakesOnly block limit (composite limit 0 (relabel (.plain block) d.description))
      (word keyword :: word d.name.text :: (interfaceLexemes d.interfaces
        ++ (directiveLexemes d.directives ++ set.lexemes))) ks := by
  obtain ⟨v, n, ts, ds, fs, s⟩ := d
  obtain ⟨hts, hds, -⟩ := hd
  have hends : EndsInterfaces block (directiveLexemes ds ++ (set.lexemes ++ ks)) := by
    cases ds with
    | nil =>
      refine endsInterfaces_of_ne_name ?_
      rw [directiveLexemes_nil, List.nil_append, first_selectionSet]
      decide
    | cons d ds => exact endsInterfaces_of_ne_name (by simp [directiveLexemes, Directive.lexemes])
  refine .advance (.bind (takes_name n) ?_)
  refine .bind (takes_interfaces hts (by simpa using hends)) ?_
  refine .bind (takes_directives hds (loose_selectionSet set ks)) ?_
  exact .spanned (takesOnly_body sample_fieldDefinition
    (fun _ hc => reads_fieldDefinition monotone_id hc) (fun f _ => by simp [FieldDefinition.lexemes])
    FieldDefinition.nested hv)

theorem takesOnly_membered {α β : Type} [Labeled α] {v : Option StringValue} {n : Name}
    {make : Option StringValue → Name → List Directive → List α → Span → β} {keyword : String}
    {item item' : Rule α} {g : α → List Lexeme} {P : α → Prop} {x₀ : α} {ds : List Directive}
    (hds : ∀ x ∈ ds, x.Shaped true) (hx₀ : Sample g P x₀)
    (hitem : ∀ c : Cursor, c.Within limit → Reads id 0 item item' c (Spelled g P))
    (hne : ∀ x, P x → g x ≠ []) (hg : ∀ x, Nested (g x)) :
    TakesOnly block limit
      (membered make (optionalBetween limit .leftBrace item .rightBrace) limit 0 v)
      (word keyword :: word n.text :: (directiveLexemes ds ++ set.lexemes)) ks := by
  refine .advance (.bind (takes_name n) ?_)
  refine .bind (takes_directives hds (loose_selectionSet set ks)) ?_
  exact .spanned (takesOnly_body hx₀ hitem hne hg hv)

theorem takesOnly_typeDefinition {full : Bool} {d : TypeDefinition} {ls : List Lexeme}
    (hd : d.Shaped) (hlacks : d.lacksBody = true)
    (hls : d.lexemes full = descriptionLexemes d.description ++ ls) :
    TakesOnly block limit (typeDefinition limit 0 (relabel (.plain block) d.description))
      (ls ++ set.lexemes) ks := by
  simp only [TypeDefinition.lexemes, typeLexemes, CompositeDefinition.lexemes,
    TypeDefinition.description] at hls
  cases d with
  | scalar d => cases hlacks
  | union d => cases hlacks
  | object d =>
    have hfs : d.fields = [] := List.isEmpty_iff.mp hlacks
    obtain rfl : _ = ls := by simpa [hfs] using hls
    simp only [List.cons_append, List.append_assoc]
    exact .get (.map (takesOnly_composite hv hd))
  | interface d =>
    have hfs : d.fields = [] := List.isEmpty_iff.mp hlacks
    obtain rfl : _ = ls := by simpa [hfs] using hls
    simp only [List.cons_append, List.append_assoc]
    exact .get (.map (takesOnly_composite hv hd))
  | enum d =>
    have hvs : d.values = [] := List.isEmpty_iff.mp hlacks
    obtain rfl : _ = ls := by simpa [hvs] using hls
    exact .get (.map (takesOnly_membered hv hd.1 sample_enumValue
      (fun _ hc => reads_enumValue monotone_id hc) (fun v _ => by simp [EnumValueDefinition.lexemes])
      EnumValueDefinition.nested))
  | input d =>
    have hfs : d.fields = [] := List.isEmpty_iff.mp hlacks
    obtain rfl : _ = ls := by simpa [hfs] using hls
    exact .get (.map (takesOnly_membered hv hd.1 sample_inputValue
      (fun _ hc => reads_inputValue monotone_id hc) (fun f _ => lexemes_inputValue_ne_nil f)
      InputValueDefinition.nested))

theorem takesOnly_extension {full : Bool} {x : TypeExtension} (hx : (Definition.extension x).Shaped)
    (hlacks : x.definition.lacksBody = true) :
    TakesOnly block limit (extension limit)
      (word "extend" :: (x.definition.lexemes full ++ set.lexemes)) ks := by
  obtain ⟨d, s⟩ := x
  obtain ⟨hnone, hd⟩ := hx
  have hnone : d.description = none := hnone
  have h : TakesOnly block limit (typeDefinition limit 0 none) (d.lexemes full ++ set.lexemes) ks := by
    have hls : d.lexemes full = descriptionLexemes d.description ++ d.lexemes full := by
      rw [hnone]
      rfl
    have h : TakesOnly block limit (typeDefinition limit 0 (relabel _ d.description)) _ ks :=
      takesOnly_typeDefinition hv hd hlacks hls
    rwa [hnone] at h
  exact .start (.bind takes_expectWord (.start (.spanned h)))

/-- **A definition that lacks its body takes the selection set that stands behind it**, if it can be
read at all. -/
theorem takesOnly_definition {full : Bool} {x : Definition} (hx : x.Shaped)
    (hlacks : x.lacksBody = true) :
    TakesOnly block limit (definition limit) (x.lexemes full ++ set.lexemes) ks := by
  cases x with
  | type d =>
    obtain ⟨w, hw, ls, hls⟩ := lexemes_type full d
    have hschema : w ≠ "schema" := by rintro rfl; exact absurd hw (by decide)
    have hdirective : w ≠ "directive" := by rintro rfl; exact absurd hw (by decide)
    have h : TakesOnly block limit (typeSystemDefinition limit (relabel (.plain block) d.description))
        (word w :: ls ++ set.lexemes) ks :=
      .startOf d.description (.get (.else (by simp [Token.isWord, Token.text, hschema])
        (.else (by simp [Token.isWord, Token.text, hdirective])
          (.map (takesOnly_typeDefinition hv hx hlacks hls)))))
    intro hlen y c hr
    have hrest : (word w :: ls ++ set.lexemes) ++ ks = word w :: (ls ++ (set.lexemes ++ ks)) := by simp
    have hall : (Definition.type d).lexemes full ++ set.lexemes ++ ks =
        descriptionLexemes d.description ++ word w :: (ls ++ (set.lexemes ++ ks)) := by
      rw [Definition.lexemes, hls]
      simp
    rw [hall] at hlen hr
    rw [definition_system (List.mem_cons_of_mem _ (List.mem_cons_of_mem _ hw)), ← hrest] at hr
    rw [← hrest, List.length_append] at hlen
    exact h (by omega) y c hr
  | extension e => exact .get (.map (takesOnly_extension hv hx hlacks))
  | _ => cases hlacks

end Definitions

end Bodies

end Rule

end QueryDocs
