import Lineage.Proofs.Java.Formed
import Lineage.Proofs.Java.TypeRules
/-! # The trees of the grammar

The trees that the grammar gives are well-formed. Main statement: `reliable_ofSource`.
-/
namespace Lineage.Java

open Rule Grammar

/-! ## Nodes that end in a body -/

/-- Not the body of what it is a piece of. -/
def Bodiless (p : Piece) : Prop := p.tree.role ≠ some .body

def EndsInBody (ps : List Piece) : Prop :=
  ∃ before p, ps = before ++ [p] ∧ p.tree.role = some .body ∧ ∀ q ∈ before, Bodiless q

theorem bodyLast_join {kind : Kind} {ps : List Piece} (h : EndsInBody ps)
    (hcs : ∀ p ∈ ps, Commented p) : (Piece.join kind ps).tree.BodyLast := by
  obtain ⟨init, p, rfl, hp, hinit⟩ := h
  obtain ⟨before, htext⟩ := Piece.text_join_concat kind init p
  obtain ⟨cs, hchildren, horigin⟩ := Piece.children_join_concat kind init p
  refine ⟨p.tree, before, ?_, htext⟩
  have hnone : cs.find? (fun c => decide (c.role = some .body)) = none := by
    rw [List.find?_eq_none]
    intro c hc
    rcases horigin c hc with ⟨q, hq, hc⟩ | ⟨q, hq, rfl⟩
    · simp [(hcs q hq c hc).role]
    · simpa [Bodiless] using hinit q hq
  rw [Tree.child?, hchildren, List.find?_append, hnone]
  simp [hp]

/-! ## Type declarations -/

section Bodiless
variable {r : R}

theorem bodiless_ofToken (kind : Kind) (t : Token) : Bodiless (.ofToken kind t) := nofun

theorem bodiless_join (kind : Kind) (ps : List Piece) : Bodiless (.join kind ps) := by
  simp [Bodiless]

@[simp] theorem bodiless_word (text : String) : Yields rules Bodiless (word text) :=
  yields_word fun t _ _ => bodiless_ofToken _ t

@[simp] theorem bodiless_node (kind : Kind) (r : R) : Yields rules Bodiless (node kind r) :=
  yields_node fun _ _ => bodiless_join kind _

theorem bodiless_role {x : Role} (hx : x ≠ .body) (r : R) : Yields rules Bodiless (role x r) := by
  refine yields_role fun _ h p hp => ?_
  simp [Bodiless, hx]

@[simp] theorem bodiless_name : Yields rules Bodiless nameRole := bodiless_role (by decide) _

@[simp] theorem bodiless_parameters : Yields rules Bodiless parametersRole :=
  bodiless_role (by decide) _

@[simp] theorem bodiless_opt_node (kind : Kind) (r : R) :
    Yields rules Bodiless (opt (node kind r)) := yields_opt (bodiless_node kind r)

theorem bodiless_opt_symbol {s : Nonterminal} {kind : Kind} {r : R} (h : rules s = node kind r) :
    Yields rules Bodiless (opt (sym s)) := by
  refine yields_opt (yields_symbol ?_)
  rw [h]
  exact bodiless_node kind r

@[simp] theorem bodiless_typeParameters : Yields rules Bodiless optTypeParameters :=
  bodiless_opt_symbol rfl

@[simp] theorem bodiless_superInterfaces : Yields rules Bodiless (opt (sym .superInterfaces)) :=
  bodiless_opt_symbol rfl

@[simp] theorem bodiless_permits : Yields rules Bodiless (opt (sym .permits)) :=
  bodiless_opt_symbol rfl

end Bodiless

/-- A sequence ends in a body if its last rule gives one piece in this role. -/
theorem endsInBody_of_matches (rs : List R) {r : R} {ts ts' : List Token} {ps : List Piece}
    (hrs : ∀ r ∈ rs, Yields rules Bodiless r)
    (hr : Single rules r)
    (hts : ∀ t ∈ ts, t.Clean) (h : Matches rules (seq (rs ++ [role .body r])) ts ps ts') :
    EndsInBody ps := by
  obtain ⟨a, b, ts₁, ha, hb, rfl⟩ := Matches.concat _ h
  cases hb with
  | role hb =>
    obtain ⟨p, rfl⟩ := hr hb
    exact ⟨a, p.withRole .body, rfl, by simp, yields_seq hrs hts ha⟩

theorem single_classBody : Single rules (sym .classBody) := single_symbol (single_node _ _)

theorem endsInBody_typeEnds : ∀ e ∈ typeEnds, ∀ {ts ts' : List Token} {ps : List Piece},
    (∀ t ∈ ts, t.Clean) → Matches rules e.2 ts ps ts' → EndsInBody ps := by
  intro e he ts ts' ps hts h
  simp only [typeEnds, List.mem_cons, List.not_mem_nil, or_false] at he
  rcases he with rfl | rfl | rfl | rfl | rfl
  · cases h with
    | symbol h =>
      exact endsInBody_of_matches [word "class", nameRole, optTypeParameters, _, _, _] (by simp)
        single_classBody hts h
  · cases h with
    | symbol h =>
      exact endsInBody_of_matches [word "interface", nameRole, optTypeParameters, _, _] (by simp)
        (single_node _ _) hts h
  · cases h with
    | symbol h =>
      exact endsInBody_of_matches [word "enum", nameRole, _] (by simp) (single_node _ _) hts h
  · cases h with
    | symbol h =>
      exact endsInBody_of_matches [word "record", nameRole, optTypeParameters, parametersRole, _]
        (by simp) single_classBody hts h
  · cases h with
    | symbol h =>
      exact endsInBody_of_matches [word "@", word "interface", nameRole] (by simp)
        (single_node _ _) hts h

/-! ## Names in imports -/

/-- A part of a name: no comma stands in it outside comments, or before it. -/
structure NamePart (p : Piece) : Prop where
  trivia : Solid p.trivia
  text : Solid p.tree.text
  nonempty : p.tree.text ≠ ""

theorem namePart_join {kind : Kind} {ps : List Piece} (h : ∀ p ∈ ps, NamePart p) (hne : ps ≠ []) :
    NamePart (.join kind ps) := by
  cases ps with
  | nil => exact absurd rfl hne
  | cons p ps =>
    obtain ⟨hp, hps⟩ := List.forall_mem_cons.mp h
    have hrest : Solid (String.join (ps.map fun q => q.trivia ++ q.tree.text)) := by
      clear h hne
      induction ps with
      | nil => exact .nil _
      | cons q qs ih =>
        obtain ⟨hq, hqs⟩ := List.forall_mem_cons.mp hps
        rw [List.map_cons, String.join_cons]
        exact (hq.trivia.append hq.text).append (ih hqs)
    refine ⟨hp.trivia, hp.text.append hrest, ?_⟩
    intro he
    exact hp.nonempty (String.append_eq_empty_iff.mp he).1

theorem namePart_identifier : Yields rules NamePart identifier :=
  yields_leaf fun _ ht hcls =>
    ⟨ht.trivia (ht.word hcls).1, Token.solid_of_isWord (ht.word hcls), (ht.word hcls).1⟩

theorem namePart_point : Yields rules NamePart (word ".") := by
  refine yields_word fun t ht htext => ?_
  have hne : t.text ≠ "" := by simp [htext]
  refine ⟨ht.trivia hne, ?_, hne⟩
  change Solid t.text
  rw [htext]
  exact ⟨by decide, by decide⟩

theorem namePart_name : Yields rules NamePart (sym .name) := by
  refine yields_symbol (yields_chain namePart_identifier ?_)
  intro e he ts ts' a b hts ha hb
  obtain rfl := List.mem_singleton.mp he
  have hparts : ∀ p ∈ b, NamePart p :=
    yields_seq (by simp [namePart_point, namePart_identifier]) hts hb
  have hb' : b ≠ [] := by
    cases hb with
    | seq hp _ => cases hp; simp
  refine namePart_join ?_ ?_
  · exact List.forall_mem_append.mpr ⟨ha, hparts⟩
  · simp [hb']

theorem solidName_word (text : String) :
    Yields rules (fun p => SolidName p.tree) (word text) := yields_word fun _ _ _ hn => by cases hn

/-- What follows the keyword of an import has no name but the one that is imported. -/
theorem solidName_import : Yields rules (fun p => SolidName p.tree)
    (seq [word "import", opt (word "static"), sym .name,
      opt (seq [word ".", namedWord .asterisk "*"]), word ";"]) := by
  have hname : Yields rules (fun p => SolidName p.tree) (sym .name) :=
    fun _ _ _ hts h p hp _ =>
      ⟨(namePart_name hts h p hp).text, (namePart_name hts h p hp).nonempty⟩
  have hasterisk : Yields rules (fun p => SolidName p.tree) (namedWord .asterisk "*") :=
    yields_namedWord fun _ _ _ hn => by cases hn
  have hall : Yields rules (fun p => SolidName p.tree)
      (opt (seq [word ".", namedWord .asterisk "*"])) := by
    refine yields_opt (yields_seq ?_)
    simp [solidName_word, hasterisk]
  have hstatic : Yields rules (fun p => SolidName p.tree) (opt (word "static")) :=
    yields_opt (solidName_word "static")
  refine yields_seq ?_
  simp [solidName_word, hname, hall, hstatic]

/-! ## Names and types of declarations -/

theorem fitting_of_role {t : Tree} (hname : t.role ≠ some .name) (htype : t.role ≠ some .type) :
    Fitting t := ⟨fun h => absurd h hname, fun h => absurd h htype⟩

abbrev Fits (r : R) : Prop := Yields rules (fun p => Fitting p.tree) r

section Fits
variable {r : R}

theorem typeLike_withRole {t : Tree} (h : t.TypeLike) (x : Role) : (t.withRole x).TypeLike := by
  cases t with
  | node k r text a b cs =>
    refine ⟨fun hu => ?_, ?_, h.closed⟩
    · exact h.spelled (.intro ⟨hu.self.comment, hu.self.annotation, hu.self.mark⟩ fun c hc =>
        hu.child hc)
    · exact h.nonempty

@[simp] theorem fits_word (text : String) : Fits (word text) :=
  yields_word fun _ _ _ => fitting_of_role nofun nofun

@[simp] theorem fits_node (kind : Kind) (r : R) : Fits (node kind r) :=
  yields_node fun _ _ => fitting_of_role (by simp) (by simp)

@[simp] theorem fits_name : Fits nameRole :=
  yields_role (yields_leaf fun _ ht hcls => ⟨fun _ => ht.word hcls, by simp⟩)

@[simp] theorem fits_type : Fits typeRole :=
  yields_role fun _ _ _ hts hm p hp =>
    ⟨by simp, fun _ => typeLike_withRole (yields_type hts hm p hp) _⟩

@[simp] theorem fits_parameters : Fits parametersRole :=
  yields_role fun _ _ _ _ _ _ _ => fitting_of_role (by simp) (by simp)

@[simp] theorem fits_body (r : R) : Fits (role .body r) :=
  yields_role fun _ _ _ _ _ _ _ => fitting_of_role (by simp) (by simp)

@[simp] theorem fits_declarator (r : R) : Fits (role .declarator r) :=
  yields_role fun _ _ _ _ _ _ _ => fitting_of_role (by simp) (by simp)

theorem fits_symbol {s : Nonterminal} {kind : Kind} {r : R} (h : rules s = node kind r) :
    Fits (sym s) := by
  refine yields_symbol ?_
  rw [h]
  exact fits_node kind r

@[simp] theorem fits_modifiers : Fits optModifiers := yields_opt (fits_symbol rfl)

@[simp] theorem fits_typeParameters : Fits optTypeParameters := yields_opt (fits_symbol rfl)

@[simp] theorem fits_dimensions : Fits optDimensions := yields_opt (fits_symbol rfl)

end Fits

/-! ## All nodes of a tree -/

theorem regular_formed : Tree.Regular Tree.Formed where
  withRole x t h := by
    refine ⟨fun hk => ?_, fun hk => ?_, fun hk => ?_, fun hk => ?_, fun hk => ?_, fun hk => ?_⟩
    all_goals rw [Tree.kind_withRole] at hk
    · simpa [Tree.BodyLast, Tree.child?] using h.body hk
    · simpa using h.names hk
    · simpa using h.declared hk
    · simpa using h.spread hk
    · simpa using h.closed hk
    · simpa using h.modifying hk
  comment t h := by
    have hk := h.kind
    refine ⟨fun ht => ?_, fun ht => ?_, ?_, ?_, fun ht => ?_, ?_⟩
    · revert hk ht
      cases t.kind <;> simp [Kind.isComment, TypeKind.ofKind?]
    · rw [ht] at hk
      cases hk
    · simp [h.children]
    · simp [h.children]
    · rw [ht] at hk
      cases hk
    · simp [h.children]

def Kind.isPlain (k : Kind) : Bool :=
  !k.isDeclaration && k ≠ .importDeclaration && k ≠ .spreadParameter && k ≠ .modifiers

theorem formed_of_isPlain {t : Tree} (h : t.kind.isPlain = true) : t.Formed := by
  simp only [Kind.isPlain, Bool.and_eq_true, decide_eq_true_eq, Bool.not_eq_true'] at h
  obtain ⟨⟨⟨hdeclaration, himport⟩, hspread⟩, hmodifiers⟩ := h
  refine ⟨fun hk => ?_, fun hk => absurd hk himport, fun hk => ?_, fun hk => absurd hk hspread,
    fun hk => ?_, fun hk => absurd hk hmodifiers⟩
  · rw [isDeclaration_of_ofKind? hk] at hdeclaration
    cases hdeclaration
  · rw [hk] at hdeclaration
    cases hdeclaration
  · rw [hk] at hdeclaration
    cases hdeclaration

theorem formed_join {kind : Kind} (h : kind.isPlain = true) (ps : List Piece) :
    (Piece.join kind ps).tree.Formed := formed_of_isPlain (by rwa [Piece.kind_join])

theorem formed_ofToken {kind : Kind} (h : kind.isPlain = true) (t : Token) :
    (Piece.ofToken kind t).tree.Formed := formed_of_isPlain h

/-! ## Rules that build such nodes -/

/-- The grammar's rules, as builders of well-formed trees. -/
abbrev Forms (r : R) : Prop := Builds rules Tree.Formed r

section Forms
variable {kind : Kind} {r head start : R} {rs : List R}

@[simp] theorem forms_word (text : String) : Forms (word text) := .word text (formed_ofToken rfl)

@[simp] theorem forms_glued (text : String) : Forms (glued text) := .glued text (formed_ofToken rfl)

@[simp] theorem forms_namedWord (h : kind.isPlain = true) (text : String) :
    Forms (namedWord kind text) := .namedWord text (formed_ofToken h)

@[simp] theorem forms_leaf (h : kind.isPlain = true) (cls : TokenClass) : Forms (leaf kind cls) :=
  .leaf cls (formed_ofToken h)

@[simp] theorem forms_ahead (r : R) : Forms (ahead r) := .ahead r

@[simp] theorem forms_absent (r : R) : Forms (absent r) := .absent r

@[simp] theorem forms_symbol (s : Nonterminal) : Forms (sym s) := .symbol s

@[simp] theorem forms_seq_iff : Forms (seq rs) ↔ ∀ r ∈ rs, Forms r :=
  ⟨fun h => by cases h; assumption, .seq⟩

@[simp] theorem forms_choice_iff : Forms (choice rs) ↔ ∀ r ∈ rs, Forms r :=
  ⟨fun h => by cases h; assumption, .choice⟩

@[simp] theorem forms_optModifiers : Forms optModifiers := by
  simp [optModifiers]

@[simp] theorem forms_many_iff : Forms (many r) ↔ Forms r :=
  ⟨fun h => by cases h; assumption, .many⟩

@[simp] theorem forms_role_iff (x : Role) : Forms (role x r) ↔ Forms r :=
  ⟨fun h => by cases h; assumption, .role x⟩

@[simp] theorem forms_node_iff (hk : kind.isPlain = true) : Forms (node kind r) ↔ Forms r :=
  ⟨fun h => by cases h; assumption, fun h => .node h fun _ _ => formed_join hk _⟩

@[simp] theorem forms_chain_iff {tails : List (Kind × Option Role × R)}
    (hk : ∀ e ∈ tails, e.1.isPlain = true) :
    Forms (chain head tails) ↔ Forms head ∧ ∀ e ∈ tails, Forms e.2.2 :=
  ⟨fun h => by cases h; exact ⟨by assumption, by assumption⟩,
    fun h => .chain h.1 h.2 fun e he => formed_join (hk e he)⟩

@[simp] theorem forms_begun_iff {ends : List (Kind × R)} (hk : ∀ e ∈ ends, e.1.isPlain = true) :
    Forms (begun start ends) ↔ Forms start ∧ ∀ e ∈ ends, Forms e.2 :=
  ⟨fun h => by cases h; exact ⟨by assumption, by assumption⟩,
    fun h => .begun h.1 h.2 fun e he _ _ _ _ _ _ _ _ => formed_join (hk e he) _⟩

end Forms

/-- What a declaration has besides comments are the pieces that it is made of. -/
theorem forall_children_join {P : Tree → Prop} (hcomment : ∀ c : Tree, c.IsComment → P c)
    {kind : Kind} {ps : List Piece} (hcs : ∀ p ∈ ps, Commented p) (h : ∀ p ∈ ps, P p.tree) :
    ∀ c ∈ (Piece.join kind ps).tree.children, P c := by
  intro c hc
  obtain ⟨p, hp, hc | rfl⟩ := Piece.exists_of_mem_children_join hc
  · exact hcomment c (hcs p hp c hc)
  · exact h p hp

theorem fitting_of_isComment {c : Tree} (h : c.IsComment) : Fitting c :=
  fitting_of_role (by simp [h.role]) (by simp [h.role])

/-- A way to end a declaration after its modifiers. -/
def Shapes (e : Kind × R) : Prop :=
  ∀ ⦃ts ts₁ ts₂ : List Token⦄ ⦃a b : List Piece⦄, (∀ t ∈ ts, t.Clean) →
    Matches rules optModifiers ts a ts₁ → Matches rules e.2 ts₁ b ts₂ →
      (Piece.join e.1 (a ++ b)).tree.Formed

section Shapes
variable {kind : Kind} {r : R} {ts ts₁ ts₂ : List Token} {a b : List Piece}

theorem commented_append (hts : ∀ t ∈ ts, t.Clean) (ha : Matches rules optModifiers ts a ts₁)
    (hb : Matches rules r ts₁ b ts₂) : ∀ p ∈ a ++ b, Commented p :=
  List.forall_mem_append.mpr
    ⟨yields_commented _ hts ha, yields_commented _ (ha.clean hts) hb⟩

theorem fitting_append (hr : Fits r) (hts : ∀ t ∈ ts, t.Clean)
    (ha : Matches rules optModifiers ts a ts₁) (hb : Matches rules r ts₁ b ts₂) :
    ∀ c ∈ (Piece.join kind (a ++ b)).tree.children, Fitting c :=
  forall_children_join (fun _ => fitting_of_isComment) (commented_append hts ha hb)
    (List.forall_mem_append.mpr ⟨fits_modifiers hts ha, hr (ha.clean hts) hb⟩)

@[simp] theorem shapes_plain (hk : kind.isPlain = true) (r : R) : Shapes (kind, r) :=
  fun _ _ _ _ _ _ _ _ => formed_join hk _

theorem shapes_declaration (hk : (TypeKind.ofKind? kind).isSome = false)
    (hdeclaration : kind.isDeclaration = true) (hclosed : kind = .formalParameter → Closes r)
    (hr : Fits r) : Shapes (kind, r) := by
  intro ts ts₁ ts₂ a b hts ha hb
  have hkind : (Piece.join kind (a ++ b)).tree.kind = kind := Piece.kind_join _ _
  have hother : ∀ k : Kind, k.isDeclaration = false →
      (Piece.join kind (a ++ b)).tree.kind ≠ k := by
    rintro k hk rfl
    rw [hkind, hdeclaration] at hk
    cases hk
  refine ⟨fun h => ?_, fun h => absurd h (hother _ rfl), fun _ => fitting_append hr hts ha hb,
    fun h => absurd h (hother _ rfl), fun h => ?_, fun h => absurd h (hother _ rfl)⟩
  · rw [Piece.kind_join, hk] at h
    cases h
  · exact ((hclosed (hkind.symm.trans h) (ha.clean hts) hb).append_left a).join kind

theorem fits_typeEnds : ∀ e ∈ typeEnds, Fits e.2 := by
  have hinterfaces : Fits (opt (sym .superInterfaces)) := yields_opt (fits_symbol rfl)
  have hpermits : Fits (opt (sym .permits)) := yields_opt (fits_symbol rfl)
  have hnode : ∀ kind r, Fits (opt (node kind r)) := fun kind r => yields_opt (fits_node kind r)
  simp only [typeEnds, List.forall_mem_cons]
  refine ⟨?_, ?_, ?_, ?_, ?_, nofun⟩
  all_goals
    refine yields_symbol (yields_seq ?_)
    simp [hinterfaces, hpermits, hnode]

/-- The modifiers of a declaration are no body, nor is what precedes the body after them. -/
theorem shapes_types : ∀ e ∈ typeEnds, Shapes e := by
  intro e he ts ts₁ ts₂ a b hts ha hb
  have hbodiless : Yields rules Bodiless optModifiers := bodiless_opt_symbol rfl
  refine ⟨fun _ => bodyLast_join ?_ (commented_append hts ha hb), fun hk => ?_,
    fun _ => fitting_append (fits_typeEnds e he) hts ha hb, fun hk => ?_, fun hk => ?_,
    fun hk => ?_⟩
  · obtain ⟨before, p, rfl, hp, hbefore⟩ := endsInBody_typeEnds e he (ha.clean hts) hb
    exact ⟨a ++ before, p, (List.append_assoc ..).symm, hp,
      List.forall_mem_append.mpr ⟨hbodiless hts ha, hbefore⟩⟩
  all_goals
    rw [Piece.kind_join] at hk
    simp only [typeEnds, List.mem_cons, List.not_mem_nil, or_false] at he
    rcases he with rfl | rfl | rfl | rfl | rfl <;> cases hk

@[simp] theorem shapes_method : Shapes (.methodDeclaration, sym .methodEnd) := by
  have htypeParameters : Fits (opt (seq [sym .typeParameters, annotations])) := by
    have hannotations : Fits annotations :=
      yields_many (yields_symbol (yields_begun fun _ _ _ => fitting_of_role (by simp) (by simp)))
    have hparameters : Fits (sym .typeParameters) := fits_symbol rfl
    exact yields_opt (yields_seq (by simp [hannotations, hparameters]))
  have hthrows : Fits (opt (sym .throwsClause)) := yields_opt (fits_symbol rfl)
  have hend : Fits (choice [role .body (sym .block), word ";"]) := yields_choice (by simp)
  refine shapes_declaration rfl rfl nofun (yields_symbol (yields_seq ?_))
  simp [htypeParameters, hthrows, hend]

theorem fits_declarators : Fits (sym .declaratorsEnd) := by
  have hrest : Fits (many (seq [word ",", role .declarator (sym .declarator)])) :=
    yields_many (yields_seq (by simp))
  have hdeclarators : Fits (sepBy1 (role .declarator (sym .declarator)) ",") :=
    yields_seq (by simp [hrest])
  exact yields_symbol (yields_seq (by simp [hdeclarators]))

@[simp] theorem shapes_field : Shapes (.fieldDeclaration, sym .declaratorsEnd) :=
  shapes_declaration rfl rfl nofun fits_declarators

@[simp] theorem shapes_constant : Shapes (.constantDeclaration, sym .declaratorsEnd) :=
  shapes_declaration rfl rfl nofun fits_declarators

theorem shapes_constructors : ∀ e ∈ constructorEnds, Shapes e := by
  have hthrows : Fits (opt (sym .throwsClause)) := yields_opt (fits_symbol rfl)
  simp only [constructorEnds, List.forall_mem_cons]
  refine ⟨?_, ?_, nofun⟩
  all_goals
    refine shapes_declaration rfl rfl nofun (yields_seq ?_)
    simp [hthrows]

/-- A parameter ends in its name or in the dimensions after it. -/
theorem closes_formalParameter : Closes (seq [typeRole, nameRole, optDimensions]) :=
  closes_concat_opt (closes_concat [typeRole] closes_name) closes_dimensions

theorem shapes_formalParameter : Shapes (.formalParameter, seq [typeRole, nameRole, optDimensions]) :=
  shapes_declaration rfl rfl (fun _ => closes_formalParameter) (yields_seq (by simp))

theorem shapes_spreadParameter : Shapes (.spreadParameter,
    seq [sym .unannotatedType, word "...", annotations, sym .declarator]) := by
  have hnode : ∀ {kind : Kind} (r : R), kind.isBeside = true →
      Yields rules (fun p => p.tree.kind.isBeside = false → p.tree.TypeLike) (node kind r) := by
    intro kind r hk
    refine yields_node fun _ _ h => ?_
    rw [Piece.kind_join, hk] at h
    cases h
  have hannotations : Yields rules (fun p => p.tree.kind.isBeside = false → p.tree.TypeLike)
      annotations := by
    refine yields_many (yields_symbol (yields_begun fun e he ps h => ?_))
    rw [Piece.kind_join] at h
    simp only [List.mem_cons, List.not_mem_nil, or_false] at he
    rcases he with rfl | rfl <;> cases h
  have hdots : Yields rules (fun p => p.tree.kind.isBeside = false → p.tree.TypeLike)
      (word "...") := yields_word fun _ _ _ h => by cases h
  have hspread : Yields rules (fun p => p.tree.kind.isBeside = false → p.tree.TypeLike)
      (seq [sym .unannotatedType, word "...", annotations, sym .declarator]) := by
    refine yields_seq ?_
    simp only [List.forall_mem_cons]
    exact ⟨fun _ _ _ hts hm p hp _ => yields_type hts hm p hp, hdots, hannotations,
      yields_symbol (hnode _ rfl), List.forall_mem_nil _⟩
  intro ts ts₁ ts₂ a b hts ha hb
  constructor
  case spread =>
    refine fun _ => forall_children_join (fun c hc h => ?_) (commented_append hts ha hb)
      (List.forall_mem_append.mpr ⟨?_, hspread (ha.clean hts) hb⟩)
    · have hkind := hc.kind
      revert hkind h
      cases c.kind <;> simp [Kind.isComment, Kind.isBeside]
    · exact yields_opt (yields_symbol (hnode _ rfl)) hts ha
  all_goals
    intro h
    rw [Piece.kind_join] at h
    cases h

end Shapes

theorem forms_types {ends : List (Kind × R)} (hs : ∀ e ∈ ends, Shapes e)
    (h : ∀ e ∈ ends, Forms e.2) : Forms (begun optModifiers (typeEnds ++ ends)) := by
  refine .begun forms_optModifiers (List.forall_mem_append.mpr ⟨by simp [typeEnds], h⟩) ?_
  intro e he ts ts₁ ts₂ a b hts ha hb
  exact (List.mem_append.mp he).elim (shapes_types e) (hs e) hts ha hb

@[simp] theorem forms_types_iff {ends : List (Kind × R)} (hs : ∀ e ∈ ends, Shapes e) :
    Forms (begun optModifiers (typeEnds ++ ends)) ↔ ∀ e ∈ ends, Forms e.2 := by
  refine ⟨fun h => ?_, forms_types hs⟩
  cases h with
  | begun _ he => exact fun e hmem => he e (List.mem_append_right _ hmem)

@[simp] theorem forms_import : Forms (node .importDeclaration (seq [word "import",
    opt (word "static"), sym .name, opt (seq [word ".", namedWord .asterisk "*"]), word ";"])) := by
  refine .node (by simp [Kind.isPlain, Kind.isDeclaration]) fun {ts ts' ps} hts h => ?_
  constructor
  case names =>
    refine fun _ => forall_children_join (fun c hc hname => ?_) (yields_commented _ hts h)
      (solidName_import hts h)
    have hkind := hc.kind
    revert hkind hname
    cases c.kind <;> simp [Kind.isComment, Extract.isName]
  all_goals
    intro h
    rw [Piece.kind_join] at h
    cases h

/-- The modifiers of a declaration are annotations and words. -/
theorem modifying_modifier : Yields rules (fun p => Modifying p.tree)
    (choice [sym .annotationUse, words modifierWords,
      seq [word "sealed",
        ahead (seq [annotations, words (["class", "interface"] ++ modifierWords)])]]) := by
  have hmark : Yields rules (fun p => Modifying p.tree) (sym .annotationUse) := by
    refine yields_symbol (yields_begun fun e he ps hkind => ?_)
    rw [Piece.kind_join] at hkind
    simp only [List.mem_cons, List.not_mem_nil, or_false] at he
    rcases he with rfl | rfl <;> cases hkind
  have hword : ∀ text ∈ "sealed" :: modifierWords,
      Yields rules (fun p => Modifying p.tree) (word text) := by
    have hwords : ∀ text ∈ "sealed" :: modifierWords, text ≠ "" ∧ ' ' ∉ text.toList := by decide
    intro text hmem
    refine yields_word fun t _ ht _ _ => ?_
    change t.text ≠ "" ∧ ' ' ∉ t.text.toList
    exact ht ▸ hwords text hmem
  obtain ⟨hsealed, hwords⟩ := List.forall_mem_cons.mp hword
  have hahead : ∀ r : R, Yields rules (fun p => Modifying p.tree) (ahead r) := by
    intro r ts ts' ps hts hm
    cases hm with
    | ahead _ => exact List.forall_mem_nil _
  refine yields_choice ?_
  simp only [List.forall_mem_cons]
  refine ⟨hmark, yields_choice fun r hr => ?_, yields_seq ?_, List.forall_mem_nil _⟩
  · obtain ⟨text, hmem, rfl⟩ := List.mem_map.mp hr
    exact hwords text hmem
  · simp only [List.forall_mem_cons]
    exact ⟨hsealed, hahead _, List.forall_mem_nil _⟩

theorem forms_modifiers : Forms (rules .modifiers) := by
  refine .node (by simp [words, modifierWords]) fun {ts ts' ps} hts h => ?_
  constructor
  case modifying =>
    refine fun _ => forall_children_join (fun c hc _ hcomment => ?_) (yields_commented _ hts h)
      (yields_seq ?_ hts h)
    · rw [hc.kind] at hcomment
      cases hcomment
    · simp only [List.forall_mem_cons]
      exact ⟨modifying_modifier, yields_many modifying_modifier, List.forall_mem_nil _⟩
  all_goals
    intro h
    rw [Piece.kind_join] at h
    cases h

theorem forms_classMember : Forms (rules .classMember) := by
  have hmembers : Forms (begun optModifiers (typeEnds ++ constructorEnds ++
      [(.methodDeclaration, sym .methodEnd), (.fieldDeclaration, sym .declaratorsEnd)])) := by
    rw [List.append_assoc]
    refine forms_types (List.forall_mem_append.mpr ⟨shapes_constructors, by simp⟩) ?_
    simp [constructorEnds, Kind.isPlain, Kind.isDeclaration, nameRole, parametersRole, identifier,
      thisWord, superWord, optTypeArguments, optTypeParameters, argumentsRole]
  refine .choice ?_
  simp only [List.forall_mem_cons]
  exact ⟨by simp, by simp, by simp [Kind.isPlain, Kind.isDeclaration], hmembers,
    List.forall_mem_nil _⟩

theorem forms_formalParameters : Forms (rules .formalParameters) := by
  have hparameter : Forms (begun optModifiers
      [(.spreadParameter, seq [sym .unannotatedType, word "...", annotations, sym .declarator]),
       (.formalParameter, seq [typeRole, nameRole, optDimensions])]) := by
    refine .begun forms_optModifiers ?_ fun e he ts ts₁ ts₂ a b hts ha hb => ?_
    · simp [typeRole, nameRole, identifier, optDimensions, annotations, Kind.isPlain,
        Kind.isDeclaration]
    · simp only [List.mem_cons, List.not_mem_nil, or_false] at he
      rcases he with rfl | rfl
      · exact shapes_spreadParameter hts ha hb
      · exact shapes_formalParameter hts ha hb
  have hannotations : Forms annotations := by simp [annotations]
  simp [rules, hparameter, hannotations, sepBy, sepBy1, identifier, thisWord, Kind.isPlain,
    Kind.isDeclaration]

theorem forms_operators (level : Nat) : Forms (operators level) := by
  unfold operators
  split <;> simp [words]

theorem forms_binary (level : Nat) : Forms (rules (.binary level)) := by
  have hcloser : Forms (if level < closestLevel then sym (.binary (level + 1)) else sym .unary) := by
    split <;> simp
  dsimp only [rules]
  generalize (if level < closestLevel then sym (.binary (level + 1)) else sym .unary) = closer at *
  split <;>
    simp [Kind.isPlain, Kind.isDeclaration, identifier, hcloser, forms_operators]

theorem forms_rules (s : Nonterminal) : Forms (rules s) := by
  cases s with
  | binary level => exact forms_binary level
  | classMember => exact forms_classMember
  | formalParameters => exact forms_formalParameters
  | modifiers => exact forms_modifiers
  | _ =>
    simp [rules, Kind.isPlain, Kind.isDeclaration, sepBy, sepBy1, words, braced, annotations,
      identifier, typeName, thisWord, superWord, nameRole, typeRole, argumentsRole, parametersRole,
      optTypeArguments, optTypeParameters, optDimensions, primitiveNames,
      assignmentOperators, memberName, lambdaBody, anyToken]

/-! ## Sources -/

theorem reliable_ofSource : Parser.Reliable Tree.ofSource? := by
  intro source unit h
  obtain ⟨p, hp, rfl⟩ := Option.map_eq_some_iff.mp h
  unfold parse at hp
  split at hp
  · rename_i p' hrun
    cases hp
    have hm := matches_of_run hrun
    have hclean := Token.clean_ofSource source
    have hall := hm.all regular_formed forms_rules (.symbol _) hclean p List.mem_cons_self
    have hcomments := yields_commented _ hclean hm p List.mem_cons_self
    intro t ht
    cases htree : p.tree with
    | node k r text a b cs =>
      simp only [htree, Tree.children, List.mem_append] at ht
      rcases ht with ht | ht
      · exact regular_formed.all_comment (hcomments t ht)
      · exact hall.child (by simpa [htree, Tree.children] using ht)
  · cases hp

end Lineage.Java
