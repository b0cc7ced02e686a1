import Lineage.Java.Grammar
import Lineage.Proofs.Java.Matches
import Mathlib.Data.List.Basic
/-! # Rules of types

What the rules of types match are types: their texts are erased to the words outside of their type
arguments. Main statement: `yields_type`.
-/
namespace Lineage.Java

open Lineage.Java.TypeName Rule Grammar

namespace Tree

theorem sizeOf_lt_of_mem_children {t c : Tree} (h : c ∈ t.children) : sizeOf c < sizeOf t := by
  cases t with
  | node k r text a b cs =>
    have hlt := List.sizeOf_lt_of_mem (show c ∈ cs from h)
    simp only [node.sizeOf_spec]
    omega

end Tree

/-! ## Pieces of types -/

section Pieces
variable {kind : Kind} {p : Piece} {ps : List Piece} {n : Nat}

theorem toList_text_join (kind : Kind) (p : Piece) (ps : List Piece) :
    (Piece.join kind (p :: ps)).tree.text.toList = p.tree.text.toList ++
      ps.flatMap fun q => q.trivia.toList ++ q.tree.text.toList := by
  have hrest : (String.join (ps.map fun q => q.trivia ++ q.tree.text)).toList =
      ps.flatMap fun q => q.trivia.toList ++ q.tree.text.toList := by
    induction ps with
    | nil => rfl
    | cons q qs ih => simp [String.join_cons, ih]
  rw [← hrest]
  exact String.toList_append

/-- In a node without comments and annotations, only blanks stand between the pieces. -/
theorem unadorned_join (hcs : ∀ q ∈ ps, Commented q) (hgap : ∀ q ∈ ps, Spaced q)
    (h : (Piece.join kind (p :: ps)).tree.Unadorned) : p.tree.Unadorned ∧ ∀ q ∈ ps,
      q.tree.Unadorned ∧ q.comments = [] ∧ ∀ c ∈ q.trivia.toList, Text.isBlank c = true := by
  refine ⟨h.child List.mem_cons_self, fun q hq => ?_⟩
  have hmem : ∀ c ∈ q.comments ++ [q.tree], c ∈ (Piece.join kind (p :: ps)).tree.children :=
    fun c hc => List.mem_cons_of_mem _ (List.mem_flatMap.mpr ⟨q, hq, hc⟩)
  have hnone : q.comments = [] := by
    refine List.eq_nil_iff_forall_not_mem.mpr fun c hc => ?_
    have hmarked := (h.child (hmem c (List.mem_append_left _ hc))).self.comment
    rw [(hcs q hq c hc).kind] at hmarked
    cases hmarked
  refine ⟨h.child (hmem _ (List.mem_append_right _ List.mem_cons_self)), hnone, fun c hc => ?_⟩
  -- a gap has blanks and byte order marks, of which the text of the node has none
  have hblank := hgap q hq hnone c hc
  simp only [Token.isGap, Bool.or_eq_true, beq_iff_eq] at hblank
  refine hblank.resolve_right ?_
  rintro rfl
  refine h.self.mark ?_
  rw [toList_text_join]
  exact List.mem_append_right _ (List.mem_flatMap.mpr ⟨q, hq, List.mem_append_left _ hc⟩)

/-- A piece of a type, if it is no larger than some bound. -/
structure Spells (n : Nat) (p : Piece) : Prop where
  commented : Commented p
  spaced : Spaced p
  spelled : sizeOf p.tree ≤ n → p.tree.Spelled

/-- A piece that leaves nothing in type arguments, if it is no larger than some bound. -/
structure Drops (n : Nat) (p : Piece) : Prop where
  commented : Commented p
  spaced : Spaced p
  vanishes : sizeOf p.tree ≤ n → p.tree.Unadorned → Vanishes p.tree.text.toList

theorem Spells.drops (h : Spells n p) : Drops n p where
  commented := h.commented
  spaced := h.spaced
  vanishes hn hu := (h.spelled hn hu).1.vanishes

theorem erased_join (hk : kind ≠ .typeArguments) (hnone : ∀ q ∈ ps, q.comments = []) :
    (Piece.join kind (p :: ps)).tree.erased.toList =
      p.tree.erased.toList ++ ps.flatMap fun q => q.tree.erased.toList := by
  have hcs : ps.flatMap (fun q => q.comments ++ [q.tree]) = ps.map Piece.tree := by
    rw [List.map_eq_flatMap]
    refine List.flatMap_congr fun q hq => ?_
    rw [hnone q hq, List.nil_append]
  rw [Piece.join, hcs, Tree.erased, if_neg hk, if_neg (List.cons_ne_nil _ _), Tree.erasedOf,
    String.toList_append, Tree.toList_erasedOf, List.flatMap_map]

theorem mem_children_join {q : Piece} (hq : q ∈ ps) :
    q.tree ∈ (Piece.join kind ps).tree.children := by
  cases ps with
  | nil => cases hq
  | cons p ps =>
    rcases List.mem_cons.mp hq with rfl | hq
    · exact List.mem_cons_self
    · exact List.mem_cons_of_mem _ (List.mem_flatMap.mpr
        ⟨q, hq, List.mem_append_right _ List.mem_cons_self⟩)

theorem sizeOf_lt_join {q : Piece} (hq : q ∈ ps) :
    sizeOf q.tree < sizeOf (Piece.join kind ps).tree :=
  Tree.sizeOf_lt_of_mem_children (mem_children_join hq)

theorem spelled_join (hk : kind ≠ .typeArguments) (h : ∀ q ∈ ps, Spells n q)
    (hn : sizeOf (Piece.join kind ps).tree ≤ n) : (Piece.join kind ps).tree.Spelled := by
  intro hu
  cases ps with
  | nil =>
    have htext : (Piece.join kind []).tree.erased = "" := by simp [Piece.join, Tree.erased]
    rw [htext]
    exact ⟨erases_nil, List.forall_mem_nil _⟩
  | cons p ps =>
    obtain ⟨hp, hps⟩ := List.forall_mem_cons.mp h
    obtain ⟨hup, hups⟩ :=
      unadorned_join (fun q hq => (hps q hq).commented) (fun q hq => (hps q hq).spaced) hu
    have hsize : ∀ q ∈ p :: ps, sizeOf q.tree ≤ n := fun q hq => (sizeOf_lt_join hq).le.trans hn
    obtain ⟨hfirst, hfirst'⟩ := hp.spelled (hsize p List.mem_cons_self) hup
    have hrest : ∀ q ∈ ps, Erases q.tree.text.toList q.tree.erased.toList ∧
        ∀ c ∈ q.tree.erased.toList, isSpelling c = true := fun q hq =>
      (hps q hq).spelled (hsize q (List.mem_cons_of_mem _ hq)) (hups q hq).1
    rw [toList_text_join, erased_join hk fun q hq => (hups q hq).2.1]
    refine ⟨hfirst.append (erases_flatMap fun q hq => ?_), fun c hc => ?_⟩
    · exact (erases_blanks (hups q hq).2.2).append (hrest q hq).1
    · rcases List.mem_append.mp hc with hc | hc
      · exact hfirst' c hc
      · obtain ⟨q, hq, hc⟩ := List.mem_flatMap.mp hc
        exact (hrest q hq).2 c hc

theorem vanishes_pieces (h : ∀ q ∈ ps, Drops n q) (hn : ∀ q ∈ ps, sizeOf q.tree ≤ n)
    (hu : ∀ q ∈ ps, q.tree.Unadorned ∧ q.comments = [] ∧
      ∀ c ∈ q.trivia.toList, Text.isBlank c = true) :
    Vanishes (ps.flatMap fun q => q.trivia.toList ++ q.tree.text.toList) :=
  vanishes_flatMap fun q hq =>
    (erases_blanks (hu q hq).2.2).vanishes.append ((h q hq).vanishes (hn q hq) (hu q hq).1)

theorem vanishes_join (h : ∀ q ∈ ps, Drops n q)
    (hn : sizeOf (Piece.join kind ps).tree ≤ n) (hu : (Piece.join kind ps).tree.Unadorned) :
    Vanishes (Piece.join kind ps).tree.text.toList := by
  cases ps with
  | nil => exact vanishes_nil
  | cons p ps =>
    obtain ⟨hp, hps⟩ := List.forall_mem_cons.mp h
    obtain ⟨hup, hups⟩ :=
      unadorned_join (fun q hq => (hps q hq).commented) (fun q hq => (hps q hq).spaced) hu
    have hsize : ∀ q ∈ p :: ps, sizeOf q.tree ≤ n := fun q hq => (sizeOf_lt_join hq).le.trans hn
    rw [toList_text_join]
    exact (hp.vanishes (hsize p List.mem_cons_self) hup).append
      (vanishes_pieces hps (fun q hq => hsize q (List.mem_cons_of_mem _ hq)) hups)

theorem spelled_arguments {t t' : Token} (hopen : t.text = "<") (hclose : t'.text = ">")
    (hlast : t'.Clean) (h : ∀ q ∈ ps, Drops n q)
    (hn : sizeOf (Piece.join .typeArguments (.ofToken .word t :: (ps ++ [.ofToken .word t']))).tree ≤
      n + 1) :
    (Piece.join .typeArguments (.ofToken .word t :: (ps ++ [.ofToken .word t']))).tree.Spelled := by
  intro hu
  have hcommented : ∀ q ∈ ps ++ [Piece.ofToken .word t'], Commented q :=
    List.forall_mem_append.mpr ⟨fun q hq => (h q hq).commented,
      List.forall_mem_singleton.mpr hlast.comments⟩
  have hspaced : ∀ q ∈ ps ++ [Piece.ofToken .word t'], Spaced q :=
    List.forall_mem_append.mpr ⟨fun q hq => (h q hq).spaced,
      List.forall_mem_singleton.mpr hlast.gap⟩
  obtain ⟨hups, hend⟩ :=
    List.forall_mem_append.mp (unadorned_join hcommented hspaced hu).2
  obtain ⟨-, -, hblank⟩ := hend _ List.mem_cons_self
  have hsize : ∀ q ∈ ps, sizeOf q.tree ≤ n := by
    intro q hq
    have hmem : q ∈ Piece.ofToken .word t :: (ps ++ [.ofToken .word t']) := by simp [hq]
    have hlt : sizeOf q.tree < sizeOf (Piece.join .typeArguments _).tree := sizeOf_lt_join hmem
    omega
  have hinside := (vanishes_pieces h hsize hups).append (erases_blanks hblank).vanishes
  have htext : (Piece.join .typeArguments
      (.ofToken .word t :: (ps ++ [.ofToken .word t']))).tree.text.toList =
        '<' :: ((ps.flatMap fun q => q.trivia.toList ++ q.tree.text.toList) ++
          (Piece.ofToken .word t').trivia.toList ++ ['>']) := by
    rw [toList_text_join, List.flatMap_append, List.flatMap_singleton]
    simp [Piece.ofToken, Tree.text, hopen, hclose]
  have herased : (Piece.join .typeArguments
      (.ofToken .word t :: (ps ++ [.ofToken .word t']))).tree.erased = "" := by
    rw [Piece.join, Tree.erased, if_pos rfl]
  rw [htext, herased]
  exact ⟨hinside.erases, List.forall_mem_nil _⟩

end Pieces

/-! ## Rules of types -/

section Rules
variable {r : R} {kind : Kind} {n : Nat}

theorem yields_spells (h : Yields rules (fun p => sizeOf p.tree ≤ n → p.tree.Spelled) r) :
    Yields rules (Spells n) r := fun _ _ _ hts hm p hp =>
  ⟨yields_commented r hts hm p hp, yields_spaced r hts hm p hp, h hts hm p hp⟩

theorem yields_drops (h : Yields rules
      (fun p => sizeOf p.tree ≤ n → p.tree.Unadorned → Vanishes p.tree.text.toList) r) :
    Yields rules (Drops n) r := fun _ _ _ hts hm p hp =>
  ⟨yields_commented r hts hm p hp, yields_spaced r hts hm p hp, h hts hm p hp⟩

theorem drops_of_spells (h : Yields rules (Spells n) r) : Yields rules (Drops n) r :=
  fun _ _ _ hts hm p hp => (h hts hm p hp).drops

theorem spelled_ofToken (hk : kind ≠ .typeArguments) {t : Token}
    (h : ∀ c ∈ t.text.toList, isSpelling c = true) : (Piece.ofToken kind t).tree.Spelled := by
  intro _
  have herased : (Piece.ofToken kind t).tree.erased = t.text := by
    simp [Piece.ofToken, Tree.erased, hk]
  rw [herased]
  exact ⟨erases_spelling h, h⟩

theorem spells_word {text : String} (h : text.toList.all isSpelling) :
    Yields rules (Spells n) (word text) :=
  yields_spells (yields_word fun _ _ ht _ =>
    spelled_ofToken (by decide) (List.all_eq_true.mp (by rwa [ht])))

theorem spells_namedWord (hk : kind ≠ .typeArguments) {text : String}
    (h : text.toList.all isSpelling) : Yields rules (Spells n) (namedWord kind text) :=
  yields_spells (yields_namedWord fun _ _ ht _ =>
    spelled_ofToken hk (List.all_eq_true.mp (by rwa [ht])))

theorem spells_typeName : Yields rules (Spells n) typeName :=
  yields_spells (yields_leaf fun _ ht hcls _ => spelled_ofToken (by decide) fun c hc => by
    simp [isSpelling, (ht.word hcls).2 c hc])

theorem spells_annotationUse : Yields rules (Spells n) (sym .annotationUse) := by
  refine yields_spells (yields_symbol (yields_begun ?_))
  intro e he ps _ hu
  have hannotation := hu.self.annotation
  rw [Piece.kind_join] at hannotation
  simp only [List.mem_cons, List.not_mem_nil, or_false] at he
  rcases he with rfl | rfl <;> cases hannotation

theorem spells_annotations : Yields rules (Spells n) annotations :=
  yields_many spells_annotationUse

theorem spells_node (hk : kind ≠ .typeArguments) (h : Yields rules (Spells n) r) :
    Yields rules (Spells n) (node kind r) :=
  yields_spells (yields_node fun hts hm hn => spelled_join hk (h hts hm) hn)

theorem spells_chain {tails : List (Kind × Option Role × R)} (h : Yields rules (Spells n) r)
    (htails : ∀ e ∈ tails, e.1 ≠ .typeArguments ∧ e.2.1 = none ∧ Yields rules (Spells n) e.2.2) :
    Yields rules (Spells n) (chain r tails) := by
  refine yields_chain h fun e he ts ts' a b hts ha hb => ?_
  obtain ⟨hk, hrole, hr⟩ := htails e he
  rw [hrole]
  have hall : ∀ p ∈ a ++ b, Spells n p := List.forall_mem_append.mpr ⟨ha, hr hts hb⟩
  exact ⟨commented_join fun p hp => (hall p hp).commented,
    spaced_join fun p hp => (hall p hp).spaced, spelled_join hk hall⟩

theorem spells_dimensions : Yields rules (Spells n) (sym .dimensions) := by
  have hopen : Yields rules (Spells n) (word "[") := spells_word (by decide)
  have hclose : Yields rules (Spells n) (word "]") := spells_word (by decide)
  have hdimension : Yields rules (Spells n) (seq [annotations, word "[", word "]"]) :=
    yields_seq (by simp [spells_annotations, hopen, hclose])
  exact yields_symbol (spells_node (by decide) (yields_seq (by simp [hdimension, yields_many])))

theorem drops_word {text : String} (h : text.toList.all fun c => c ≠ '<' ∧ c ≠ '>') :
    Yields rules (Drops n) (word text) :=
  yields_drops (yields_word fun t _ ht _ _ => by
    change Vanishes t.text.toList
    rw [ht]
    exact vanishes_of_ne (by simpa using h))

theorem drops_words {texts : List String}
    (h : ∀ text ∈ texts, text.toList.all fun c => c ≠ '<' ∧ c ≠ '>') :
    Yields rules (Drops n) (words texts) := by
  refine yields_choice fun r hr => ?_
  obtain ⟨text, htext, rfl⟩ := List.mem_map.mp hr
  exact drops_word (h text htext)

section Arguments
variable (htype : Yields rules (Spells n) (sym .type))
include htype

theorem drops_wildcard : Yields rules (Drops n) (node .wildcard
    (seq [annotations, word "?", opt (seq [words ["extends", "super"], sym .type])])) := by
  have hmark : Yields rules (Drops n) (word "?") := drops_word (by decide)
  have hbound : Yields rules (Drops n) (seq [words ["extends", "super"], sym .type]) := by
    have hwords : Yields rules (Drops n) (words ["extends", "super"]) := drops_words (by decide)
    exact yields_seq (List.forall_mem_cons.mpr ⟨hwords,
      List.forall_mem_singleton.mpr (drops_of_spells htype)⟩)
  have hall : Yields rules (Drops n)
      (seq [annotations, word "?", opt (seq [words ["extends", "super"], sym .type])]) := by
    refine yields_seq ?_
    simp only [List.forall_mem_cons]
    exact ⟨drops_of_spells spells_annotations, hmark, yields_opt hbound, List.forall_mem_nil _⟩
  exact yields_drops (yields_node fun hts hm hn hu => vanishes_join (hall hts hm) hn hu)

theorem spells_typeArguments : Yields rules (Spells (n + 1)) (sym .typeArguments) := by
  have hitem := yields_choice (List.forall_mem_cons.mpr
    ⟨drops_wildcard htype, List.forall_mem_singleton.mpr (drops_of_spells htype)⟩)
  have hcomma : Yields rules (Drops n) (word ",") := drops_word (by decide)
  refine yields_spells (yields_symbol (yields_node fun {ts ts' ps} hts hm hn => ?_))
  obtain ⟨a, b, ts₁, ha, hb, rfl⟩ := Matches.concat [_, _] hm
  cases ha with
  | seq hopen hitems =>
    cases hopen with
    | word _ hopen =>
      have hclean := (List.forall_mem_cons.mp hts).2
      cases hb with
      | word _ hclose =>
        refine spelled_arguments hopen hclose ?_ ?_ hn
        · exact hitems.clean hclean _ List.mem_cons_self
        · exact yields_seq (List.forall_mem_singleton.mpr (yields_sepBy hitem hcomma)) hclean hitems

theorem spells_simpleType : Yields rules (Spells (n + 1)) (sym .simpleType) := by
  have hpoint : Yields rules (Spells (n + 1)) (word ".") := spells_word (by decide)
  have hvoid : Yields rules (Spells (n + 1)) (namedWord .voidType "void") :=
    spells_namedWord (by decide) (by decide)
  have hprimitive : Yields rules (Spells (n + 1))
      (choice (primitiveNames.map (namedWord .primitiveType))) := by
    refine yields_choice fun r hr => ?_
    obtain ⟨name, hname, rfl⟩ := List.mem_map.mp hr
    have hspelling : ∀ name ∈ primitiveNames, name.toList.all isSpelling := by decide
    exact spells_namedWord (by decide) (hspelling name hname)
  have hscoped : Yields rules (Spells (n + 1)) (seq [word ".", annotations, typeName]) :=
    yields_seq (by simp [hpoint, spells_annotations, spells_typeName])
  refine yields_symbol (yields_choice ?_)
  simp only [List.forall_mem_cons]
  refine ⟨hvoid, hprimitive, spells_chain spells_typeName ?_, List.forall_mem_nil _⟩
  simp only [List.forall_mem_cons]
  exact ⟨⟨by decide, trivial, spells_typeArguments htype⟩, ⟨by decide, trivial, hscoped⟩,
    List.forall_mem_nil _⟩

theorem spells_unannotatedType : Yields rules (Spells (n + 1)) (sym .unannotatedType) := by
  refine yields_symbol (spells_chain (spells_simpleType htype) ?_)
  exact List.forall_mem_singleton.mpr ⟨by decide, rfl, spells_dimensions⟩

end Arguments

-- The rules of types call each other without end, through type arguments: the induction is on a
-- bound for the size of the tree, which is smaller inside of its type arguments.
theorem spells_type : ∀ n, Yields rules (Spells n) (sym .type)
  | 0 => yields_spells fun _ _ _ _ _ p _ hn => by
    cases hp : p.tree
    simp [hp] at hn
  | n + 1 => by
    have hunannotated := spells_unannotatedType (spells_type n)
    have hannotated : Yields rules (Spells (n + 1))
        (seq [sym .annotationUse, annotations, sym .unannotatedType]) :=
      yields_seq (by simp [spells_annotationUse, spells_annotations, hunannotated])
    refine yields_symbol (yields_choice ?_)
    simp only [List.forall_mem_cons]
    exact ⟨spells_node (by decide) hannotated, hunannotated, List.forall_mem_nil _⟩

end Rules

/-! ## Ends of types -/

/-- Pieces of which the last ends so. -/
def EndsClosed (ps : List Piece) : Prop := ∃ init p, ps = init ++ [p] ∧ Closed p.tree.text

theorem EndsClosed.join {ps : List Piece} (h : EndsClosed ps) (kind : Kind) :
    Closed (Piece.join kind ps).tree.text := by
  obtain ⟨init, p, rfl, hp⟩ := h
  obtain ⟨before, htext⟩ := Piece.text_join_concat kind init p
  rw [htext]
  exact closed_append hp before

theorem EndsClosed.append_left {ps : List Piece} (h : EndsClosed ps) (before : List Piece) :
    EndsClosed (before ++ ps) := by
  obtain ⟨init, p, rfl, hp⟩ := h
  exact ⟨before ++ init, p, (List.append_assoc ..).symm, hp⟩

def Closes (r : R) : Prop :=
  ∀ ⦃ts ts' : List Token⦄ ⦃ps : List Piece⦄, (∀ t ∈ ts, t.Clean) → Matches rules r ts ps ts' →
    EndsClosed ps

section Closes
variable {r : R}

theorem closes_word {text : String} (h : Closed text) : Closes (word text) := by
  intro ts ts' ps hts hm
  cases hm with
  | word _ ht =>
    subst ht
    exact ⟨[], _, rfl, h⟩

theorem closes_typeName : Closes typeName := by
  intro ts ts' ps hts hm
  cases hm with
  | leaf _ hcls => exact ⟨[], _, rfl, closed_of_isWord ((hts _ List.mem_cons_self).word hcls)⟩

theorem closes_concat (rs : List R) (h : Closes r) : Closes (seq (rs ++ [r])) := by
  intro ts ts' ps hts hm
  obtain ⟨a, b, ts₁, ha, hb, rfl⟩ := Matches.concat _ hm
  exact (h (ha.clean hts) hb).append_left a

theorem closes_concat_opt {rs : List R} (hrs : Closes (seq rs)) (h : Closes r) :
    Closes (seq (rs ++ [opt r])) := by
  intro ts ts' ps hts hm
  obtain ⟨a, b, ts₁, ha, hb, rfl⟩ := Matches.concat _ hm
  cases hb with
  | choice hmem hb =>
    simp only [List.mem_cons, List.not_mem_nil, or_false] at hmem
    rcases hmem with rfl | rfl
    · exact (h (ha.clean hts) hb).append_left a
    · cases hb
      rw [List.append_nil]
      exact hrs hts ha

theorem closes_name : Closes nameRole := by
  intro ts ts' ps hts hm
  cases hm with
  | role hm =>
    cases hm with
    | leaf _ hcls =>
      refine ⟨[], _, rfl, ?_⟩
      rw [Piece.tree_withRole, Tree.text_withRole]
      exact closed_of_isWord ((hts _ List.mem_cons_self).word hcls)

theorem closes_node (kind : Kind) (h : Closes r) : Closes (node kind r) := by
  intro ts ts' ps hts hm
  cases hm with
  | node hm => exact ⟨[], _, rfl, (h hts hm).join kind⟩

theorem closes_many (h : Closes r) : ∀ {ts ts' ps}, (∀ t ∈ ts, Token.Clean t) →
    Matches rules (many r) ts ps ts' → ps = [] ∨ EndsClosed ps := by
  intro ts ts' ps hts hm
  generalize hr : many r = r' at hm
  induction hm with
  | stop => exact .inl rfl
  | many ha _ _ ih =>
    cases hr
    refine .inr ?_
    rcases ih (ha.clean hts) rfl with rfl | hrest
    · rw [List.append_nil]
      exact h hts ha
    · exact hrest.append_left _
  | _ => cases hr

theorem closes_several (h : Closes r) : Closes (seq [r, many r]) := by
  intro ts ts' ps hts hm
  obtain ⟨a, b, ts₁, ha, hb, rfl⟩ := Matches.concat [_] hm
  rcases closes_many h (ha.clean hts) hb with rfl | hrest
  · rw [List.append_nil]
    exact closes_concat [] h hts ha
  · exact hrest.append_left a

theorem closes_symbol {s : Nonterminal} (h : Closes (rules s)) : Closes (sym s) := by
  intro ts ts' ps hts hm
  cases hm with
  | symbol hm => exact h hts hm

theorem closes_typeArguments : Closes (sym .typeArguments) :=
  closes_symbol (closes_node _ (closes_concat [_, _] (closes_word ⟨[], '>', by decide⟩)))

theorem closes_dimensions : Closes (sym .dimensions) :=
  closes_symbol (closes_node _ (closes_several
    (closes_concat [_, _] (closes_word ⟨[], ']', by decide⟩))))

end Closes

/-! ## Whole types -/

structure Stands (p : Piece) : Prop where
  nonempty : p.tree.erased ≠ ""
  closed : Closed p.tree.text

theorem stands_ofToken {kind : Kind} (hk : kind ≠ .typeArguments) {t : Token}
    (h : IsWord t.text) : Stands (.ofToken kind t) where
  nonempty := by
    have herased : (Piece.ofToken kind t).tree.erased = t.text := by
      simp [Piece.ofToken, Tree.erased, hk]
    rw [herased]
    exact h.1
  closed := closed_of_isWord h

theorem stands_join {kind : Kind} (hk : kind ≠ .typeArguments) {p : Piece} {ps : List Piece}
    (hp : Stands p) (h : EndsClosed ps) : Stands (.join kind ([p] ++ ps)) where
  nonempty := by
    rw [List.singleton_append, Piece.join, Tree.erased, if_neg hk, if_neg (List.cons_ne_nil _ _),
      Tree.erasedOf]
    intro he
    exact hp.nonempty (String.append_eq_empty_iff.mp he).1
  closed := (h.append_left [p]).join kind

theorem stands_namedWord {kind : Kind} (hk : kind ≠ .typeArguments) {text : String}
    (h : IsWord text) : Yields rules Stands (namedWord kind text) :=
  yields_namedWord fun _ _ ht => stands_ofToken hk (ht ▸ h)

theorem single_simpleType : Single rules (sym .simpleType) := by
  refine single_symbol (single_choice ?_)
  simp only [List.forall_mem_cons]
  refine ⟨single_namedWord _ _, single_choice fun r hr => ?_, single_chain (single_leaf _ _) _,
    List.forall_mem_nil _⟩
  obtain ⟨name, -, rfl⟩ := List.mem_map.mp hr
  exact single_namedWord _ _

theorem stands_simpleType : Yields rules Stands (sym .simpleType) := by
  have hname : Yields rules Stands typeName :=
    yields_leaf fun _ ht hcls => stands_ofToken (by decide) (ht.word hcls)
  have hprimitive : Yields rules Stands
      (choice (primitiveNames.map (namedWord .primitiveType))) := by
    refine yields_choice fun r hr => ?_
    obtain ⟨name, hmem, rfl⟩ := List.mem_map.mp hr
    have hwords : ∀ name ∈ primitiveNames,
        name ≠ "" ∧ name.toList.all Token.isWordPart = true := by decide
    exact stands_namedWord (by decide) ((hwords name hmem).imp_right List.all_eq_true.mp)
  refine yields_symbol (yields_choice ?_)
  simp only [List.forall_mem_cons]
  refine ⟨stands_namedWord (by decide) ⟨by decide, List.all_eq_true.mp (by decide)⟩, hprimitive,
    yields_chain_of_single (single_leaf _ _) hname ?_, List.forall_mem_nil _⟩
  intro e he ts ts' p b hts hp hb
  simp only [List.mem_cons, List.not_mem_nil, or_false] at he
  rcases he with rfl | rfl
  · exact stands_join (by decide) hp (closes_typeArguments hts hb)
  · exact stands_join (by decide) hp (closes_concat [_, _] closes_typeName hts hb)

theorem stands_unannotatedType : Yields rules Stands (sym .unannotatedType) := by
  refine yields_symbol (yields_chain_of_single single_simpleType stands_simpleType ?_)
  intro e he ts ts' p b hts hp hb
  obtain rfl := List.mem_singleton.mp he
  exact stands_join (by decide) hp (closes_dimensions hts hb)

theorem yields_type : Yields rules (fun p => p.tree.TypeLike) (sym .unannotatedType) := by
  intro ts ts' ps hts hm p hp
  have hspells := spells_unannotatedType (spells_type (sizeOf p.tree)) hts hm p hp
  have hstands := stands_unannotatedType hts hm p hp
  exact ⟨hspells.spelled (Nat.le_succ _), hstands.nonempty, hstands.closed⟩

end Lineage.Java
