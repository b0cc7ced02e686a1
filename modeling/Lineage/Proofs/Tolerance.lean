import Lineage.Proofs.Resolve
/-! # Lines at the end of their range

Two lines of tolerance do not fit behind the last lines that a word can number. A program that checks
its sums stops there; in one whose sums wrap, the sum hides the node that it is meant to find. One end
of a range near the last number is enough, wherever the other end is. Main statement:
`resolvesInWords_resolve`.
-/
namespace Lineage.Refactoring

/-- Two lines more are past the last number of a word, and what is left of the sum is before another
line. -/
def Wraps (line other : Nat) : Prop := UInt32.size ≤ line + 2 ∧ line + 2 - UInt32.size < other

/-- A sum that wraps hides a node from the location although their lines overlap. -/
def Hidden (n : Node) (l : Location) : Prop :=
  n.kind ≠ .field ∧ ∃ first ∈ n.lineStart, ∃ last ∈ n.lineEnd,
    Wraps (max l.startLine.toNat l.endLine.toNat) first.toNat ∨ Wraps last.toNat l.startLine.toNat

instance (line other : Nat) : Decidable (Wraps line other) := inferInstanceAs (Decidable (_ ∧ _))

instance (n : Node) (l : Location) : Decidable (Hidden n l) :=
  decidable_of_iff (n.kind ≠ .field ∧ n.lineStart.any fun first => n.lineEnd.any fun last =>
    Wraps (max l.startLine.toNat l.endLine.toNat) first.toNat ∨ Wraps last.toNat l.startLine.toNat)
    (by simp [Hidden, Option.any_eq_true])

/-- How a location is resolved with sums that are checked, and with sums that wrap. -/
structure ResolvesInWords (g : Graph) (l : Location) (hint : Option NodeKind) : Prop where
  checked : ∀ n : Node, Pointable none n.kind → (linesMatch .checked n l = none ↔ Overruns n l) ∧
    (linesMatch .checked n l = some true ↔ ¬Overruns n l ∧ OnLines n l)
  wrapping : ∀ n : Node, Pointable none n.kind →
    linesMatch .wrapping n l = some (decide (OnLines n l ∧ ¬Hidden n l))
  stops_iff : resolve? g l hint = none ↔ l.IsPlace ∧ ∃ n ∈ g.nodes, n.filePath ≠ "" ∧
    Pointable hint n.kind ∧ SameFile n.filePath l.filePath ∧ Overruns n l
  answers : ∀ r ∈ resolve? g l hint, resolveBy .wrapping g l hint = some r ∧
    ResolvesAmong (g.nodes.filter fun n => n.filePath ≠ "" ∧ Fits hint l n) l r
  goesOn : ∃ r, resolveBy .wrapping g l hint = some r ∧ ResolvesAmong
    (g.nodes.filter fun n => n.filePath ≠ "" ∧ Fits hint l n ∧ ¬Hidden n l) l r

section Words
variable {first last : UInt32} {n : Node} {l : Location} {g : Graph} {hint : Option NodeKind}

theorem le_add_tolerance_wraps_iff {a b : UInt32} :
    a ≤ b + lineTolerance ↔ a.toNat ≤ b.toNat + 2 ∧ ¬Wraps b.toNat a.toNat := by
  have ha := a.toNat_lt
  have hb := b.toNat_lt
  rw [UInt32.le_iff_toNat_le, toNat_add_tolerance]
  unfold Wraps UInt32.size
  omega

theorem overlaps_wrapping (first last : UInt32) (l : Location) :
    overlaps .wrapping first last l = some (decide
      (first ≤ max l.endLine l.startLine + lineTolerance ∧ l.startLine ≤ last + lineTolerance)) := by
  by_cases h : first ≤ max l.endLine l.startLine + lineTolerance <;>
    simp [overlaps, Addition.wrapping, h]

theorem wrapping_ne_none : linesMatch .wrapping n l ≠ none := by
  simp [linesMatch_eq_none_iff, overlaps_wrapping]

/-- Sums that wrap change the comparison for the nodes that they hide. -/
theorem wrapping_eq_true_iff : linesMatch .wrapping n l = some true ↔
    Pointable none n.kind ∧ OnLines n l ∧ ¬Hidden n l := by
  rw [linesMatch_eq_true_iff]
  unfold OnLines Hidden Pointable
  rcases Option.eq_none_or_eq_some n.lineStart with hfirst | ⟨first, hfirst⟩
  · simp [hfirst]
  rcases Option.eq_none_or_eq_some n.lineEnd with hlast | ⟨last, hlast⟩
  · simp [hfirst, hlast]
  cases hk : n.kind <;>
    simp [hfirst, hlast, overlaps_wrapping, le_add_tolerance_wraps_iff, toNat_max,
      Nat.max_comm l.endLine.toNat]
  all_goals tauto

theorem overlaps_eq (h : ¬SumOverruns first last l) :
    overlaps .wrapping first last l = overlaps .checked first last l := by
  have hreach : ¬UInt32.size ≤ (max l.endLine l.startLine).toNat + 2 := by
    rw [toNat_max, Nat.max_comm]
    exact fun hreach => h (.inl hreach)
  classical
  rw [overlaps_wrapping, overlaps_checked, if_neg h, Option.some.injEq, Bool.eq_iff_iff,
    decide_eq_true_iff, le_add_tolerance_iff hreach, toNat_max, Nat.max_comm]
  simp only [Bool.and_eq_true, decide_eq_true_iff]
  exact and_congr_right fun hfirst =>
    le_add_tolerance_iff fun hlast => h (.inr ⟨hfirst, hlast⟩)

theorem linesMatch_eq (h : ¬Overruns n l) :
    linesMatch .wrapping n l = linesMatch .checked n l := by
  have hoverlaps : ∀ first ∈ n.lineStart, ∀ last ∈ n.lineEnd, first ≠ 0 →
      n.kind = .method ∨ n.kind = .type →
        overlaps .wrapping first last l = overlaps .checked first last l :=
    fun first hfirst last hlast hzero hk =>
      overlaps_eq fun hsum => h ⟨hk, first, hfirst, last, hlast, hzero, hsum⟩
  unfold linesMatch
  split
  · rename_i first last hfirst hlast
    split
    · rfl
    · rename_i hzero
      split
      · rfl
      · rename_i hk
        exact hoverlaps first hfirst last hlast hzero (.inl hk)
      · rename_i hk
        exact hoverlaps first hfirst last hlast hzero (.inr hk)
      all_goals rfl
  · rfl

theorem resolveBy_congr {plus plus' : Addition}
    (h : ∀ n ∈ compared g l hint, linesMatch plus n l = linesMatch plus' n l) :
    resolveBy plus g l hint = resolveBy plus' g l hint := by
  have hnone : (∃ n ∈ compared g l hint, linesMatch plus n l = none) ↔
      ∃ n ∈ compared g l hint, linesMatch plus' n l = none :=
    exists_congr fun n => and_congr_right fun hn => by rw [h n hn]
  have htrue : (compared g l hint).filter (linesMatch plus · l = some true) =
      (compared g l hint).filter (linesMatch plus' · l = some true) :=
    List.filter_congr fun n hn => by rw [h n hn]
  simp only [resolveBy_eq, hnone, htrue]

theorem resolve?_eq_none_iff : resolve? g l hint = none ↔
    l.IsPlace ∧ ∃ n ∈ compared g l hint, Overruns n l := by
  rw [resolve?, resolveBy_eq, ← not_not (a := l.IsPlace), Location.not_isPlace_iff]
  simp only [← checked_eq_none_iff]
  split
  · simp [*]
  · split <;> simp_all

theorem exists_overruns_iff : (∃ n ∈ compared g l hint, Overruns n l) ↔ ∃ n ∈ g.nodes,
    n.filePath ≠ "" ∧ Pointable hint n.kind ∧ SameFile n.filePath l.filePath ∧ Overruns n l := by
  have hpoint : ∀ {n : Node}, Overruns n l → Pointable none n.kind :=
    fun h => ⟨by have := h.1; tauto, nofun⟩
  refine exists_congr fun n => ?_
  rw [mem_compared_iff]
  constructor
  · rintro ⟨⟨hn, hkind, hpath, hfile⟩, hover⟩
    exact ⟨hn, hpath, (kindMatches_iff (hpoint hover)).mp hkind, hfile, hover⟩
  · rintro ⟨hn, hpath, hkind, hfile, hover⟩
    exact ⟨⟨hn, (kindMatches_iff (hpoint hover)).mpr hkind, hpath, hfile⟩, hover⟩

/-- A program that checks its sums and does not stop answers as one whose sums wrap. -/
theorem resolvesAmong_of_resolve? {r : Resolution} (hg : g.Built)
    (hr : resolve? g l hint = some r) : resolveBy .wrapping g l hint = some r ∧
      ResolvesAmong (g.nodes.filter fun n => n.filePath ≠ "" ∧ Fits hint l n) l r := by
  by_cases hplace : l.IsPlace
  · have hover : ∀ n ∈ compared g l hint, ¬Overruns n l := fun n hn hover => by
      rw [resolve?_eq_none_iff.mpr ⟨hplace, n, hn, hover⟩] at hr
      cases hr
    obtain ⟨r', hr', hamong⟩ := exists_of_not_overruns hg hover
    obtain rfl := Option.some.inj (hr.symm.trans hr')
    exact ⟨(resolveBy_congr fun n hn => linesMatch_eq (hover n hn)).trans hr, hamong⟩
  · have hif := Location.not_isPlace_iff.mp hplace
    have hnone := resolvesAmong_pick (l := l) (nodup_ids_filter hg fun n =>
      n.filePath ≠ "" ∧ Fits hint l n)
    rw [if_pos hif] at hnone
    rw [resolve?, resolveBy_eq, if_pos hif] at hr
    obtain rfl := Option.some.inj hr
    exact ⟨by rw [resolveBy_eq, if_pos hif], hnone⟩

/-- The program stops just where a sum that it needs is no word, and else resolves as unbounded
numbers do. Where sums wrap, the nodes told by `Hidden` are missed. -/
theorem resolvesInWords_resolve (hg : g.Built) (l : Location) (hint : Option NodeKind) :
    ResolvesInWords g l hint := by
  refine ⟨fun n hk => ⟨checked_eq_none_iff, ?_⟩, fun n hk => ?_, ?_, ?_, ?_⟩
  · rw [checked_eq_true_iff, and_iff_right hk]
  · obtain ⟨b, hb⟩ := Option.ne_none_iff_exists'.mp (wrapping_ne_none (n := n) (l := l))
    have htrue : b = true ↔ Pointable none n.kind ∧ OnLines n l ∧ ¬Hidden n l := by
      rw [← wrapping_eq_true_iff, hb, Option.some.injEq]
    rw [hb, Option.some.injEq, Bool.eq_iff_iff, htrue, decide_eq_true_iff, and_iff_right hk]
  · rw [resolve?_eq_none_iff, exists_overruns_iff]
  · exact fun r hr => resolvesAmong_of_resolve? hg hr
  · refine exists_resolvesAmong hg (fun n _ => wrapping_ne_none) ?_
    refine filter_compared (fun n hn => ?_) fun n hn hp => mem_compared_of_fits hn hp.1 hp.2.1
    rw [decide_eq_true_iff, wrapping_eq_true_iff, ← and_assoc, fits_iff_of_mem_compared hn,
      and_assoc]

end Words

section Sample

def methodsAt (ms : List (String × UInt32 × UInt32)) : Graph :=
  .ofLists (ms.map fun m =>
    { kind := .method, name := m.1, qualifiedName := "A#" ++ m.1 ++ "()", filePath := "A.java"
      lineStart := some m.2.1, lineEnd := some m.2.2 }) []

def bottom : Graph := methodsAt [("foo", 5, 9), ("bar", 0xFFFFFFFA, 0xFFFFFFFF)]

/-- Inside of the last method; the end of the location leaves room for the tolerance. -/
def inBottom : Location := { filePath := "A.java", startLine := 0xFFFFFFFC, endLine := 0xFFFFFFFD }

theorem resolvesInWords_bottom : bottom.Built ∧ resolve? bottom inBottom none = none ∧
    resolveBy .wrapping bottom inBottom none = some .unmatched ∧
    ResolvesInWords bottom inBottom none := by
  have hg : bottom.Built := Graph.built_ofLists _ _
  exact ⟨hg, by decide +kernel, by decide +kernel, resolvesInWords_resolve hg inBottom none⟩

def lone : Graph := methodsAt [("foo", 5, 9)]

def endless : Location := { filePath := "A.java", startLine := 6, endLine := 0xFFFFFFFF }

/-- At a location without an end the program stops, or misses the method that it overlaps. -/
theorem not_resolvesAmong_endless : lone.Built ∧ (∀ n ∈ lone.nodes, OnLines n endless ∧
      linesMatch .checked n endless = none ∧ linesMatch .wrapping n endless = some false) ∧
    resolve? lone endless none = none ∧
    resolveBy .wrapping lone endless none = some .unmatched ∧
    ¬ResolvesAmong (lone.nodes.filter fun n => n.filePath ≠ "" ∧ Fits none endless n) endless
      .unmatched := by
  have hpreferred : preferred endless
      (lone.nodes.filter fun n => n.filePath ≠ "" ∧ Fits none endless n) ≠ [] := by
    decide +kernel
  refine ⟨Graph.built_ofLists _ _, by decide +kernel, by decide +kernel, by decide +kernel,
    fun h => ?_⟩
  rcases h.unmatched_iff.mp rfl with hplace | hnone
  · exact hplace ⟨by decide, by decide⟩
  · exact hpreferred hnone

end Sample

end Lineage.Refactoring
