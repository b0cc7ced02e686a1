import Lineage.Refactoring.Resolve
import Lineage.Proofs.Graph
import Mathlib.Data.List.MinMax
/-! # What a location resolves to

Among the nodes that fit a location, those named like its element go first, and the one nearest to
its lines is found; if several are nearest, all of them are told. A path fits another one if the
parts between its slashes are the last parts of the other, or the other way round. As long as two more
lines fit into a word, the program does not stop. Main statements: `hasEnding_iff`,
`checked_eq_true_iff`, `resolvesAmong_resolve`.
-/
namespace Lineage

namespace Path

/-- What stands between the slashes of a path. -/
def parts (path : String) : List (List Char) := path.toList.splitOn '/'

theorem intercalate_append {α : Type} {sep : List α} {xs ys : List (List α)} (hx : xs ≠ [])
    (hy : ys ≠ []) :
    sep.intercalate (xs ++ ys) = sep.intercalate xs ++ sep ++ sep.intercalate ys := by
  induction xs with
  | nil => exact absurd rfl hx
  | cons x xs ih =>
    rw [List.cons_append,
      List.intercalate_cons_of_ne_nil (List.append_ne_nil_of_right_ne_nil xs hy)]
    cases xs with
    | nil => simp
    | cons x' xs => rw [ih (List.cons_ne_nil _ _), List.intercalate_cons_cons]; simp

/-- The pieces of a text are the last pieces of another one if the texts are equal, or the text
follows a separator at the end of the other. -/
theorem splitOn_suffix_iff {c : Char} {xs ys : List Char} :
    xs.splitOn c <:+ ys.splitOn c ↔ ys = xs ∨ c :: xs <:+ ys := by
  constructor
  · rintro ⟨start, h⟩
    have hys := congrArg ([c].intercalate ·) h
    simp only [List.intercalate_splitOn] at hys
    by_cases hstart : start = []
    · subst hstart
      rw [List.nil_append, List.intercalate_splitOn] at hys
      exact .inl hys.symm
    · rw [intercalate_append hstart (List.splitOn_ne_nil c xs), List.intercalate_splitOn,
        List.append_assoc] at hys
      exact .inr ⟨_, hys⟩
  · rintro (rfl | ⟨start, rfl⟩)
    · exact List.suffix_refl _
    · rw [List.splitOn_append_cons_self]
      exact List.suffix_append _ _

theorem hasEnding_iff {path ending : String} :
    hasEnding path ending = true ↔ parts ending <:+ parts path := by
  have hend : ("/" ++ ending).toList = '/' :: ending.toList := by simp
  rw [parts, parts, splitOn_suffix_iff, hasEnding, Bool.or_eq_true, beq_iff_eq, Text.endsWith,
    List.isSuffixOf_iff_suffix, hend, String.toList_inj]

end Path

namespace Refactoring

/-! ## Nodes that fit -/

/-- Locations point at nodes of these kinds, and if one is asked for at no others. -/
def Pointable (hint : Option NodeKind) (k : NodeKind) : Prop :=
  (k = .method ∨ k = .type ∨ k = .field) ∧ ∀ h ∈ hint, k = h

/-- One path ends with the parts of the other. -/
def SameFile (a b : String) : Prop :=
  Path.parts (slashed b) <:+ Path.parts (slashed a) ∨
    Path.parts (slashed a) <:+ Path.parts (slashed b)

/-- A field begins at most two lines from where the location does; all else overlaps the location,
up to two lines. -/
def OnLines (n : Node) (l : Location) : Prop :=
  ∃ first ∈ n.lineStart, ∃ last ∈ n.lineEnd, first ≠ 0 ∧
    if n.kind = .field then ((first.toNat : Int) - l.startLine.toNat).natAbs ≤ 2
    else first.toNat ≤ max l.startLine.toNat l.endLine.toNat + 2 ∧
      l.startLine.toNat ≤ last.toNat + 2

/-- The node has a kind, a file and lines that the location may mean. -/
def Fits (hint : Option NodeKind) (l : Location) (n : Node) : Prop :=
  Pointable hint n.kind ∧ SameFile n.filePath l.filePath ∧ OnLines n l

instance (hint : Option NodeKind) (k : NodeKind) : Decidable (Pointable hint k) :=
  inferInstanceAs (Decidable (_ ∧ _))

instance (a b : String) : Decidable (SameFile a b) := inferInstanceAs (Decidable (_ ∨ _))

-- Both lines are looked up: a search among all numbers of a word would never end.
instance (n : Node) (l : Location) : Decidable (OnLines n l) :=
  decidable_of_iff (n.lineStart.any fun first => n.lineEnd.any fun last => first ≠ 0 ∧
    if n.kind = .field then ((first.toNat : Int) - l.startLine.toNat).natAbs ≤ 2
    else first.toNat ≤ max l.startLine.toNat l.endLine.toNat + 2 ∧
      l.startLine.toNat ≤ last.toNat + 2) (by simp [OnLines, Option.any_eq_true])

instance (hint : Option NodeKind) (l : Location) (n : Node) : Decidable (Fits hint l n) :=
  inferInstanceAs (Decidable (_ ∧ _ ∧ _))

/-- One of the two sums by which lines are compared is no word. The second is not needed if the node
begins behind the location. -/
def SumOverruns (first last : UInt32) (l : Location) : Prop :=
  UInt32.size ≤ max l.startLine.toNat l.endLine.toNat + 2 ∨
    first.toNat ≤ max l.startLine.toNat l.endLine.toNat + 2 ∧ UInt32.size ≤ last.toNat + 2

def Overruns (n : Node) (l : Location) : Prop :=
  (n.kind = .method ∨ n.kind = .type) ∧
    ∃ first ∈ n.lineStart, ∃ last ∈ n.lineEnd, first ≠ 0 ∧ SumOverruns first last l

/-- No line is so far down that two more do not fit into a word. -/
structure LinesInRange (g : Graph) (l : Location) : Prop where
  startLine : l.startLine.toNat ≤ UInt32.size - 3
  endLine : l.endLine.toNat ≤ UInt32.size - 3
  lineStart : ∀ n ∈ g.nodes, ∀ line ∈ n.lineStart, line.toNat ≤ UInt32.size - 3
  lineEnd : ∀ n ∈ g.nodes, ∀ line ∈ n.lineEnd, line.toNat ≤ UInt32.size - 3

theorem linesInRange_iff {g : Graph} {l : Location} : LinesInRange g l ↔
    l.startLine.toNat ≤ UInt32.size - 3 ∧ l.endLine.toNat ≤ UInt32.size - 3 ∧
      (g.nodes.all fun n => (n.lineStart.all fun line => line.toNat ≤ UInt32.size - 3) &&
        n.lineEnd.all fun line => line.toNat ≤ UInt32.size - 3) = true := by
  simp only [List.all_eq_true, Bool.and_eq_true, Option.all_eq_true, decide_eq_true_eq]
  constructor
  · intro h
    exact ⟨h.startLine, h.endLine, fun n hn => ⟨h.lineStart n hn, h.lineEnd n hn⟩⟩
  · rintro ⟨hs, he, hn⟩
    exact ⟨hs, he, fun n hmem => (hn n hmem).1, fun n hmem => (hn n hmem).2⟩

instance (g : Graph) (l : Location) : Decidable (LinesInRange g l) :=
  decidable_of_iff' _ linesInRange_iff

section Lines

theorem toNat_max (a b : UInt32) : (max a b).toNat = max a.toNat b.toNat := by
  change (if a ≤ b then b else a).toNat = _
  split
  · rename_i h
    exact (Nat.max_eq_right (UInt32.le_iff_toNat_le.mp h)).symm
  · rename_i h
    exact (Nat.max_eq_left (Nat.le_of_not_le fun hab => h (UInt32.le_iff_toNat_le.mpr hab))).symm

theorem toNat_add_tolerance (a : UInt32) : (a + lineTolerance).toNat = (a.toNat + 2) % UInt32.size :=
  UInt32.toNat_add _ _

theorem toNat_lineDistance (a b : UInt32) :
    (lineDistance a b).toNat = ((a.toNat : Int) - b.toNat).natAbs := by
  unfold lineDistance
  split
  · rename_i h
    rw [UInt32.toNat_sub_of_le _ _ h]
    have hle := UInt32.le_iff_toNat_le.mp h
    omega
  · rename_i h
    have hle : b.toNat ≤ a.toNat := Nat.le_of_not_le fun hab => h (UInt32.le_iff_toNat_le.mpr hab)
    rw [UInt32.toNat_sub_of_le _ _ (UInt32.le_iff_toNat_le.mpr hle)]
    omega

theorem lineDistance_le_tolerance_iff {a b : UInt32} :
    lineDistance a b ≤ lineTolerance ↔ ((a.toNat : Int) - b.toNat).natAbs ≤ 2 := by
  rw [UInt32.le_iff_toNat_le, toNat_lineDistance]
  rfl

theorem checked_tolerance (a : UInt32) : Addition.checked a lineTolerance =
    if UInt32.size ≤ a.toNat + 2 then none else some (a + lineTolerance) := by
  have htwo : lineTolerance.toNat = 2 := rfl
  rw [Addition.checked, htwo]
  by_cases h : a.toNat + 2 < UInt32.size
  · rw [if_pos h, if_neg (Nat.not_le.mpr h)]
  · rw [if_neg h, if_pos (Nat.not_lt.mp h)]

theorem le_add_tolerance_iff {a b : UInt32} (h : ¬UInt32.size ≤ b.toNat + 2) :
    a ≤ b + lineTolerance ↔ a.toNat ≤ b.toNat + 2 := by
  rw [UInt32.le_iff_toNat_le, toNat_add_tolerance, Nat.mod_eq_of_lt (Nat.not_le.mp h)]

/-- As long as the sums are words, lines are compared in unbounded numbers. -/
theorem overlaps_checked (first last : UInt32) (l : Location)
    [Decidable (SumOverruns first last l)] :
    overlaps .checked first last l = if SumOverruns first last l then none else
      some (first.toNat ≤ max l.startLine.toNat l.endLine.toNat + 2 &&
        l.startLine.toNat ≤ last.toNat + 2) := by
  have hmax : (max l.endLine l.startLine).toNat = max l.startLine.toNat l.endLine.toNat := by
    rw [toNat_max, Nat.max_comm]
  simp only [overlaps, checked_tolerance, hmax]
  by_cases hreach : UInt32.size ≤ max l.startLine.toNat l.endLine.toNat + 2
  · simp [SumOverruns, hreach]
  have hbegins : first ≤ max l.endLine l.startLine + lineTolerance ↔
      first.toNat ≤ max l.startLine.toNat l.endLine.toNat + 2 := by
    rw [le_add_tolerance_iff (by rwa [hmax]), hmax]
  by_cases hfirst : first.toNat ≤ max l.startLine.toNat l.endLine.toNat + 2
  · by_cases hlast : UInt32.size ≤ last.toNat + 2
    · simp [SumOverruns, hreach, hbegins, hfirst, hlast]
    · simp [SumOverruns, hreach, hbegins, hfirst, hlast, le_add_tolerance_iff]
  · simp [SumOverruns, hreach, hbegins, hfirst]

variable {g : Graph} {l : Location} {n : Node} {hint : Option NodeKind}

theorem linesMatch_eq_none_iff {plus : Addition} : linesMatch plus n l = none ↔
    (n.kind = .method ∨ n.kind = .type) ∧ ∃ first ∈ n.lineStart, ∃ last ∈ n.lineEnd,
      first ≠ 0 ∧ overlaps plus first last l = none := by
  unfold linesMatch
  cases n.lineStart with
  | none => simp
  | some first =>
  cases n.lineEnd with
  | none => simp
  | some last =>
    by_cases hzero : first = 0
    · simp [hzero]
    · cases n.kind <;> simp [hzero]

theorem linesMatch_eq_true_iff {plus : Addition} : linesMatch plus n l = some true ↔
    ∃ first ∈ n.lineStart, ∃ last ∈ n.lineEnd, first ≠ 0 ∧
      (n.kind = .field ∧ ((first.toNat : Int) - l.startLine.toNat).natAbs ≤ 2 ∨
        (n.kind = .method ∨ n.kind = .type) ∧ overlaps plus first last l = some true) := by
  unfold linesMatch
  cases n.lineStart with
  | none => simp
  | some first =>
  cases n.lineEnd with
  | none => simp
  | some last =>
    by_cases hzero : first = 0
    · simp [hzero]
    · cases n.kind <;> simp [hzero, lineDistance_le_tolerance_iff]

theorem checked_eq_none_iff : linesMatch .checked n l = none ↔ Overruns n l := by
  classical
  simp only [linesMatch_eq_none_iff, overlaps_checked, ite_eq_left_iff, reduceCtorEq, imp_false,
    not_not]
  rfl

/-- The lines of a node are compared in unbounded numbers, unless the program stops. -/
theorem checked_eq_true_iff : linesMatch .checked n l = some true ↔
    ¬Overruns n l ∧ Pointable none n.kind ∧ OnLines n l := by
  classical
  rw [linesMatch_eq_true_iff]
  unfold OnLines Overruns Pointable
  rcases Option.eq_none_or_eq_some n.lineStart with hfirst | ⟨first, hfirst⟩
  · simp [hfirst]
  rcases Option.eq_none_or_eq_some n.lineEnd with hlast | ⟨last, hlast⟩
  · simp [hfirst, hlast]
  by_cases hsum : SumOverruns first last l <;> cases hk : n.kind <;>
    simp [hfirst, hlast, hsum, overlaps_checked]
  all_goals tauto

theorem LinesInRange.not_overruns (h : LinesInRange g l) (hn : n ∈ g.nodes) : ¬Overruns n l := by
  rintro ⟨-, first, -, last, hlast, -, hsum⟩
  have hs := h.startLine
  have he := h.endLine
  have hl := h.lineEnd n hn last hlast
  unfold SumOverruns UInt32.size at hsum
  unfold UInt32.size at hs he hl
  omega

theorem slashed_eq_empty_iff {path : String} : slashed path = "" ↔ path = "" := by
  rw [← String.toList_eq_nil_iff, ← String.toList_eq_nil_iff, slashed, Text.replaceChar,
    String.toList_map, List.map_eq_nil_iff]

theorem pathsMatch_iff (n : Node) (l : Location) :
    pathsMatch (slashed n.filePath) (slashed l.filePath) = true ↔
      n.filePath ≠ "" ∧ SameFile n.filePath l.filePath := by
  simp [pathsMatch, SameFile, Path.hasEnding_iff, slashed_eq_empty_iff]

theorem mem_compared_iff : n ∈ compared g l hint ↔ n ∈ g.nodes ∧ kindMatches hint n.kind = true ∧
    n.filePath ≠ "" ∧ SameFile n.filePath l.filePath := by
  rw [compared, List.mem_filter, Bool.and_eq_true, pathsMatch_iff]

theorem kindMatches_iff {k : NodeKind} (hk : Pointable none k) :
    kindMatches hint k = true ↔ Pointable hint k := by
  cases hint with
  | none => simp [kindMatches, Pointable, or_assoc]
  | some k' => simp [kindMatches, Pointable, hk.1]

theorem mem_compared_of_fits (hn : n ∈ g.nodes) (hpath : n.filePath ≠ "") (h : Fits hint l n) :
    n ∈ compared g l hint :=
  mem_compared_iff.mpr ⟨hn, (kindMatches_iff ⟨h.1.1, nofun⟩).mpr h.1, hpath, h.2.1⟩

theorem fits_iff_of_mem_compared (hn : n ∈ compared g l hint) :
    Pointable none n.kind ∧ OnLines n l ↔ n.filePath ≠ "" ∧ Fits hint l n := by
  obtain ⟨-, hkind, hpath, hfile⟩ := mem_compared_iff.mp hn
  constructor
  · rintro ⟨hpoint, hlines⟩
    exact ⟨hpath, (kindMatches_iff hpoint).mp hkind, hfile, hlines⟩
  · rintro ⟨-, hpoint, -, hlines⟩
    exact ⟨⟨hpoint.1, nofun⟩, hlines⟩

theorem filter_compared {q : Node → Bool} {p : Node → Prop} [DecidablePred p]
    (hq : ∀ n ∈ compared g l hint, (q n = true ↔ p n))
    (hp : ∀ n ∈ g.nodes, p n → n ∈ compared g l hint) :
    (compared g l hint).filter q = g.nodes.filter (p ·) := by
  rw [compared, List.filter_filter]
  refine List.filter_congr fun n hn => ?_
  rw [Bool.eq_iff_iff, Bool.and_eq_true, decide_eq_true_iff]
  constructor
  · rintro ⟨hqn, hcompared⟩
    exact (hq n (List.mem_filter.mpr ⟨hn, hcompared⟩)).mp hqn
  · intro h
    exact ⟨(hq n (hp n hn h)).mpr h, (List.mem_filter.mp (hp n hn h)).2⟩

end Lines

/-! ## The nearest node -/

def gap (l : Location) (n : Node) : Nat :=
  let first := n.lineStart.getD 0
  let last := n.lineEnd.getD first
  ((first.toNat : Int) - l.startLine.toNat).natAbs + ((last.toNat : Int) - l.endLine.toNat).natAbs

theorem distance_eq_gap (n : Node) (l : Location) : distance n l = gap l n := by
  simp only [distance, toNat_lineDistance, gap]

def preferred (l : Location) (ns : List Node) : List Node :=
  let named := ns.filter fun n => l.elementName? = some n.name
  if named = [] then ns else named

theorem pool_eq_preferred (l : Location) (ns : List Node) : pool l ns = preferred l ns := by
  unfold pool preferred
  cases l.elementName? with
  | none => simp
  | some name =>
    have hnamed : ∀ n : Node, decide (n.name = name) = decide (some name = some n.name) :=
      fun n => decide_eq_decide.mpr (by rw [Option.some.injEq, eq_comm])
    simp only [hnamed, List.isEmpty_iff]

/-- No node is nearer to the location. -/
def Nearest (l : Location) (ns : List Node) (n : Node) : Prop := ∀ m ∈ ns, gap l n ≤ gap l m

instance (l : Location) (ns : List Node) (n : Node) : Decidable (Nearest l ns n) :=
  inferInstanceAs (Decidable (∀ m ∈ ns, _))

/-- The location names a file and a line. -/
def Location.IsPlace (l : Location) : Prop := l.startLine ≠ 0 ∧ l.filePath ≠ ""

theorem Location.not_isPlace_iff {l : Location} :
    ¬l.IsPlace ↔ l.startLine = 0 ∨ l.filePath = "" := by
  rw [IsPlace, not_and_or, not_not, not_not]

/-- How a location is resolved among nodes. -/
structure ResolvesAmong (ns : List Node) (l : Location) (r : Resolution) : Prop where
  found_iff : ∀ id, r = .found id ↔ l.IsPlace ∧ ∃ n ∈ preferred l ns, n.id = id ∧
    Nearest l (preferred l ns) n ∧ ∀ m ∈ preferred l ns, Nearest l (preferred l ns) m → m.id = id
  ambiguous_iff : ∀ ids, r = .ambiguous ids ↔ l.IsPlace ∧ 2 ≤ ids.length ∧
    ids = ((preferred l ns).filter (Nearest l (preferred l ns) ·)).map (·.id)
  unmatched_iff : r = .unmatched ↔ ¬l.IsPlace ∨ preferred l ns = []

section Nearest
variable {l : Location} {ns : List Node}

theorem nearest_eq (l : Location) (ns : List Node) : nearest l ns = ns.filter (Nearest l ns ·) := by
  refine List.filter_congr fun n _ => ?_
  rw [Bool.eq_iff_iff, List.all_eq_true, decide_eq_true_iff]
  simp only [distance_eq_gap, decide_eq_true_iff]
  rfl

theorem filter_nearest_eq_nil_iff (l : Location) (ns : List Node) :
    ns.filter (Nearest l ns ·) = [] ↔ ns = [] := by
  constructor
  · intro h
    cases hmin : ns.argmin (gap l) with
    | none => exact List.argmin_eq_none.mp hmin
    | some n =>
      have hn : Nearest l ns n := fun m hm => List.le_of_mem_argmin hm hmin
      exact absurd (decide_eq_true hn) (List.filter_eq_nil_iff.mp h n (List.argmin_mem hmin))
  · rintro rfl
    rfl

theorem preferred_sublist (l : Location) (ns : List Node) : (preferred l ns).Sublist ns := by
  unfold preferred
  dsimp only
  split
  · exact List.Sublist.refl _
  · exact List.filter_sublist

end Nearest

section Resolve
variable {g : Graph} {l : Location} {ns best : List Node}

theorem eq_singleton_iff (hd : (best.map (·.id)).Nodup) {n : Node} :
    best = [n] ↔ n ∈ best ∧ ∀ m ∈ best, m.id = n.id := by
  constructor
  · rintro rfl
    simp
  · rintro ⟨hn, hall⟩
    match best, hd with
    | [], _ => cases hn
    | [m], _ => rw [List.mem_singleton.mp hn]
    | m :: m' :: ms, hd =>
      have hm := hall m List.mem_cons_self
      have hm' := hall m' (List.mem_cons_of_mem _ List.mem_cons_self)
      simp [hm, hm'] at hd

theorem exists_only_iff (hd : (ns.map (·.id)).Nodup) {id : NodeId} :
    (∃ n ∈ ns, n.id = id ∧ Nearest l ns n ∧ ∀ m ∈ ns, Nearest l ns m → m.id = id) ↔
      ∃ n, ns.filter (Nearest l ns ·) = [n] ∧ n.id = id := by
  have hbest : ((ns.filter (Nearest l ns ·)).map (·.id)).Nodup :=
    hd.sublist (List.filter_sublist.map _)
  constructor
  · rintro ⟨n, hn, rfl, hnear, honly⟩
    refine ⟨n, (eq_singleton_iff hbest).mpr ⟨by simpa using ⟨hn, hnear⟩, fun m hm => ?_⟩, rfl⟩
    obtain ⟨hm, hmnear⟩ := List.mem_filter.mp hm
    exact honly m hm (of_decide_eq_true hmnear)
  · rintro ⟨n, hn, rfl⟩
    obtain ⟨hmem, hall⟩ := (eq_singleton_iff hbest).mp hn
    obtain ⟨hmem, hnear⟩ := List.mem_filter.mp hmem
    refine ⟨n, hmem, rfl, of_decide_eq_true hnear, fun m hm hmnear => hall m ?_⟩
    exact List.mem_filter.mpr ⟨hm, decide_eq_true hmnear⟩

theorem resolvesAmong_pick {cs : List Node} (hids : (cs.map (·.id)).Nodup) : ResolvesAmong cs l
    (if l.startLine = 0 ∨ l.filePath = "" then .unmatched else pick l cs) := by
  have hd : ((preferred l cs).map (·.id)).Nodup := hids.sublist ((preferred_sublist l cs).map _)
  unfold pick
  rw [pool_eq_preferred, nearest_eq]
  by_cases hplace : l.IsPlace
  · rw [if_neg (not_or.mpr hplace)]
    refine ⟨fun id => ?_, fun ids => ?_, ?_⟩
    · rw [exists_only_iff hd]
      cases (preferred l cs).filter _ with
      | nil => simp
      | cons n ns => cases ns <;> simp [hplace]
    · match (preferred l cs).filter _ with
      | [] => exact ⟨nofun, fun ⟨_, hlength, hids⟩ => by simp [hids] at hlength⟩
      | [n] => exact ⟨nofun, fun ⟨_, hlength, hids⟩ => by simp [hids] at hlength⟩
      | n :: m :: ns =>
        refine ⟨?_, fun ⟨_, _, hids⟩ => congrArg Resolution.ambiguous hids.symm⟩
        rintro ⟨⟩
        exact ⟨hplace, by simp, rfl⟩
    · rw [← filter_nearest_eq_nil_iff l (preferred l cs)]
      cases (preferred l cs).filter _ with
      | nil => simp
      | cons n ns => cases ns <;> simp [hplace]
  · rw [if_pos (Location.not_isPlace_iff.mp hplace)]
    exact ⟨fun id => by simp [hplace], fun ids => by simp [hplace], by simp [hplace]⟩

theorem nodup_ids_filter (hg : g.Built) (p : Node → Bool) :
    ((g.nodes.filter p).map (·.id)).Nodup := hg.ids_nodup.sublist (List.filter_sublist.map _)

section Filter
variable {α : Type} (p : α → Option Bool)

theorem filterAuxM_eq (xs acc : List α) : List.filterAuxM p xs acc =
    if ∃ x ∈ xs, p x = none then none
    else some ((xs.filter (p · = some true)).reverse ++ acc) := by
  induction xs generalizing acc with
  | nil => simp [List.filterAuxM]
  | cons x xs ih =>
    cases hx : p x with
    | none => simp [List.filterAuxM, hx]
    | some b => cases b <;> simp [List.filterAuxM, hx, ih]

theorem filterM_eq (xs : List α) : xs.filterM p =
    if ∃ x ∈ xs, p x = none then none else some (xs.filter (p · = some true)) := by
  rw [List.filterM, filterAuxM_eq]
  split <;> simp

end Filter

theorem resolveBy_eq (plus : Addition) (g : Graph) (l : Location) (hint : Option NodeKind) :
    resolveBy plus g l hint =
      if l.startLine = 0 ∨ l.filePath = "" then some .unmatched
      else if ∃ n ∈ compared g l hint, linesMatch plus n l = none then none
      else some (pick l ((compared g l hint).filter (linesMatch plus · l = some true))) := by
  rw [resolveBy, filterM_eq]
  split
  · rfl
  · split <;> rfl

/-- Resolves as the filter says, if no comparison of lines stops the program. -/
theorem exists_resolvesAmong {plus : Addition} {hint : Option NodeKind} {cs : List Node}
    (hg : g.Built) (hlines : ∀ n ∈ compared g l hint, linesMatch plus n l ≠ none)
    (hcs : (compared g l hint).filter (linesMatch plus · l = some true) = cs) :
    ∃ r, resolveBy plus g l hint = some r ∧ ResolvesAmong cs l r := by
  have hids : (cs.map (·.id)).Nodup := by
    rw [← hcs, compared, List.filter_filter]
    exact nodup_ids_filter hg _
  refine ⟨_, ?_, resolvesAmong_pick hids⟩
  have hnone : ¬∃ n ∈ compared g l hint, linesMatch plus n l = none := by simpa using hlines
  rw [resolveBy_eq, if_neg hnone, hcs]
  split <;> rfl

/-- Where no sum is too large the candidates are those of unbounded numbers. -/
theorem exists_of_not_overruns {hint : Option NodeKind} (hg : g.Built)
    (h : ∀ n ∈ compared g l hint, ¬Overruns n l) : ∃ r, resolve? g l hint = some r ∧
      ResolvesAmong (g.nodes.filter fun n => n.filePath ≠ "" ∧ Fits hint l n) l r := by
  refine exists_resolvesAmong hg (fun n hn => checked_eq_none_iff.not.mpr (h n hn)) ?_
  refine filter_compared (fun n hn => ?_) fun n hn hp => mem_compared_of_fits hn hp.1 hp.2
  rw [decide_eq_true_iff, checked_eq_true_iff, and_iff_right (h n hn)]
  exact fits_iff_of_mem_compared hn

/-- The nearest node is found if it is the only one; if there are several, all of them are told. -/
theorem resolvesAmong_resolve (hg : g.Built) (h : LinesInRange g l) (hint : Option NodeKind) :
    ∃ r, resolve? g l hint = some r ∧
      ResolvesAmong (g.nodes.filter fun n => n.filePath ≠ "" ∧ Fits hint l n) l r :=
  exists_of_not_overruns hg fun _ hn => h.not_overruns (mem_compared_iff.mp hn).1

section Sample

def overloads : Graph :=
  .ofLists (["run", "run", "stop"].mapIdx fun i name =>
    { kind := .method, name, qualifiedName := "A#" ++ name, filePath := "src\\A.java"
      lineStart := some (10 + 2 * i.toUInt32), lineEnd := some (12 + 2 * i.toUInt32) }) []

def overload : Location :=
  { filePath := "A.java", startLine := 13, endLine := 16
    element := some "public run(n int) : void" }

theorem resolvesAmong_overload : overloads.Built ∧ LinesInRange overloads overload ∧
    resolve? overloads overload none = some (.found ⟨1⟩) ∧
    ∃ r, resolve? overloads overload none = some r ∧ ResolvesAmong
      (overloads.nodes.filter fun n => n.filePath ≠ "" ∧ Fits none overload n) overload r := by
  have hg : overloads.Built := Graph.built_ofLists _ _
  have h : LinesInRange overloads overload := by decide +kernel
  exact ⟨hg, h, by decide +kernel, resolvesAmong_resolve hg h none⟩

def homeless : Graph :=
  .ofLists [{ kind := .method, name := "foo", qualifiedName := "A#foo()", lineStart := some 3
              lineEnd := some 5 }] []

/-- The empty part after the slash is all that a path of no characters has. -/
def folder : Location := { filePath := "src/", startLine := 3, endLine := 5 }

/-- A node of no file is found nowhere, although its path has the last part of a path that ends in a
slash. -/
theorem not_resolvesAmong_homeless : homeless.Built ∧ LinesInRange homeless folder ∧
    (∀ n ∈ homeless.nodes, Fits none folder n) ∧
    ¬∃ r, resolve? homeless folder none = some r ∧
      ResolvesAmong (homeless.nodes.filter (Fits none folder ·)) folder r := by
  have hfits : homeless.nodes.filter (Fits none folder ·) = homeless.nodes := by decide +kernel
  have hpreferred : preferred folder homeless.nodes ≠ [] := by decide +kernel
  have hunmatched : resolve? homeless folder none = some .unmatched := by decide +kernel
  refine ⟨Graph.built_ofLists _ _, by decide +kernel, by decide +kernel, ?_⟩
  rintro ⟨r, hr, h⟩
  obtain rfl := Option.some.inj (hunmatched.symm.trans hr)
  rw [hfits] at h
  rcases h.unmatched_iff.mp rfl with hplace | hnone
  · exact hplace ⟨by decide, by decide⟩
  · exact hpreferred hnone

end Sample

end Resolve

end Refactoring

end Lineage
