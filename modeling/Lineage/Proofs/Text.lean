import Lineage.Text
import Mathlib.Data.List.Basic
import Mathlib.Data.List.DropRight
/-! # Pieces and endings of texts

A text is cut at separators, trimmed, and told by what it begins with, holds and ends with. Main
statements: `piecesChars_append`, `join_singleton_injective`, `contains_singleton_iff`,
`before?_eq_some_iff`, `splitOnce_append`, `trimmed_trimChars`, `trimChars_between`, `words_trim`.
-/
namespace Lineage.Text

section Pieces
variable {sep : Char → Bool}

theorem piecesChars_ne_nil (sep : Char → Bool) (cs : List Char) : piecesChars sep cs ≠ [] := by
  cases cs with
  | nil => exact List.cons_ne_nil _ _
  | cons c cs =>
    unfold piecesChars
    split
    · exact List.cons_ne_nil _ _
    · split <;> exact List.cons_ne_nil _ _

theorem piecesChars_append (sep : Char → Bool) (xs ys : List Char) {c : Char} (hc : sep c = true) :
    piecesChars sep (xs ++ c :: ys) = piecesChars sep xs ++ piecesChars sep ys := by
  induction xs with
  | nil => simp [piecesChars, hc]
  | cons x xs ih =>
    rw [List.cons_append, piecesChars, piecesChars]
    split
    · rw [ih, List.cons_append]
    · rw [ih]
      cases hxs : piecesChars sep xs with
      | nil => exact absurd hxs (piecesChars_ne_nil sep xs)
      | cons p ps => rfl

theorem piecesChars_of_forall {cs : List Char} (h : ∀ c ∈ cs, sep c = false) :
    piecesChars sep cs = [cs] := by
  induction cs with
  | nil => rfl
  | cons c cs ih =>
    obtain ⟨hc, hcs⟩ := List.forall_mem_cons.mp h
    rw [piecesChars, if_neg (by simp [hc]), ih hcs]

theorem piecesChars_of_not_mem {d : Char} {cs : List Char} (h : d ∉ cs) :
    piecesChars (· == d) cs = [cs] :=
  piecesChars_of_forall fun c hc => by simpa using fun he : c = d => h (he ▸ hc)

theorem pieces_of_not_mem {d : Char} {s : String} (h : d ∉ s.toList) : pieces (· == d) s = [s] := by
  rw [pieces, piecesChars_of_not_mem h, List.map_singleton, String.ofList_toList]

theorem exists_mem_piecesChars_iff {c : Char} {cs : List Char} :
    (∃ p ∈ piecesChars sep cs, c ∈ p) ↔ c ∈ cs ∧ sep c = false := by
  induction cs with
  | nil => simp [piecesChars]
  | cons x cs ih =>
    rw [piecesChars, List.mem_cons, or_and_right, ← ih]
    split
    · rename_i hx
      have hne : ¬(c = x ∧ sep c = false) := fun ⟨he, hc⟩ => by simp [he, hx] at hc
      simp [hne]
    · rename_i hx
      have heq : c = x ∧ sep c = false ↔ c = x :=
        and_iff_left_of_imp fun he => by simpa [he] using hx
      rw [heq]
      cases hcs : piecesChars sep cs with
      | nil => exact absurd hcs (piecesChars_ne_nil sep cs)
      | cons p ps => simp [or_assoc]

end Pieces

/-! ## Joined texts -/

section Join
variable {c : Char} {xs ys : List String}

/-- Texts without a character can be read back when it stands between them. -/
theorem pieces_join (hne : xs ≠ []) (h : ∀ x ∈ xs, c ∉ x.toList) :
    pieces (· == c) (join (String.singleton c) xs) = xs := by
  have hpiece : ∀ x : String, c ∉ x.toList → piecesChars (· == c) x.toList = [x.toList] :=
    fun x hx => piecesChars_of_forall fun d hd => by simpa using fun he : d = c => hx (he ▸ hd)
  induction xs with
  | nil => exact absurd rfl hne
  | cons x xs ih =>
    obtain ⟨hx, hxs⟩ := List.forall_mem_cons.mp h
    cases xs with
    | nil => simp [pieces, join, hpiece x hx]
    | cons y ys =>
      have hlist : (join (String.singleton c) (x :: y :: ys)).toList =
          x.toList ++ c :: (join (String.singleton c) (y :: ys)).toList := by
        simp [join, String.intercalate_cons_cons]
      have hrest := ih (List.cons_ne_nil y ys) hxs
      rw [pieces] at hrest ⊢
      rw [hlist, piecesChars_append _ _ _ (by simp), List.map_append, hrest, hpiece x hx]
      simp

theorem join_eq_empty_iff (hne : ∀ x ∈ xs, x ≠ "") (sep : String) : join sep xs = "" ↔ xs = [] := by
  cases xs with
  | nil => simp [join]
  | cons x xs =>
    have hx := hne x List.mem_cons_self
    cases xs <;> simp [join, String.intercalate_cons_cons, hx]

theorem join_singleton_injective (hx : ∀ x ∈ xs, x ≠ "" ∧ c ∉ x.toList)
    (hy : ∀ y ∈ ys, y ≠ "" ∧ c ∉ y.toList)
    (h : join (String.singleton c) xs = join (String.singleton c) ys) : xs = ys := by
  have hempty : join (String.singleton c) xs = "" ↔ xs = [] :=
    join_eq_empty_iff (fun x hmem => (hx x hmem).1) _
  have hempty' : join (String.singleton c) ys = "" ↔ ys = [] :=
    join_eq_empty_iff (fun y hmem => (hy y hmem).1) _
  by_cases hnil : xs = []
  · rw [hnil, hempty'.mp (h ▸ hempty.mpr hnil)]
  · have hnil' : ys ≠ [] := fun he => hnil (hempty.mp (h ▸ hempty'.mpr he))
    rw [← pieces_join hnil fun x hmem => (hx x hmem).2, h,
      pieces_join hnil' fun y hmem => (hy y hmem).2]

end Join

theorem join_concat {xs : List String} (hne : xs ≠ []) (sep y : String) :
    join sep (xs ++ [y]) = join sep xs ++ sep ++ y := by
  induction xs with
  | nil => exact absurd rfl hne
  | cons x xs ih =>
    cases xs with
    | nil => simp [join, String.intercalate_cons_cons]
    | cons x' xs =>
      have hrest := ih (List.cons_ne_nil x' xs)
      simp only [join, List.cons_append, String.intercalate_cons_cons, String.append_assoc] at hrest ⊢
      rw [hrest]

theorem mem_join {xs : List String} {sep : String} {c : Char} (h : c ∈ (join sep xs).toList) :
    c ∈ sep.toList ∨ ∃ x ∈ xs, c ∈ x.toList := by
  induction xs with
  | nil => simp [join] at h
  | cons x xs ih =>
    cases xs with
    | nil => exact .inr ⟨x, List.mem_cons_self, by simpa [join] using h⟩
    | cons x' xs =>
      simp only [join, String.intercalate_cons_cons, String.toList_append, List.mem_append] at h ih
      rcases h with (h | h) | h
      · exact .inr ⟨x, List.mem_cons_self, h⟩
      · exact .inl h
      · exact (ih h).imp id fun ⟨y, hy, hc⟩ => ⟨y, List.mem_cons_of_mem _ hy, hc⟩

/-- What stands before the last place of a character, and what stands after it. -/
theorem exists_last_of_mem {c : Char} {s : String} (h : c ∈ s.toList) :
    ∃ before after, s = before ++ String.singleton c ++ after ∧ c ∉ after.toList := by
  obtain ⟨after, before, hs, hafter⟩ :=
    List.eq_append_cons_of_mem (List.mem_reverse.mpr h)
  refine ⟨.ofList before.reverse, .ofList after.reverse, ?_, by simpa using hafter⟩
  rw [← String.toList_inj, ← List.reverse_inj, hs]
  simp

theorem isSome_splitAtFirst_singleton (c : Char) (cs : List Char) :
    (splitAtFirst [c] cs).isSome = true ↔ c ∈ cs := by
  induction cs with
  | nil => simp [splitAtFirst]
  | cons d cs ih =>
    rw [splitAtFirst]
    by_cases hd : c = d
    · simp [hd]
    · simp [hd, ih]

theorem contains_singleton_iff {c : Char} {s : String} :
    contains (String.singleton c) s = true ↔ c ∈ s.toList := by
  rw [contains, String.toList_singleton, isSome_splitAtFirst_singleton]

theorem before?_append (ending before : String) :
    before? ending (before ++ ending) = some before := by
  have hends : endsWith ending (before ++ ending) = true := by
    simp [endsWith, String.toList_append]
  rw [before?, if_pos hends]
  simp [String.toList_append]

theorem before?_eq_some_iff {ending s before : String} :
    before? ending s = some before ↔ s = before ++ ending := by
  constructor
  · intro h
    unfold before? at h
    split at h
    · rename_i hends
      obtain ⟨start, hstart⟩ := List.isSuffixOf_iff_suffix.mp hends
      obtain rfl := Option.some.inj h
      rw [← String.toList_inj, ← hstart]
      simp
    · cases h
  · rintro rfl
    exact before?_append ending before

/-! ## First places -/

theorem splitAtFirst_eq_some {needle cs before after : List Char}
    (h : splitAtFirst needle cs = some (before, after)) : cs = before ++ needle ++ after := by
  induction cs generalizing before after with
  | nil =>
    unfold splitAtFirst at h
    split at h
    · rename_i hn
      cases h
      rw [List.isEmpty_iff.mp hn]
      rfl
    · cases h
  | cons c cs ih =>
    unfold splitAtFirst at h
    split at h
    · rename_i hn
      cases h
      obtain ⟨rest, hrest⟩ := List.isPrefixOf_iff_prefix.mp hn
      rw [← hrest, List.drop_left, List.nil_append]
    · obtain ⟨⟨b, a⟩, hr, he⟩ := Option.map_eq_some_iff.mp h
      cases he
      rw [ih hr]
      rfl

theorem splitOnce_eq_some {needle s before after : String}
    (h : splitOnce needle s = some (before, after)) : s = before ++ needle ++ after := by
  obtain ⟨⟨b, a⟩, hs, he⟩ := Option.map_eq_some_iff.mp h
  cases he
  apply String.toList_injective
  simpa using splitAtFirst_eq_some hs

section FirstPlace
variable {xs before after : List Char} {d : Char}

/-- A text is split at the needle, if nothing before it has one of the characters of the needle. -/
theorem splitAtFirst_append (hbefore : d ∉ before) (hxs : d ∉ xs) (ys : List Char) :
    splitAtFirst (before ++ d :: after) (xs ++ (before ++ d :: after) ++ ys) = some (xs, ys) := by
  induction xs with
  | nil => cases before <;> simp [splitAtFirst]
  | cons x xs ih =>
    have hno : ¬(before ++ d :: after) <+: x :: xs ++ (before ++ d :: after) ++ ys := by
      intro h
      have hmark : before ++ [d] <+: x :: xs ++ before ++ (d :: after ++ ys) := by
        refine List.IsPrefix.trans ⟨after, by simp⟩ (h.trans (by simp))
      have hshort : before ++ [d] <+: x :: xs ++ before :=
        List.prefix_of_prefix_length_le hmark (List.prefix_append _ _) (by simp)
      have hmem : d ∈ x :: xs ++ before := hshort.subset (by simp)
      exact (List.mem_append.mp hmem).elim hxs hbefore
    rw [List.cons_append, List.cons_append, splitAtFirst, if_neg,
      ih (List.not_mem_of_not_mem_cons hxs)]
    · rfl
    · simpa using hno

theorem splitOnce_append {needle x : String} (hneedle : needle.toList = before ++ d :: after)
    (hbefore : d ∉ before) (hx : d ∉ x.toList) (y : String) :
    splitOnce needle (x ++ needle ++ y) = some (x, y) := by
  rw [splitOnce, String.toList_append, String.toList_append, hneedle,
    splitAtFirst_append hbefore hx]
  simp

end FirstPlace

/-! ## Trimming -/

section Trim
variable {cs xs ys : List Char}

/-- There is no blank at either end. -/
def Trimmed (cs : List Char) : Prop :=
  (∀ c ∈ cs.head?, isBlank c = false) ∧ ∀ c ∈ cs.getLast?, isBlank c = false

theorem toList_trim (s : String) : (trim s).toList = trimEndChars (trimStartChars s.toList) :=
  String.toList_ofList

theorem trimStartChars_eq_self (h : ∀ c ∈ cs.head?, isBlank c = false) :
    trimStartChars cs = cs := by
  cases cs with
  | nil => rfl
  | cons c cs => simp [trimStartChars, h c rfl]

theorem trimEndChars_eq_self (h : ∀ c ∈ cs.getLast?, isBlank c = false) :
    trimEndChars cs = cs := by
  have hstart : trimStartChars cs.reverse = cs.reverse :=
    trimStartChars_eq_self fun c hc => h c (by simpa using hc)
  rw [trimEndChars, ← trimStartChars, hstart, List.reverse_reverse]

theorem not_isBlank_head_trimStartChars (cs : List Char) :
    ∀ c ∈ (trimStartChars cs).head?, isBlank c = false := by
  intro c hc
  have h := List.head?_dropWhile_not isBlank cs
  rw [← trimStartChars, Option.mem_def.mp hc] at h
  exact h

theorem trimEndChars_prefix (cs : List Char) : trimEndChars cs <+: cs :=
  List.rdropWhile_prefix isBlank cs

theorem trimmed_trimChars (cs : List Char) : Trimmed (trimEndChars (trimStartChars cs)) := by
  constructor
  · intro c hc
    apply not_isBlank_head_trimStartChars cs
    obtain ⟨rest, hrest⟩ := trimEndChars_prefix (trimStartChars cs)
    rw [← hrest, List.head?_append, Option.mem_def.mp hc]
    rfl
  · intro c hc
    apply not_isBlank_head_trimStartChars (trimStartChars cs).reverse
    simpa [trimEndChars, trimStartChars] using hc

theorem Trimmed.trimChars_eq (h : Trimmed cs) : trimEndChars (trimStartChars cs) = cs := by
  rw [trimStartChars_eq_self h.1, trimEndChars_eq_self h.2]

theorem Trimmed.map {f : Char → Char} (hf : ∀ c, isBlank c = false → isBlank (f c) = false)
    (h : Trimmed cs) : Trimmed (cs.map f) := by
  constructor
  · intro c hc
    obtain ⟨d, hd, rfl⟩ := Option.map_eq_some_iff.mp ((List.head?_map ..).symm.trans hc)
    exact hf d (h.1 d hd)
  · intro c hc
    obtain ⟨d, hd, rfl⟩ := Option.map_eq_some_iff.mp ((List.getLast?_map ..).symm.trans hc)
    exact hf d (h.2 d hd)

theorem trimChars_map {f : Char → Char} (hf : ∀ c, isBlank (f c) = isBlank c) (cs : List Char) :
    trimEndChars (trimStartChars (cs.map f)) = (trimEndChars (trimStartChars cs)).map f := by
  have hblank : isBlank ∘ f = isBlank := funext hf
  simp only [trimEndChars, trimStartChars, List.dropWhile_map, ← List.map_reverse, hblank]

theorem trimStartChars_append_blanks (hxs : ∀ c ∈ xs, isBlank c = true) (cs : List Char) :
    trimStartChars (xs ++ cs) = trimStartChars cs :=
  List.dropWhile_append_of_pos hxs

theorem trimStartChars_append (hxs : ∃ c ∈ xs, isBlank c = false) (cs : List Char) :
    trimStartChars (xs ++ cs) = trimStartChars xs ++ cs := by
  rw [trimStartChars, List.dropWhile_append, if_neg]
  · rfl
  · simpa using hxs

theorem trimEndChars_append_blanks (hys : ∀ c ∈ ys, isBlank c = true) (cs : List Char) :
    trimEndChars (cs ++ ys) = trimEndChars cs := by
  have h := trimStartChars_append_blanks (fun c hc => hys c (List.mem_reverse.mp hc)) cs.reverse
  rw [trimEndChars, List.reverse_append, ← trimStartChars, h]
  rfl

theorem trimEndChars_append (hys : ∃ c ∈ ys, isBlank c = false) (cs : List Char) :
    trimEndChars (cs ++ ys) = cs ++ trimEndChars ys := by
  have hrev : ∃ c ∈ ys.reverse, isBlank c = false := by simpa using hys
  have h := trimStartChars_append hrev cs.reverse
  rw [trimEndChars, List.reverse_append, ← trimStartChars, h]
  simp [trimEndChars, trimStartChars]

theorem trimChars_surrounded (hxs : ∀ c ∈ xs, isBlank c = true) (hys : ∀ c ∈ ys, isBlank c = true)
    (cs : List Char) :
    trimEndChars (trimStartChars (xs ++ cs ++ ys)) = trimEndChars (trimStartChars cs) := by
  rw [List.append_assoc, trimStartChars_append_blanks hxs]
  by_cases hcs : ∃ c ∈ cs, isBlank c = false
  · rw [trimStartChars_append hcs, trimEndChars_append_blanks hys]
  · have hblank : ∀ c ∈ cs, isBlank c = true := by simpa using hcs
    rw [trimStartChars_append_blanks hblank, ← List.append_nil cs,
      trimStartChars_append_blanks hblank]
    have hnil : trimStartChars ys = [] := List.dropWhile_eq_nil_iff.mpr hys
    rw [hnil]
    rfl

theorem exists_surrounding (cs : List Char) : ∃ xs ys, (∀ c ∈ xs, isBlank c = true) ∧
    (∀ c ∈ ys, isBlank c = true) ∧ cs = xs ++ trimEndChars (trimStartChars cs) ++ ys := by
  refine ⟨cs.takeWhile isBlank, ((trimStartChars cs).reverse.takeWhile isBlank).reverse,
    fun c hc => List.mem_takeWhile_imp hc,
    fun c hc => List.mem_takeWhile_imp (List.mem_reverse.mp hc), ?_⟩
  have hend : trimStartChars cs = trimEndChars (trimStartChars cs) ++
      ((trimStartChars cs).reverse.takeWhile isBlank).reverse := by
    rw [trimEndChars, ← List.reverse_append, List.takeWhile_append_dropWhile, List.reverse_reverse]
  rw [List.append_assoc, ← hend, trimStartChars, List.takeWhile_append_dropWhile]

theorem trimChars_between (hxs : ∃ c ∈ xs, isBlank c = false) (hys : ∃ c ∈ ys, isBlank c = false)
    (cs : List Char) :
    trimEndChars (trimStartChars (xs ++ cs ++ ys)) =
      trimStartChars xs ++ cs ++ trimEndChars ys := by
  rw [List.append_assoc, trimStartChars_append hxs, ← List.append_assoc, trimEndChars_append hys]

theorem trim_eq_empty_iff {s : String} : trim s = "" ↔ ∀ c ∈ s.toList, isBlank c = true := by
  rw [← String.toList_eq_nil_iff, toList_trim]
  constructor
  · intro h c hc
    obtain ⟨xs, ys, hxs, hys, he⟩ := exists_surrounding s.toList
    rw [he, h, List.append_nil, List.mem_append] at hc
    exact hc.elim (hxs c) (hys c)
  · intro h
    rw [← List.append_nil s.toList, ← List.append_nil s.toList,
      trimChars_surrounded h (List.forall_mem_nil _)]
    rfl

end Trim

theorem mem_of_mem_trim {s : String} {c : Char} (h : c ∈ (trim s).toList) : c ∈ s.toList := by
  obtain ⟨xs, ys, -, -, heq⟩ := exists_surrounding s.toList
  rw [heq]
  rw [toList_trim] at h
  simp [h]

section TrimEnd
variable {x y : String}

theorem exists_head_append {P : Char → Prop} (hx : ∃ c ∈ x.toList.head?, P c) (y : String) :
    ∃ c ∈ (x ++ y).toList.head?, P c := by
  obtain ⟨c, hc, hP⟩ := hx
  exact ⟨c, by rw [String.toList_append, List.head?_append, Option.mem_def.mp hc]; rfl, hP⟩

/-- Nothing is trimmed of what stands before a character that is not blank. -/
theorem trim_append (hx : ∃ c ∈ x.toList.head?, isBlank c = false)
    (hy : ∃ c ∈ y.toList, isBlank c = false) : trim (x ++ y) = x ++ trimEnd y := by
  obtain ⟨c, hc, hb⟩ := hx
  have hstart : trimStartChars x.toList = x.toList :=
    trimStartChars_eq_self fun d hd => by rwa [Option.mem_unique hd hc]
  apply String.toList_injective
  rw [toList_trim, String.toList_append, trimStartChars_append ⟨c, List.mem_of_mem_head? hc, hb⟩,
    hstart, trimEndChars_append hy, String.toList_append, trimEnd, String.toList_ofList]

theorem trim_append_blanks (hx : ∃ c ∈ x.toList.head?, isBlank c = false)
    (hend : ∃ c ∈ x.toList.getLast?, isBlank c = false) (hy : ∀ c ∈ y.toList, isBlank c = true) :
    trim (x ++ y) = x := by
  obtain ⟨c, hc, hfirst⟩ := hx
  obtain ⟨d, hd, hlast⟩ := hend
  have htrimmed : Trimmed x.toList :=
    ⟨fun e he => by rwa [Option.mem_unique he hc], fun e he => by rwa [Option.mem_unique he hd]⟩
  apply String.toList_injective
  have h := trimChars_surrounded (List.forall_mem_nil _) hy x.toList
  rw [toList_trim, String.toList_append]
  exact h.trans htrimmed.trimChars_eq

end TrimEnd

/-! ## Words -/

section Words
variable {c : Char} {xs ys cs w : List Char}

def wordsChars (cs : List Char) : List (List Char) :=
  (piecesChars isBlank cs).filter (!·.isEmpty)

theorem words_eq (s : String) : words s = (wordsChars s.toList).map String.ofList := rfl

theorem wordsChars_append (hc : isBlank c = true) (xs ys : List Char) :
    wordsChars (xs ++ c :: ys) = wordsChars xs ++ wordsChars ys := by
  rw [wordsChars, piecesChars_append isBlank xs ys hc, List.filter_append]
  rfl

theorem wordsChars_of_forall (hne : cs ≠ []) (h : ∀ c ∈ cs, isBlank c = false) :
    wordsChars cs = [cs] := by
  rw [wordsChars, piecesChars_of_forall h]
  simpa using hne

theorem not_isBlank_of_mem_wordsChars (hw : w ∈ wordsChars cs) : ∀ c ∈ w, isBlank c = false :=
  fun _ hc => (exists_mem_piecesChars_iff.mp ⟨w, (List.mem_filter.mp hw).1, hc⟩).2

theorem wordsChars_eq_nil_iff : wordsChars cs = [] ↔ ∀ c ∈ cs, isBlank c = true := by
  constructor
  · intro h c hc
    by_contra hb
    obtain ⟨p, hp, hcp⟩ := exists_mem_piecesChars_iff.mpr ⟨hc, Bool.eq_false_iff.mpr hb⟩
    have hmem : p ∈ wordsChars cs := List.mem_filter.mpr ⟨hp, by cases p <;> simp_all⟩
    rw [h] at hmem
    cases hmem
  · intro h
    refine List.filter_eq_nil_iff.mpr fun p hp => ?_
    cases p with
    | nil => simp
    | cons c p =>
      obtain ⟨hc, hb⟩ := exists_mem_piecesChars_iff.mp ⟨_, hp, List.mem_cons_self⟩
      rw [h c hc] at hb
      cases hb

theorem exists_getLast?_wordsChars_append (xs : List Char) (hne : ys ≠ [])
    (h : ∀ c ∈ ys, isBlank c = false) : ∃ w, (wordsChars (xs ++ ys)).getLast? = some (w ++ ys) := by
  induction xs using List.reverseRecOn generalizing ys with
  | nil => exact ⟨[], by rw [List.nil_append, wordsChars_of_forall hne h]; rfl⟩
  | append_singleton xs c ih =>
    rw [List.append_assoc, List.singleton_append]
    cases hc : isBlank c with
    | true =>
      refine ⟨[], ?_⟩
      rw [wordsChars_append hc, wordsChars_of_forall hne h, List.getLast?_concat, List.nil_append]
    | false =>
      obtain ⟨w, hw⟩ := ih (List.cons_ne_nil c ys) (List.forall_mem_cons.mpr ⟨hc, h⟩)
      exact ⟨w ++ [c], by rw [hw, List.append_assoc]; rfl⟩

theorem wordsChars_surrounded (hxs : ∀ c ∈ xs, isBlank c = true) (hys : ∀ c ∈ ys, isBlank c = true)
    (cs : List Char) : wordsChars (xs ++ cs ++ ys) = wordsChars cs := by
  have hstart : ∀ zs, wordsChars (xs ++ zs) = wordsChars zs := by
    intro zs
    induction xs with
    | nil => rfl
    | cons x xs ih =>
      obtain ⟨hx, hxs⟩ := List.forall_mem_cons.mp hxs
      exact (wordsChars_append hx [] (xs ++ zs)).trans (ih hxs)
  rw [List.append_assoc, hstart]
  cases ys with
  | nil => rw [List.append_nil]
  | cons y ys =>
    obtain ⟨hy, hys⟩ := List.forall_mem_cons.mp hys
    rw [wordsChars_append hy, wordsChars_eq_nil_iff.mpr hys, List.append_nil]

theorem words_trim (s : String) : words (trim s) = words s := by
  obtain ⟨xs, ys, hxs, hys, heq⟩ := exists_surrounding s.toList
  rw [words_eq, words_eq, toList_trim]
  conv_rhs => rw [heq, wordsChars_surrounded hxs hys]

end Words

/-! ## Capitals and small letters -/

theorem toNat_ofNat {n : Nat} (h : n < 0xD800) : (Char.ofNat n).toNat = n := by
  have hn : n.isValidChar := .inl h
  rw [Char.ofNat, dif_pos hn]
  rfl

theorem toNat_asciiUpper (c : Char) : (asciiUpper c).toNat =
    if 97 ≤ c.toNat ∧ c.toNat ≤ 122 then c.toNat - 32 else c.toNat := by
  have hletter : ('a' ≤ c ∧ c ≤ 'z') ↔ (97 ≤ c.toNat ∧ c.toNat ≤ 122) := Iff.rfl
  unfold asciiUpper
  by_cases h : 97 ≤ c.toNat ∧ c.toNat ≤ 122
  · rw [if_pos (hletter.mpr h), if_pos h, toNat_ofNat (by omega)]
  · rw [if_neg (mt hletter.mp h), if_neg h]

theorem isBlank_asciiUpper (c : Char) : isBlank (asciiUpper c) = isBlank c := by
  rw [Bool.eq_iff_iff]
  simp only [isBlank, toNat_asciiUpper, Bool.or_eq_true, Bool.and_eq_true, decide_eq_true_eq,
    beq_iff_eq]
  split <;> omega

theorem toNat_asciiLower (c : Char) : (asciiLower c).toNat =
    if 65 ≤ c.toNat ∧ c.toNat ≤ 90 then c.toNat + 32 else c.toNat := by
  have hletter : ('A' ≤ c ∧ c ≤ 'Z') ↔ (65 ≤ c.toNat ∧ c.toNat ≤ 90) := Iff.rfl
  unfold asciiLower
  by_cases h : 65 ≤ c.toNat ∧ c.toNat ≤ 90
  · rw [if_pos (hletter.mpr h), if_pos h, toNat_ofNat (by omega)]
  · rw [if_neg (mt hletter.mp h), if_neg h]

theorem isBlank_asciiLower (c : Char) : isBlank (asciiLower c) = isBlank c := by
  rw [Bool.eq_iff_iff]
  simp only [isBlank, toNat_asciiLower, Bool.or_eq_true, Bool.and_eq_true, decide_eq_true_eq,
    beq_iff_eq]
  split <;> omega

theorem asciiUpper_eq_self {c : Char} (h : c.toNat < 97) : asciiUpper c = c := by
  apply Char.toNat_inj.mp
  rw [toNat_asciiUpper, if_neg (by omega)]

theorem asciiUpper_asciiUpper (c : Char) : asciiUpper (asciiUpper c) = asciiUpper c := by
  have h : ¬(97 ≤ (asciiUpper c).toNat ∧ (asciiUpper c).toNat ≤ 122) := by
    rw [toNat_asciiUpper]
    split <;> omega
  apply Char.toNat_inj.mp
  rw [toNat_asciiUpper (asciiUpper c), if_neg h]

theorem asciiUpper_ne {c d : Char} (hc : c ≠ d) (hd : ¬(65 ≤ d.toNat ∧ d.toNat ≤ 90)) :
    asciiUpper c ≠ d := by
  intro h
  have hcd : c.toNat ≠ d.toNat := fun he => hc (Char.toNat_inj.mp he)
  have hn := congrArg Char.toNat h
  rw [toNat_asciiUpper] at hn
  split at hn <;> omega

end Lineage.Text
