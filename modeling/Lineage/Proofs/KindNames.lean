import Lineage.Proofs.Keyed
import Lineage.Proofs.Text
import Lineage.Refactoring.Kind
import Mathlib.Computability.Language
import Mathlib.Logic.Relation
/-! # Names of kinds

A type name is read by its normal form, so spellings of one name are one kind; the kind that is read
has a name that leads back to it, whether it is known or not. Main statements: `names`,
`readable_parse`, `SameName.normalize_eq`, `readsName_parse`.
-/
namespace Lineage.Refactoring.Kind

open Text Relation
open scoped Computability

/-! ## The shape of names -/

def isCapital (c : Char) : Prop := 'A' ≤ c ∧ c ≤ 'Z'

def isNamePart (c : Char) : Prop := isCapital c ∨ ('0' ≤ c ∧ c ≤ '9') ∨ c = '_'

/-- The texts of one character that has a property. -/
def oneOf (p : Char → Prop) : Language Char := {w | ∃ c, p c ∧ w = [c]}

/-- The language `[A-Z][A-Z0-9_]*`. -/
def names : Language Char := oneOf isCapital * (oneOf isNamePart)∗

theorem mem_oneOf_kstar_iff {p : Char → Prop} {cs : List Char} :
    cs ∈ (oneOf p)∗ ↔ ∀ c ∈ cs, p c := by
  rw [Language.mem_kstar]
  constructor
  · rintro ⟨ws, rfl, hws⟩ c hc
    obtain ⟨w, hw, hcw⟩ := List.mem_flatten.mp hc
    obtain ⟨d, hd, rfl⟩ := hws w hw
    rw [List.mem_singleton.mp hcw]
    exact hd
  · intro h
    refine ⟨cs.map fun c => [c], by simp [← List.flatMap_def], fun w hw => ?_⟩
    obtain ⟨c, hc, rfl⟩ := List.mem_map.mp hw
    exact ⟨c, h c hc, rfl⟩

theorem cons_mem_names_iff {c : Char} {cs : List Char} :
    c :: cs ∈ names ↔ isCapital c ∧ ∀ d ∈ cs, isNamePart d := by
  rw [names, Language.mem_mul]
  constructor
  · rintro ⟨_, ⟨d, hd, rfl⟩, w, hw, he⟩
    obtain ⟨rfl, rfl⟩ := List.cons_eq_cons.mp he
    exact ⟨hd, mem_oneOf_kstar_iff.mp hw⟩
  · rintro ⟨hc, hcs⟩
    exact ⟨[c], ⟨c, hc, rfl⟩, cs, mem_oneOf_kstar_iff.mpr hcs, rfl⟩

theorem nil_not_mem_names : [] ∉ names := by
  rw [names, Language.mem_mul]
  rintro ⟨_, ⟨c, -, rfl⟩, w, -, he⟩
  exact absurd he (List.cons_ne_nil _ _)

theorem wellFormed_iff {s : String} : wellFormed s = true ↔ s.toList ∈ names := by
  unfold wellFormed
  cases h : s.toList with
  | nil => simp [nil_not_mem_names]
  | cons c cs =>
    rw [cons_mem_names_iff]
    simp [isCapital, isNamePart, Text.isDigit, or_assoc]

/-! ## Normal forms -/

/-- What stands for a character inside a name's normal form. -/
def normalChar (c : Char) : Char := if c = ' ' ∨ c = '-' then '_' else asciiUpper c

theorem toList_normalize (raw : String) :
    (normalize raw).toList = (trimEndChars (trimStartChars raw.toList)).map normalChar := by
  rw [normalize, String.toList_map, toList_trim]
  rfl

theorem normalChar_of_separator {c : Char} (h : c = ' ' ∨ c = '-') : normalChar c = '_' := if_pos h

theorem normalChar_of_not_separator {c : Char} (h : ¬(c = ' ' ∨ c = '-')) :
    normalChar c = asciiUpper c := if_neg h

theorem normalChar_normalChar (c : Char) : normalChar (normalChar c) = normalChar c := by
  by_cases hc : c = ' ' ∨ c = '-'
  · rw [normalChar_of_separator hc]
    decide
  · have hu : ¬(asciiUpper c = ' ' ∨ asciiUpper c = '-') := by
      obtain ⟨hspace, hhyphen⟩ := not_or.mp hc
      exact not_or.mpr ⟨asciiUpper_ne hspace (by decide), asciiUpper_ne hhyphen (by decide)⟩
    rw [normalChar_of_not_separator hc, normalChar_of_not_separator hu, asciiUpper_asciiUpper]

theorem not_isBlank_normalChar {c : Char} (h : isBlank c = false) :
    isBlank (normalChar c) = false := by
  unfold normalChar
  split
  · decide
  · rw [isBlank_asciiUpper, h]

theorem normalize_normalize (raw : String) : normalize (normalize raw) = normalize raw := by
  have ht := (trimmed_trimChars raw.toList).map fun _ => not_isBlank_normalChar
  apply String.toList_injective
  rw [toList_normalize, toList_normalize, ht.trimChars_eq, List.map_map]
  exact List.map_congr_left fun c _ => normalChar_normalChar c

theorem normal_of_isNamePart {c : Char} (h : isNamePart c) :
    normalChar c = c ∧ isBlank c = false := by
  have hn : (65 ≤ c.toNat ∧ c.toNat ≤ 90) ∨ (48 ≤ c.toNat ∧ c.toNat ≤ 57) ∨ c.toNat = 95 :=
    h.imp id fun h => h.imp id fun h => congrArg Char.toNat h
  have hsep : ¬(c = ' ' ∨ c = '-') := by
    rintro (rfl | rfl) <;> simp at hn
  constructor
  · rw [normalChar_of_not_separator hsep, asciiUpper_eq_self (by omega)]
  · rw [← Bool.not_eq_true]
    simp only [isBlank, Bool.or_eq_true, Bool.and_eq_true, decide_eq_true_eq, beq_iff_eq]
    omega

theorem normalize_of_mem_names {s : String} (h : s.toList ∈ names) : normalize s = s := by
  have hparts : ∀ c ∈ s.toList, normalChar c = c ∧ isBlank c = false := by
    cases hs : s.toList with
    | nil => exact nofun
    | cons c cs =>
      rw [hs, cons_mem_names_iff] at h
      exact List.forall_mem_cons.mpr
        ⟨normal_of_isNamePart (.inl h.1), fun d hd => normal_of_isNamePart (h.2 d hd)⟩
  have ht : Trimmed s.toList :=
    ⟨fun c hc => (hparts c (List.mem_of_mem_head? hc)).2,
      fun c hc => (hparts c (List.mem_of_mem_getLast? hc)).2⟩
  apply String.toList_injective
  rw [toList_normalize, ht.trimChars_eq]
  exact (List.map_congr_left fun c hc => (hparts c hc).1).trans (List.map_id' _)

/-! ## Names of kinds -/

theorem ofName_name_of_mem_known : ∀ k ∈ known, ofName k.name = k := by decide

theorem wellFormed_of_mem_vocabulary : ∀ e ∈ vocabulary, wellFormed e.1 = true := by
  decide +kernel

theorem mem_known_of_mem_vocabulary : ∀ e ∈ vocabulary, e.2 ∈ known := by decide

theorem name_mem_vocabulary {k : Kind} (h : k ∈ known) : (k.name, k) ∈ vocabulary :=
  List.mem_append_left _ (List.mem_map_of_mem h)

theorem ofName_cases (s : String) :
    ofName s ∈ known ∨ ofName s = other s ∧ s ∉ vocabulary.map Prod.fst := by
  unfold ofName
  cases h : vocabulary.lookup s with
  | some k => exact .inl (mem_known_of_mem_vocabulary _ (mem_of_lookup_eq_some h))
  | none => exact .inr ⟨rfl, lookup_eq_none_iff_not_mem.mp h⟩

/-- The kinds that reading a name can give. -/
inductive Readable : Kind → Prop
  | known {k : Kind} (h : k ∈ known) : Readable k
  | other {s : String} (hnormal : normalize s = s) (hne : s ≠ "")
      (hnew : s ∉ vocabulary.map Prod.fst) : Readable (other s)

theorem parse_of_mem_names {raw : String} (h : (normalize raw).toList ∈ names) :
    parse raw = (ofName (normalize raw), []) := if_pos (wellFormed_iff.mpr h)

theorem parse_of_not_mem_names {raw : String} (h : (normalize raw).toList ∉ names) : parse raw =
    (other (if normalize raw = "" then "UNKNOWN" else normalize raw), [.malformedOperation raw]) :=
  if_neg (mt wellFormed_iff.mp h)

theorem mem_names_of_mem_vocabulary {s : String} (h : s ∈ vocabulary.map Prod.fst) :
    s.toList ∈ names := by
  obtain ⟨e, he, rfl⟩ := List.mem_map.mp h
  exact wellFormed_iff.mp (wellFormed_of_mem_vocabulary e he)

theorem readable_parse (raw : String) : Readable (parse raw).1 := by
  by_cases h : (normalize raw).toList ∈ names
  · rw [parse_of_mem_names h]
    rcases ofName_cases (normalize raw) with hk | ⟨he, hnew⟩
    · exact .known hk
    · rw [he]
      refine .other (normalize_normalize raw) (fun hempty => nil_not_mem_names ?_) hnew
      rw [hempty] at h
      exact h
  · rw [parse_of_not_mem_names h]
    split
    · exact .other (normalize_of_mem_names (wellFormed_iff.mp (by decide))) (by decide) (by decide)
    · rename_i hne
      exact .other (normalize_normalize raw) hne (mt mem_names_of_mem_vocabulary h)

section Readable
variable {k : Kind} (h : Readable k)
include h

theorem Readable.ofName_name : ofName k.name = k := by
  cases h with
  | known h => exact ofName_name_of_mem_known k h
  | @other s hnormal hne hnew =>
    have hlookup : vocabulary.lookup s = none := lookup_eq_none_iff_not_mem.mpr hnew
    simp [name, ofName, hlookup]

theorem Readable.normalize_name : normalize k.name = k.name ∧ k.name ≠ "" := by
  cases h with
  | known h =>
    have hmem := mem_names_of_mem_vocabulary (List.mem_map_of_mem (name_mem_vocabulary h))
    refine ⟨normalize_of_mem_names hmem, fun hempty => nil_not_mem_names ?_⟩
    simpa [hempty] using hmem
  | other hnormal hne _ => exact ⟨hnormal, hne⟩

/-- Whether its name is well formed or not, reading it gives the kind again. -/
theorem Readable.parse_name : (parse k.name).1 = k := by
  obtain ⟨hnormal, hne⟩ := h.normalize_name
  by_cases hmem : k.name.toList ∈ names
  · rw [parse_of_mem_names (hnormal.symm ▸ hmem), hnormal, h.ofName_name]
  · rw [parse_of_not_mem_names (hnormal.symm ▸ hmem), hnormal, if_neg hne]
    cases h with
    | known h =>
      exact absurd
        (mem_names_of_mem_vocabulary (List.mem_map_of_mem (name_mem_vocabulary h))) hmem
    | other => rfl

end Readable

/-! ## Spellings of one name -/

/-- What may stand between the words of a name. -/
def IsSeparator (c : Char) : Prop := c = ' ' ∨ c = '-' ∨ c = '_'

def IsSolid (c : Char) : Prop := isBlank c = false ∧ ¬IsSeparator c

/-- One difference between two spellings. -/
inductive Respelled : String → String → Prop
  | surrounded {xs ys : List Char} (s : String) (hxs : ∀ c ∈ xs, isBlank c = true)
      (hys : ∀ c ∈ ys, isBlank c = true) : Respelled s (String.ofList (xs ++ s.toList ++ ys))
  | letterCase {s t : String} (h : s.toList.map asciiUpper = t.toList.map asciiUpper) :
      Respelled s t
  | separated {xs ys : List Char} {c d : Char} (hc : IsSeparator c) (hd : IsSeparator d)
      (hxs : ∃ x ∈ xs, IsSolid x) (hys : ∃ y ∈ ys, IsSolid y) :
      Respelled (String.ofList (xs ++ c :: ys)) (String.ofList (xs ++ d :: ys))

/-- The two differ in nothing but spelling. -/
def SameName : String → String → Prop := EqvGen Respelled

theorem normalChar_of_isSeparator {c : Char} (h : IsSeparator c) : normalChar c = '_' := by
  rcases h with rfl | rfl | rfl <;> decide

theorem normalChar_asciiUpper (c : Char) : normalChar (asciiUpper c) = normalChar c := by
  by_cases hc : c = ' ' ∨ c = '-'
  · rcases hc with rfl | rfl <;> decide
  · rw [normalChar_of_not_separator hc, ← normalChar_of_not_separator hc, normalChar_normalChar]

theorem Respelled.normalize_eq {s t : String} (h : Respelled s t) : normalize s = normalize t := by
  apply String.toList_injective
  rw [toList_normalize, toList_normalize]
  cases h with
  | surrounded s hxs hys => rw [String.toList_ofList, trimChars_surrounded hxs hys]
  | letterCase h =>
    have hmap : ∀ cs : List Char, cs.map normalChar = (cs.map asciiUpper).map normalChar := by
      intro cs
      rw [List.map_map]
      exact List.map_congr_left fun c _ => (normalChar_asciiUpper c).symm
    rw [hmap, ← trimChars_map isBlank_asciiUpper, h, trimChars_map isBlank_asciiUpper, ← hmap]
  | @separated xs ys c d hc hd hxs hys =>
    have hx : ∃ x ∈ xs, isBlank x = false := hxs.imp fun x hx => ⟨hx.1, hx.2.1⟩
    have hy : ∃ y ∈ ys, isBlank y = false := hys.imp fun y hy => ⟨hy.1, hy.2.1⟩
    have htrim : ∀ e, trimEndChars (trimStartChars (xs ++ e :: ys)) =
        trimStartChars xs ++ [e] ++ trimEndChars ys := by
      intro e
      rw [← trimChars_between hx hy, List.append_assoc, List.singleton_append]
    simp [htrim, normalChar_of_isSeparator hc, normalChar_of_isSeparator hd]

theorem SameName.normalize_eq {s t : String} (h : SameName s t) : normalize s = normalize t := by
  induction h with
  | rel _ _ h => exact h.normalize_eq
  | refl _ => rfl
  | symm _ _ _ ih => exact ih.symm
  | trans _ _ _ _ _ ih₁ ih₂ => exact ih₁.trans ih₂

theorem SameName.parse_eq {s t : String} (h : SameName s t) : (parse s).1 = (parse t).1 := by
  by_cases hs : (normalize s).toList ∈ names
  · have ht : (normalize t).toList ∈ names := h.normalize_eq ▸ hs
    rw [parse_of_mem_names hs, parse_of_mem_names ht, h.normalize_eq]
  · have ht : (normalize t).toList ∉ names := h.normalize_eq ▸ hs
    rw [parse_of_not_mem_names hs, parse_of_not_mem_names ht, h.normalize_eq]

/-- What reading a type name promises. -/
structure ReadsName (raw : String) : Prop where
  idempotent : (parse (parse raw).1.name).1 = (parse raw).1
  lossless : ofName (parse raw).1.name = (parse raw).1
  unknown : ∀ s, (parse raw).1 = other s → s ∉ vocabulary.map Prod.fst
  respelled : ∀ raw', SameName raw raw' → (parse raw').1 = (parse raw).1
  recorded : (normalize raw).toList ∉ names →
    ∀ d : Diagnostics, d.recordAll (parse raw).2 = d.record (.malformedOperation raw)
  unchanged : (normalize raw).toList ∈ names → ∀ d : Diagnostics, d.recordAll (parse raw).2 = d

theorem readsName_parse (raw : String) : ReadsName raw where
  idempotent := (readable_parse raw).parse_name
  lossless := (readable_parse raw).ofName_name
  unknown := by
    intro s hs
    have h := readable_parse raw
    rw [hs] at h
    cases h with
    | known h => exact absurd h (by simp [known])
    | other _ _ hnew => exact hnew
  respelled raw' h := h.parse_eq.symm
  recorded h d := by
    rw [parse_of_not_mem_names h]
    rfl
  unchanged h d := by
    rw [parse_of_mem_names h]
    simp [Diagnostics.recordAll]

theorem readsName_renameMethod : SameName "RENAME_METHOD" "\tRename-method " ∧
    (parse "\tRename-method ").1 = (parse "RENAME_METHOD").1 := by
  have hcase : Respelled "RENAME_METHOD" "Rename_method" := .letterCase (by decide)
  have hseparated : Respelled "Rename_method" "Rename-method" :=
    @Respelled.separated "Rename".toList "method".toList '_' '-' (.inr (.inr rfl)) (.inr (.inl rfl))
      ⟨'R', by decide, by decide, by simp [IsSeparator]⟩
      ⟨'m', by decide, by decide, by simp [IsSeparator]⟩
  have hsurrounded : Respelled "Rename-method" "\tRename-method " :=
    @Respelled.surrounded ['\t'] [' '] "Rename-method" (List.forall_mem_singleton.mpr (by decide))
      (List.forall_mem_singleton.mpr (by decide))
  have h : SameName "RENAME_METHOD" "\tRename-method " :=
    ((EqvGen.rel _ _ hcase).trans _ _ _ (.rel _ _ hseparated)).trans _ _ _ (.rel _ _ hsurrounded)
  exact ⟨h, (readsName_parse _).respelled _ h⟩

end Lineage.Refactoring.Kind
