import Lineage.Java.TypeName
import Lineage.Proofs.Java.Commas
import Lineage.Proofs.Text
/-! # Names of types

A dotted name is one or more words with dots between them. A reference is such a name, with brackets
after it for the dimensions of an array and dots for a variable number of arguments; these are taken
off again. Main statements: `lastSegment_append`, `element_written`.
-/
namespace Lineage.Java.TypeName

def segments (name : String) : List String := Text.pieces (· == '.') name

/-- One or more words with a dot between any two of them. -/
def IsDotted (name : String) : Prop := ∀ part ∈ segments name, IsWord part

instance (s : String) : Decidable (IsWord s) :=
  decidable_of_iff (s ≠ "" ∧ s.toList.all Token.isWordPart = true) (by simp [IsWord])

instance (name : String) : Decidable (IsDotted name) :=
  inferInstanceAs (Decidable (∀ part ∈ segments name, IsWord part))

def written (name : String) (dimensions dots : Nat) : String :=
  name ++ String.join (List.replicate dimensions "[]") ++ String.join (List.replicate dots "...")

@[simp] theorem written_zero (name : String) : written name 0 0 = name := by
  simp [written]

/-! ## Segments -/

theorem segments_of_not_mem {name : String} (h : '.' ∉ name.toList) : segments name = [name] :=
  Text.pieces_of_not_mem h

theorem segments_append (start name : String) :
    segments (start ++ "." ++ name) = segments start ++ segments name := by
  have hlist : (start ++ "." ++ name).toList = start.toList ++ '.' :: name.toList := by simp
  rw [segments, Text.pieces, hlist, Text.piecesChars_append _ _ _ (by rfl), List.map_append]
  rfl

theorem lastSegment_of_not_mem {name : String} (h : '.' ∉ name.toList) :
    lastSegment name = name := by
  change ((segments name).getLast?).getD name = name
  rw [segments_of_not_mem h]
  rfl

/-- A name has one segment, or it ends in one after a dot. -/
theorem name_cases (name : String) :
    '.' ∉ name.toList ∨ ∃ start last, name = start ++ "." ++ last ∧ '.' ∉ last.toList := by
  by_cases h : '.' ∈ name.toList
  · exact .inr (Text.exists_last_of_mem h)
  · exact .inl h

theorem lastSegment_append (start name : String) :
    lastSegment (start ++ "." ++ name) = lastSegment name := by
  have hne : segments name ≠ [] := by
    simpa [segments, Text.pieces] using Text.piecesChars_ne_nil _ _
  change ((segments (start ++ "." ++ name)).getLast?).getD _ = ((segments name).getLast?).getD _
  rw [segments_append, List.getLast?_append_of_ne_nil _ hne, List.getLast?_eq_some_getLast hne]
  rfl

theorem lastSegment_not_mem (name : String) : '.' ∉ (lastSegment name).toList := by
  rcases name_cases name with h | ⟨start, last, rfl, h⟩
  · rwa [lastSegment_of_not_mem h]
  · rwa [lastSegment_append, lastSegment_of_not_mem h]

theorem lastSegment_below {start simple : String} (h : '.' ∉ simple.toList) :
    lastSegment (start ++ "." ++ simple) = simple := by
  rw [lastSegment_append, lastSegment_of_not_mem h]

def EndsIn (full name : String) : Prop := full = name ∨ ∃ start, full = start ++ "." ++ name

theorem EndsIn.lastSegment_eq {full name : String} (h : EndsIn full name) :
    lastSegment full = lastSegment name := by
  rcases h with rfl | ⟨start, rfl⟩
  · rfl
  · exact lastSegment_append start name

namespace IsDotted
variable {name : String}

theorem of_isWord (h : IsWord name) : IsDotted name := by
  intro part hpart
  rw [segments_of_not_mem (not_mem_of_isWord h (by decide)), List.mem_singleton] at hpart
  exact hpart ▸ h

theorem isWord_lastSegment (h : IsDotted name) : IsWord (lastSegment name) := by
  rcases name_cases name with hname | ⟨start, last, rfl, hlast⟩
  · rw [lastSegment_of_not_mem hname]
    exact h name (by rw [segments_of_not_mem hname]; exact List.mem_singleton_self _)
  · rw [lastSegment_below hlast]
    exact h last (by rw [segments_append, segments_of_not_mem hlast]; simp)

/-- A dotted name ends in a character of a word. -/
theorem exists_last (h : IsDotted name) :
    ∃ cs c, name.toList = cs ++ [c] ∧ Token.isWordPart c = true := by
  have hword := h.isWord_lastSegment
  obtain ⟨start, hstart⟩ : ∃ start, name.toList = start ++ (lastSegment name).toList := by
    rcases name_cases name with hname | ⟨start, last, rfl, hlast⟩
    · exact ⟨[], by rw [lastSegment_of_not_mem hname]; rfl⟩
    · exact ⟨(start ++ ".").toList, by rw [lastSegment_below hlast, String.toList_append]⟩
  have hne : (lastSegment name).toList ≠ [] := by simpa using hword.1
  refine ⟨start ++ (lastSegment name).toList.dropLast, _, ?_, hword.2 _ (List.getLast_mem hne)⟩
  rw [List.append_assoc, List.dropLast_append_getLast, ← hstart]

end IsDotted

/-! ## Brackets and dots -/

theorem dropEndings_replicate {ending : List Char} (hne : ending ≠ []) {rest : List Char}
    (hrest : ¬ ending <+: rest) (copies fuel : Nat) (hfuel : copies ≤ fuel) :
    dropEndings ending fuel ((List.replicate copies ending).flatten ++ rest) = rest := by
  induction fuel generalizing copies with
  | zero =>
    obtain rfl := Nat.le_zero.mp hfuel
    rfl
  | succ fuel ih =>
    rw [dropEndings]
    cases copies with
    | zero =>
      refine if_neg fun h => hrest ?_
      simpa using h.2
    | succ copies =>
      rw [List.replicate_succ, List.flatten_cons, List.append_assoc]
      rw [if_pos ⟨hne, by simp⟩, List.drop_left]
      exact ih copies (Nat.le_of_succ_le_succ hfuel)

theorem toList_join_replicate (copies : Nat) (s : String) :
    (String.join (List.replicate copies s)).toList = (List.replicate copies s.toList).flatten := by
  rw [String.toList_join, List.flatMap_def, List.map_replicate]

theorem trimEndings_append_join {ending name : String} (hne : ending ≠ "")
    (hname : ¬ ending.toList <:+ name.toList) (copies : Nat) :
    trimEndings ending (name ++ String.join (List.replicate copies ending)) = name := by
  have hlist : (name ++ String.join (List.replicate copies ending)).toList.reverse =
      (List.replicate copies ending.toList.reverse).flatten ++ name.toList.reverse := by
    rw [String.toList_append, toList_join_replicate, List.reverse_append, List.reverse_flatten,
      List.map_replicate, List.reverse_replicate]
  have hfuel : copies ≤ (name ++ String.join (List.replicate copies ending)).toList.length := by
    have hpos : 0 < ending.toList.length := List.length_pos_iff.mpr (by simpa using hne)
    have hcopies := Nat.le_mul_of_pos_right copies hpos
    rw [String.toList_append, toList_join_replicate, List.length_append, List.length_flatten,
      List.map_replicate, List.sum_replicate_nat]
    omega
  rw [trimEndings]
  simp only [hlist]
  rw [dropEndings_replicate (by simpa using hne) (by rwa [List.reverse_prefix]) copies _ hfuel,
    List.reverse_reverse, String.ofList_toList]

theorem not_suffix_of_last (ending : List Char) {cs : List Char} {c d : Char} (h : c ≠ d) :
    ¬ (ending ++ [d]) <:+ (cs ++ [c]) := by
  rintro ⟨start, hstart⟩
  rw [← List.append_assoc] at hstart
  exact h (List.singleton_inj.mp (List.append_inj' hstart rfl).2).symm

theorem element_written {name : String} (h : IsDotted name) (dimensions dots : Nat) :
    element (written name dimensions dots) = name := by
  obtain ⟨cs, c, hname, hc⟩ := h.exists_last
  have hne : ∀ d, Token.isWordPart d = false → c ≠ d := by
    rintro d hd rfl
    rw [hc] at hd
    cases hd
  have hbracket : ¬ "[]".toList <:+ name.toList := by
    rw [hname]
    exact not_suffix_of_last ['['] (hne ']' (by decide))
  have hdots : ¬ "...".toList <:+
      (name ++ String.join (List.replicate dimensions "[]")).toList := by
    rw [String.toList_append, toList_join_replicate, hname]
    cases dimensions with
    | zero =>
      rw [List.replicate_zero, List.flatten_nil, List.append_nil]
      exact not_suffix_of_last ['.', '.'] (hne '.' (by decide))
    | succ n =>
      have hlast : (cs ++ [c]) ++ (List.replicate (n + 1) "[]".toList).flatten =
          ((cs ++ [c]) ++ (List.replicate n "[]".toList).flatten ++ ['[']) ++ [']'] := by
        rw [List.replicate_succ', List.flatten_append]
        simp
      rw [hlast]
      exact not_suffix_of_last ['.', '.'] (by decide)
  rw [element, written, trimEndings_append_join (by decide) hdots,
    trimEndings_append_join (by decide) hbracket]

theorem simple_of_isDotted {name : String} (h : IsDotted name) :
    simple name = lastSegment name := by
  have helement := element_written h 0 0
  rw [written_zero] at helement
  rw [simple, helement]

end Lineage.Java.TypeName
