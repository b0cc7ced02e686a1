import Lineage.Proofs.Java.Commas
import Mathlib.Data.List.TakeWhile
/-! # Tokens with what stands before them

What stands before a token are blanks and whole comments, and an identifier is a word. Main statement:
`clean_ofSource`.
-/
namespace Lineage.Java

namespace Mode

variable {m : Mode} {c : Char} {cs : List Char}

theorem next_block (hm : m = block ∨ m = star ∧ c ≠ '/') :
    m.next c = if c = '*' then star else block := by
  rcases hm with rfl | ⟨rfl, hc⟩ <;> unfold next <;> split <;> simp_all

theorem spans_blockCommentRest (hm : m = block ∨ m = star ∧ cs.head? ≠ some '/') :
    Spans m (Token.blockCommentRest cs) code ∨
      Token.blockCommentRest cs = cs ∧ ∃ m', Spans m cs m' := by
  induction cs using Token.blockCommentRest.induct generalizing m with
  | case1 => exact .inr ⟨rfl, m, .nil m⟩
  | case2 rest =>
    refine .inl ?_
    rw [Token.blockCommentRest]
    rcases hm with rfl | ⟨rfl, -⟩ <;> exact ⟨by decide, by decide⟩
  | case3 c cs hend ih =>
    have hcode : m ≠ code := by rcases hm with rfl | ⟨rfl, -⟩ <;> decide
    have hnext := next_block (m := m) (c := c) (hm.imp_right fun h => ⟨h.1, by simpa using h.2⟩)
    have hafter : m.next c = block ∨ m.next c = star ∧ cs.head? ≠ some '/' := by
      rw [hnext]
      split
      · rename_i hstar
        refine .inr ⟨rfl, fun hhead => ?_⟩
        obtain ⟨rest, rfl⟩ := List.head?_eq_some_iff.mp hhead
        exact hend rest hstar rfl
      · exact .inl rfl
    rw [Token.blockCommentRest.eq_3 _ _ hend]
    rcases ih hafter with h | ⟨he, m', h⟩
    · exact .inl (h.cons (.inl hcode))
    · exact .inr ⟨by rw [he], m', h.cons (.inl hcode)⟩

end Mode

open Mode

/-! ## Tokens -/

/-- What stands between two tokens, given what follows: at the end it may be anything. -/
def Pending (trivia cs : List Char) : Prop :=
  ∃ m, Spans code trivia m ∧ (m = code ∨ cs = [] ∨ m = line ∧ cs.head? = some '\n')

structure Tree.IsComment (t : Tree) : Prop where
  kind : t.kind.isComment = true
  role : t.role = none
  children : t.children = []

structure Token.Clean (t : Token) : Prop where
  comments : ∀ c ∈ t.comments, c.IsComment
  trivia : t.text ≠ "" → Solid t.trivia
  gap : t.comments = [] → ∀ c ∈ t.trivia.toList, Token.isGap c = true
  word : t.cls = .identifier → IsWord t.text

namespace Token

theorem ne_of_isGap {c : Char} (h : isGap c = true) : c ≠ ',' ∧ c ≠ '/' := by
  constructor <;> rintro rfl <;> revert h <;> decide

theorem identifier_scan {cs : List Char} (h : (scan cs).1 = .identifier) :
    (scan cs).2 ≠ [] ∧ ∀ c ∈ (scan cs).2, isWordPart c = true := by
  unfold scan at h ⊢
  split at h
  · cases h
  · cases h
  · cases h
  · cases h
  · split at h
    · rename_i c rest _ _ _ hstart
      split at h
      · cases h
      · rename_i hsealed
        simp only [hstart, if_true, hsealed]
        refine ⟨List.cons_ne_nil _ _, fun d hd => ?_⟩
        rcases List.mem_cons.mp hd with rfl | hd
        · simp [isWordPart, hstart]
        · exact List.mem_takeWhile_imp hd
    · split at h
      · cases h
      · split at h <;> cases h

theorem drop_length_takeWhile (p : Char → Bool) (cs : List Char) :
    cs.drop (cs.takeWhile p).length = cs.dropWhile p := by
  induction cs with
  | nil => rfl
  | cons c cs ih => by_cases hc : p c <;> simp [hc, ih]

theorem code_of_pending {trivia rest : List Char} (h : Pending trivia ('/' :: rest)) :
    Spans code trivia code := by
  obtain ⟨m, htrivia, hm⟩ := h
  obtain rfl : m = code := by simpa using hm
  exact htrivia

theorem pending_lineComment {trivia rest : List Char} (h : Pending trivia ('/' :: '/' :: rest)) :
    Pending (trivia ++ '/' :: '/' :: rest.takeWhile (· ≠ '\n')) (rest.dropWhile (· ≠ '\n')) := by
  have hline : Spans code ('/' :: '/' :: rest.takeWhile (· ≠ '\n')) line := by
    refine .cons (.inr (by decide)) (.cons (.inl (by decide)) (spans_line fun c hc => ?_))
    simpa using List.mem_takeWhile_imp hc
  refine ⟨line, (code_of_pending h).append hline, ?_⟩
  cases hrest : rest.dropWhile (· ≠ '\n') with
  | nil => exact .inr (.inl rfl)
  | cons c cs =>
    have hne : rest.dropWhile (· ≠ '\n') ≠ [] := by rw [hrest]; exact List.cons_ne_nil c cs
    have hc := List.head_dropWhile_not _ hne
    simp only [hrest, List.head_cons, decide_eq_false_iff_not, not_not] at hc
    exact .inr (.inr ⟨rfl, congrArg some hc⟩)

theorem pending_blockComment {trivia rest : List Char} (h : Pending trivia ('/' :: '*' :: rest)) :
    Pending (trivia ++ '/' :: '*' :: blockCommentRest rest)
      (rest.drop (blockCommentRest rest).length) := by
  have hblock : ∀ {m}, Spans block (blockCommentRest rest) m →
      Spans code (trivia ++ '/' :: '*' :: blockCommentRest rest) m := fun hspans =>
    (code_of_pending h).append (.cons (.inr (by decide)) (.cons (.inl (by decide)) hspans))
  have hend : Spans block (blockCommentRest rest) code ∨
      blockCommentRest rest = rest ∧ ∃ m, Spans block rest m := spans_blockCommentRest (.inl rfl)
  rcases hend with hspans | ⟨hall, m, hspans⟩
  · exact ⟨code, hblock hspans, .inl rfl⟩
  · refine ⟨m, hblock (hall.symm ▸ hspans), .inr (.inl ?_)⟩
    rw [hall, List.drop_length]

/-- A line comment ends with the first of the blanks after it. -/
theorem pending_blanks {trivia rest : List Char} {c : Char} (h : Pending trivia (c :: rest))
    (hc : isGap c = true) (cs : List Char) :
    Pending (trivia ++ c :: rest.takeWhile Text.isBlank) cs := by
  obtain ⟨m, htrivia, hm⟩ := h
  have hblanks : Spans code (rest.takeWhile Text.isBlank) code :=
    spans_code fun d hd => ne_of_isGap (by simp [isGap, List.mem_takeWhile_imp hd])
  have hne := ne_of_isGap hc
  refine ⟨code, htrivia.append ?_, .inl rfl⟩
  rcases hm with rfl | hm | ⟨rfl, hbreak⟩
  · refine .cons (.inr hne.1) ?_
    rw [next_code hne.2]
    exact hblanks
  · cases hm
  · obtain rfl : c = '\n' := by simpa using hbreak
    exact .cons (.inl (by decide)) hblanks

theorem pending_scanTrivia {trivia cs run : List Char} {kind : Option Kind}
    (h : Pending trivia cs) (hs : scanTrivia cs = some (kind, run)) :
    Pending (trivia ++ run) (cs.drop run.length) ∧ ∀ k ∈ kind, k.isComment = true := by
  unfold scanTrivia at hs
  split at hs
  · cases hs
  · rename_i rest
    cases hs
    have hdrop : ('/' :: '/' :: rest).drop ('/' :: '/' :: rest.takeWhile (· ≠ '\n')).length =
        rest.dropWhile (· ≠ '\n') := drop_length_takeWhile _ rest
    rw [hdrop]
    exact ⟨pending_lineComment h, by simp [Kind.isComment]⟩
  · cases hs
    exact ⟨pending_blockComment h, by simp [Kind.isComment]⟩
  · split at hs
    · rename_i hblank
      cases hs
      exact ⟨pending_blanks h hblank _, by simp⟩
    · cases hs

/-- Where no comment is read there are only blanks. -/
theorem isGap_of_scanTrivia {cs run : List Char} (hs : scanTrivia cs = some (none, run)) :
    ∀ c ∈ run, isGap c = true := by
  unfold scanTrivia at hs
  split at hs
  · cases hs
  · cases hs
  · cases hs
  · split at hs
    · rename_i hgap
      cases hs
      intro c hc
      rcases List.mem_cons.mp hc with rfl | hc
      · exact hgap
      · simp [isGap, List.mem_takeWhile_imp hc]
    · cases hs

theorem solid_of_pending {trivia cs : List Char} (h : Pending trivia cs)
    (hs : scanTrivia cs = none) (hne : cs ≠ []) : Solid (String.ofList trivia) := by
  obtain ⟨m, htrivia, hm⟩ := h
  rw [Solid, String.toList_ofList]
  rcases hm with rfl | hm | ⟨-, hm⟩
  · exact htrivia
  · exact absurd hm hne
  · obtain ⟨rest, rfl⟩ := List.head?_eq_some_iff.mp hm
    cases hs

theorem clean_tokenize {fuel line : Nat} {trivia cs : List Char} {comments : List Tree}
    (h : Pending trivia cs) (hc : ∀ c ∈ comments, c.IsComment)
    (hg : comments = [] → ∀ c ∈ trivia, isGap c = true) :
    ∀ t ∈ tokenize fuel line trivia comments cs, t.Clean := by
  induction fuel generalizing line trivia comments cs with
  | zero => exact fun _ ht => nomatch ht
  | succ fuel ih =>
    intro t ht
    rw [tokenize] at ht
    split at ht
    · rename_i kind run hs
      obtain ⟨hrun, hkind⟩ := pending_scanTrivia h hs
      refine ih hrun (fun c hmem => ?_) (fun hnone c hmem => ?_) t ht
      · rcases List.mem_append.mp hmem with hmem | hmem
        · exact hc c hmem
        · cases kind with
          | none => cases hmem
          | some k =>
            rw [List.mem_singleton.mp hmem]
            exact ⟨hkind k rfl, rfl, rfl⟩
      · cases kind with
        | none =>
          rcases List.mem_append.mp hmem with hmem | hmem
          · exact hg (List.append_eq_nil_iff.mp hnone).1 c hmem
          · exact isGap_of_scanTrivia hs c hmem
        | some k => cases (List.append_eq_nil_iff.mp hnone).2
    · rename_i hs
      have hfirst : Token.Clean ⟨(scan cs).1, String.ofList (scan cs).2, line,
          line + lineBreaks (scan cs).2, String.ofList trivia, comments⟩ := by
        refine ⟨hc, fun hne => ?_, fun hnone c hmem => ?_, fun hcls => ?_⟩
        · have hcs : cs ≠ [] := by
            rintro rfl
            exact hne rfl
          exact solid_of_pending h hs hcs
        · exact hg hnone c (by simpa using hmem)
        · obtain ⟨hne, hword⟩ := identifier_scan hcls
          refine ⟨fun he => hne (String.ofList_eq_empty_iff.mp he), fun c hc => ?_⟩
          exact hword c (by simpa using hc)
      have hnext : ∀ t ∈ tokenize fuel (line + lineBreaks (scan cs).2) [] []
          (cs.drop (scan cs).2.length), t.Clean :=
        ih ⟨code, .nil _, .inl rfl⟩ nofun fun _ => nofun
      dsimp only at ht
      split at ht
      · rw [List.mem_singleton.mp ht]
        exact hfirst
      · rcases List.mem_cons.mp ht with rfl | ht
        · exact hfirst
        · exact hnext t ht

theorem clean_ofSource (source : String) : ∀ t ∈ ofSource source, t.Clean :=
  clean_tokenize ⟨code, .nil _, .inl rfl⟩ nofun fun _ => nofun

end Token

end Lineage.Java
