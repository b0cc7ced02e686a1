import Lineage.Json
import Lineage.Json.Reader
import Mathlib.Data.List.Forall2
/-! # Written documents are read

A reader takes a written value off the front of whatever follows, in every layout whose line breaks
are blank. Texts and numbers are read as they were written, lists element by element, and records
field by field. Main statements: `reads_text`, `reads_below`, `reads_list`, `reads_record`.
-/
namespace Lineage.Json.Reader

variable {α β ρ : Type}

/-! ## Steps of readers -/

theorem bind_of_ok {r : Reader β} {f : β → Reader α} {cs mid : List Char} {y : β}
    (h : r cs = .ok (y, mid)) : (r >>= f) cs = f y mid := by
  change (r cs >>= fun p => f p.1 p.2) = _
  rw [h]
  rfl

theorem ahead?_blanks {blanks cs : List Char} {c : Char} (hblanks : ∀ b ∈ blanks, isSpace b = true)
    (hc : isSpace c = false) : ahead? (blanks ++ c :: cs) = .ok (some c, c :: cs) := by
  have hdrop : (blanks ++ c :: cs).dropWhile isSpace = c :: cs := by
    rw [List.dropWhile_append_of_pos hblanks, List.dropWhile_cons_of_neg (by simp [hc])]
  unfold ahead?
  change peek? ((blanks ++ c :: cs).dropWhile isSpace) = _
  rw [hdrop]
  rfl

theorem ahead?_cons {c : Char} (hc : isSpace c = false) (cs : List Char) :
    ahead? (c :: cs) = .ok (some c, c :: cs) :=
  @ahead?_blanks [] cs c (List.forall_mem_nil _) hc

theorem get_eq (cs : List Char) : (get : Reader (List Char)) cs = .ok (cs, cs) := rfl

theorem peek?_eq (cs : List Char) : peek? cs = .ok (cs.head?, cs) := rfl

theorem skip_cons (c : Char) (cs : List Char) : skip (c :: cs) = .ok ((), cs) := rfl

theorem next_cons (c : Char) (cs : List Char) : next (c :: cs) = .ok (c, cs) := rfl

theorem exists_succ {n fuel : Nat} (h : n < fuel) : ∃ m, fuel = m + 1 :=
  Nat.exists_eq_add_one.mpr (Nat.zero_lt_of_lt h)

/-! ## Texts -/

theorem length_le_utf8ByteSize (cs : List Char) : cs.length ≤ (String.ofList cs).utf8ByteSize := by
  induction cs with
  | nil => exact Nat.zero_le _
  | cons c cs ih =>
    have hc := Char.utf8Size_pos c
    rw [String.ofList_cons, String.utf8ByteSize_append, String.utf8ByteSize_singleton,
      List.length_cons]
    omega

theorem unit_cons {a b c d : Char} {n : Nat} (h : unit? a b c d = some n) (rest : List Char) :
    unit (a :: b :: c :: d :: rest) = .ok (n, rest) := by
  have hsize := length_le_utf8ByteSize (a :: b :: c :: d :: rest)
  rw [List.length_cons, List.length_cons, List.length_cons, List.length_cons] at hsize
  unfold unit
  rw [bind_of_ok (get_eq _), if_neg (by omega)]
  dsimp only
  rw [h]
  rfl

theorem hexDigit?_digitChar : ∀ n < 16, Text.hexDigit? (Nat.digitChar n) = some n := by decide

theorem unit?_control {c : Char} (h : c.toNat < 0x20) :
    unit? '0' '0' (Nat.digitChar (c.toNat / 16)) (Nat.digitChar (c.toNat % 16)) = some c.toNat := by
  have hzero : Text.hexDigit? '0' = some 0 := rfl
  rw [unit?, hzero, hexDigit?_digitChar _ (by omega), hexDigit?_digitChar _ (by omega)]
  exact congrArg some (by omega)

/-- What is read after the backslash of an escaped character. -/
theorem escapedChar_cases (c : Char) :
    escapedChar c = [c] ∧ c ≠ '"' ∧ c ≠ '\\' ∧ 0x20 ≤ c.toNat ∨
      ∃ e, escapedChar c = '\\' :: e ∧ ∀ rest, escaped false (e ++ rest) = .ok (c, rest) := by
  unfold escapedChar
  -- Seven characters have an escape of their own, other controls one by number.
  iterate 7
    split
    · rename_i h
      refine .inr ⟨_, rfl, fun rest => ?_⟩
      rw [h]
      rfl
  split
  · rename_i h
    refine .inr ⟨_, rfl, fun rest => ?_⟩
    have hfrom : characterFrom c.toNat rest = .ok (c, rest) := by
      unfold characterFrom
      rw [if_neg (by omega), if_pos (by omega), Char.ofNat_toNat]
      rfl
    unfold escaped
    simp only [List.cons_append, List.nil_append]
    rw [bind_of_ok (next_cons _ _)]
    exact (bind_of_ok (unit_cons (unit?_control h) rest)).trans hfrom
  · rename_i hquote hslash _ _ _ _ _ h
    exact .inl ⟨rfl, hquote, hslash, Nat.le_of_not_lt h⟩

theorem characters_escapedChar {c : Char} {fuel : Nat} {rest out cs : List Char}
    (h : characters false fuel rest = .ok (cs, out)) :
    characters false (fuel + 1) (escapedChar c ++ rest) = .ok (c :: cs, out) := by
  unfold characters
  rcases escapedChar_cases c with ⟨hc, hquote, hslash, hspace⟩ | ⟨e, hc, he⟩
  · rw [hc, List.singleton_append, bind_of_ok (next_cons _ _), if_neg hquote, if_neg hslash,
      if_neg (Nat.not_lt.mpr hspace), bind_of_ok h]
    rfl
  · rw [hc, List.cons_append, bind_of_ok (next_cons _ _), if_neg (by decide), if_pos rfl,
      bind_of_ok (he rest), bind_of_ok h]
    rfl

theorem characters_escaped (cs rest : List Char) {fuel : Nat} (hfuel : cs.length < fuel) :
    characters false fuel (cs.flatMap escapedChar ++ '"' :: rest) = .ok (cs, rest) := by
  induction cs generalizing fuel with
  | nil =>
    obtain ⟨fuel, rfl⟩ := exists_succ hfuel
    rfl
  | cons c cs ih =>
    obtain ⟨fuel, rfl⟩ := exists_succ hfuel
    rw [List.flatMap_cons, List.append_assoc]
    exact characters_escapedChar (ih (Nat.lt_of_succ_lt_succ hfuel))

theorem length_le_flatMap_escapedChar (cs : List Char) :
    cs.length ≤ (cs.flatMap escapedChar).length := by
  induction cs with
  | nil => exact Nat.le_refl _
  | cons c cs ih =>
    have hc : 1 ≤ (escapedChar c).length := by
      rcases escapedChar_cases c with ⟨hc, -⟩ | ⟨e, hc, -⟩ <;> simp [hc]
    rw [List.flatMap_cons, List.length_append, List.length_cons]
    omega

theorem quotedRest_literal (s : String) (rest : List Char) :
    quotedRest false (s.toList.flatMap escapedChar ++ '"' :: rest) = .ok (s, rest) := by
  have hlength := length_le_flatMap_escapedChar s.toList
  unfold quotedRest
  rw [bind_of_ok (get_eq _), bind_of_ok (characters_escaped s.toList rest ?_)]
  · exact congrArg (fun t => Except.ok (t, rest)) String.ofList_toList
  · rw [List.length_append, List.length_cons]
    omega

/-! ## Numbers -/

theorem digitsValue_snoc (cs : List Char) (c : Char) :
    Text.digitsValue (cs ++ [c]) = 10 * Text.digitsValue cs + (c.toNat - '0'.toNat) := by
  simp [Text.digitsValue, Nat.mul_comm]

theorem digitsValue_toDigits (n : Nat) : Text.digitsValue (Nat.toDigits 10 n) = n := by
  induction n using Nat.strongRecOn with
  | ind n ih =>
    have hdigit : ∀ d < 10, (Nat.digitChar d).toNat - '0'.toNat = d := by decide
    by_cases hn : n < 10
    · rw [Nat.toDigits_of_lt_base hn]
      exact (digitsValue_snoc [] _).trans (by simpa [Text.digitsValue] using hdigit n hn)
    · rw [Nat.toDigits_of_base_le (by decide) (Nat.le_of_not_lt hn), digitsValue_snoc,
        ih _ (by omega), hdigit _ (by omega)]
      omega

theorem isDigit_of_mem_toDigits {n : Nat} {c : Char} (h : c ∈ Nat.toDigits 10 n) :
    Text.isDigit c = true := by
  have hc := Nat.isDigit_of_mem_toDigits (by decide) (by decide) h
  simpa [Text.isDigit, Char.isDigit, Char.le_def] using hc

/-- Only zero is written with a zero at the front. -/
theorem toDigits_cases (n : Nat) :
    Nat.toDigits 10 n = ['0'] ∨ ∃ c cs, Nat.toDigits 10 n = c :: cs ∧ c ≠ '0' := by
  induction n using Nat.strongRecOn with
  | ind n ih =>
    by_cases hn : n < 10
    · rw [Nat.toDigits_of_lt_base hn]
      have hdigit : ∀ d < 10, Nat.digitChar d = '0' ∨ Nat.digitChar d ≠ '0' := by decide
      rcases hdigit n hn with h | h
      · exact .inl (congrArg (fun c => [c]) h)
      · exact .inr ⟨_, _, rfl, h⟩
    · rw [Nat.toDigits_of_base_le (by decide) (Nat.le_of_not_lt hn)]
      rcases ih (n / 10) (by omega) with h | ⟨c, cs, h, hc⟩
      · have hvalue := digitsValue_toDigits (n / 10)
        rw [h] at hvalue
        have hzero : n / 10 = 0 := hvalue.symm
        omega
      · exact .inr ⟨c, _, by rw [h, List.cons_append], hc⟩

/-- What may follow a written value. -/
def Ends (rest : List Char) : Prop :=
  ∀ c ∈ rest.head?, isSpace c = true ∨ c = ',' ∨ c = ']' ∨ c = '\x7d'

theorem ends_cons {c : Char} (hc : isSpace c = true ∨ c = ',' ∨ c = ']' ∨ c = '\x7d')
    (rest : List Char) : Ends (c :: rest) := by
  rintro _ ⟨⟩
  exact hc

theorem ends_append {blanks rest : List Char} (hblanks : ∀ c ∈ blanks, isSpace c = true)
    (h : Ends rest) : Ends (blanks ++ rest) := by
  cases blanks with
  | nil => exact h
  | cons b blanks => exact ends_cons (.inl (hblanks b List.mem_cons_self)) _

theorem Ends.head?_ne {rest : List Char} (h : Ends rest) {c : Char}
    (hc : ¬(isSpace c = true ∨ c = ',' ∨ c = ']' ∨ c = '\x7d')) : rest.head? ≠ some c :=
  fun hhead => hc (h c hhead)

theorem isDigit_of_ends {rest : List Char} (h : Ends rest) :
    ∀ c ∈ rest.head?, Text.isDigit c = false := by
  intro c hc
  rcases h c hc with hspace | rfl | rfl | rfl
  · simp only [isSpace, Bool.or_eq_true, decide_eq_true_eq, or_assoc] at hspace
    rcases hspace with rfl | rfl | rfl | rfl <;> decide
  · decide
  · decide
  · decide

theorem digits_append {ds rest : List Char} (hds : ∀ c ∈ ds, Text.isDigit c = true)
    (hrest : Ends rest) : digits (ds ++ rest) = .ok (ds, rest) := by
  have hnone : rest.takeWhile Text.isDigit = [] ∧ rest.dropWhile Text.isDigit = rest := by
    cases rest with
    | nil => exact ⟨rfl, rfl⟩
    | cons c rest => simp [isDigit_of_ends hrest c rfl]
  change Except.ok ((ds ++ rest).takeWhile Text.isDigit, (ds ++ rest).dropWhile Text.isDigit) = _
  rw [List.takeWhile_append_of_pos hds, List.dropWhile_append_of_pos hds, hnone.1, hnone.2,
    List.append_nil]

theorem wholePart_toDigits (n : Nat) (f : Fault) {rest : List Char} (hrest : Ends rest) :
    wholePart f (Nat.toDigits 10 n ++ rest) = .ok (Nat.toDigits 10 n, rest) := by
  unfold wholePart
  rw [bind_of_ok (digits_append (fun c hc => isDigit_of_mem_toDigits hc) hrest)]
  rcases toDigits_cases n with h | ⟨c, cs, h, hc⟩
  · rw [h]
    rfl
  · rw [h]
    simp only [List.cons.injEq, hc, false_and, imp_self, implies_true]
    rfl

theorem unsigned_toDigits {n : Nat} (hn : n < UInt64.size) {rest : List Char} (hrest : Ends rest) :
    unsigned (Nat.toDigits 10 n ++ rest) = .ok (some n, rest) := by
  have hfraction : fraction .truncated rest = .ok (none, rest) := by
    unfold fraction
    rw [bind_of_ok (peek?_eq rest), if_neg (hrest.head?_ne (by decide))]
    rfl
  have hpower : power .truncated rest = .ok (none, rest) := by
    unfold power
    rw [bind_of_ok (peek?_eq rest)]
    have hsmall : rest.head? ≠ some 'e' := hrest.head?_ne (by decide)
    have hcapital : rest.head? ≠ some 'E' := hrest.head?_ne (by decide)
    simp only
    rfl
  unfold unsigned
  rw [bind_of_ok (wholePart_toDigits n _ hrest), bind_of_ok hfraction, bind_of_ok hpower]
  simp only [digitsValue_toDigits, Option.isSome_none, Bool.false_or, Nat.not_le.mpr hn,
    decide_false, Bool.false_and]
  rfl

/-! ## Values -/

/-- Whatever blanks stand before the text and whatever follows it, the reader takes the text alone
and gives the value. -/
structure Reads (r : Reader α) (text : String) (x : α) : Prop where
  starts : ∃ c cs, text.toList = c :: cs ∧ isSpace c = false ∧ c ≠ ']'
  reads : ∀ blanks rest, (∀ c ∈ blanks, isSpace c = true) → Ends rest →
    r (blanks ++ text.toList ++ rest) = .ok (x, rest)

theorem toList_literal (s : String) :
    (literal s).toList = '"' :: (s.toList.flatMap escapedChar ++ ['"']) := String.toList_ofList

theorem reads_text (s : String) : Reads text (literal s) s where
  starts := ⟨'"', s.toList.flatMap escapedChar ++ ['"'], toList_literal s, by decide, by decide⟩
  reads blanks rest hblanks _ := by
    unfold text
    rw [toList_literal, List.append_assoc, List.cons_append,
      bind_of_ok (ahead?_blanks hblanks (by decide))]
    refine (bind_of_ok (skip_cons _ _)).trans ?_
    rw [List.append_assoc]
    exact quotedRest_literal s rest

theorem starts_of_isDigit {c : Char} (h : Text.isDigit c = true) :
    isSpace c = false ∧ c ≠ ']' ∧ c ≠ '-' := by
  have hdigit : '0' ≤ c ∧ c ≤ '9' := by simpa [Text.isDigit] using h
  have hn : 48 ≤ c.toNat ∧ c.toNat ≤ 57 := hdigit
  refine ⟨?_, ?_, ?_⟩
  · rw [← Bool.not_eq_true]
    simp only [isSpace, Bool.or_eq_true, decide_eq_true_eq]
    rintro (((rfl | rfl) | rfl) | rfl) <;> simp at hn
  · rintro rfl
    simp at hn
  · rintro rfl
    simp at hn

theorem reads_below {bound n : Nat} (hn : n < bound) (hbound : bound ≤ UInt64.size) :
    Reads (below bound) (toString (n : Int)) n := by
  have htext : (toString (n : Int)).toList = Nat.toDigits 10 n := String.toList_ofList
  obtain ⟨c, cs, hcons⟩ : ∃ c cs, Nat.toDigits 10 n = c :: cs := by
    rcases toDigits_cases n with h | ⟨c, cs, h, -⟩
    · exact ⟨_, _, h⟩
    · exact ⟨_, _, h⟩
  have hdigit : Text.isDigit c = true := isDigit_of_mem_toDigits (hcons ▸ List.mem_cons_self)
  obtain ⟨hspace, hbracket, hsign⟩ := starts_of_isDigit hdigit
  refine ⟨⟨c, cs, htext.trans hcons, hspace, hbracket⟩, fun blanks rest hblanks hrest => ?_⟩
  have hunsigned := unsigned_toDigits (Nat.lt_of_lt_of_le hn hbound) hrest
  rw [hcons, List.cons_append] at hunsigned
  unfold below
  rw [htext, hcons, List.append_assoc, List.cons_append, bind_of_ok (ahead?_blanks hblanks hspace)]
  simp only [hdigit, if_true]
  rw [bind_of_ok hunsigned]
  simp only [hn, if_true]
  rfl

theorem reads_nullable {r : Reader α} {text : String} {x : α} (h : Reads r text x)
    (hnull : text.toList.head? ≠ some 'n') : Reads (nullable r) text (some x) where
  starts := h.starts
  reads blanks rest hblanks hrest := by
    obtain ⟨c, cs, hcons, hspace, -⟩ := h.starts
    have hreads := h.reads [] rest (List.forall_mem_nil _) hrest
    rw [List.nil_append, hcons, List.cons_append] at hreads
    have hn : c ≠ 'n' := by
      rintro rfl
      exact hnull (by rw [hcons, List.head?_cons])
    unfold nullable
    rw [hcons, List.append_assoc, List.cons_append, bind_of_ok (ahead?_blanks hblanks hspace)]
    simp only [Option.some.injEq, hn, imp_false, not_false_eq_true]
    rw [bind_of_ok hreads]
    rfl

theorem reads_null (r : Reader α) : Reads (nullable r) "null" none where
  starts := ⟨'n', "ull".toList, by decide, by decide, by decide⟩
  reads blanks rest hblanks hrest := by
    have htext : "null".toList = 'n' :: "ull".toList := by decide
    unfold nullable
    rw [htext, List.append_assoc, List.cons_append, bind_of_ok (ahead?_blanks hblanks (by decide))]
    rfl

/-! ## Lists -/

/-- Line breaks are blank, and a name is followed by a colon and blanks. -/
structure Blank (l : Layout) : Prop where
  lineBreak : ∀ depth, ∀ c ∈ (l.lineBreak depth).toList, isSpace c = true
  colon : ∃ after, l.colon.toList = ':' :: after ∧ ∀ c ∈ after, isSpace c = true

def tail (l : Layout) (depth : Nat) (right : Char) (parts : List String) : List Char :=
  parts.flatMap (fun p => ',' :: (l.lineBreak (depth + 1)).toList ++ p.toList) ++
    ((l.lineBreak depth).toList ++ [right])

theorem toList_join (sep p : String) (ps : List String) : (Text.join sep (p :: ps)).toList =
    p.toList ++ ps.flatMap fun q => sep.toList ++ q.toList := by
  induction ps generalizing p with
  | nil => simp [Text.join]
  | cons q ps ih =>
    have h := ih q
    rw [Text.join] at h ⊢
    rw [String.intercalate_cons_cons, String.toList_append, String.toList_append, h,
      List.flatMap_cons, List.append_assoc]
    simp

theorem toList_bracketed_nil (l : Layout) (depth : Nat) (left right : Char) :
    (bracketed l depth (String.singleton left) (String.singleton right) []).toList =
      [left, right] := by
  simp [bracketed]

theorem toList_bracketed_cons (l : Layout) (depth : Nat) (left right : Char) (p : String)
    (ps : List String) :
    (bracketed l depth (String.singleton left) (String.singleton right) (p :: ps)).toList =
      left :: ((l.lineBreak (depth + 1)).toList ++ (p.toList ++ tail l depth right ps)) := by
  simp [bracketed, tail, toList_join]

theorem another_first {c : Char} (hc : isSpace c = false) (hne : c ≠ ']') {blanks : List Char}
    (hblanks : ∀ b ∈ blanks, isSpace b = true) (cs : List Char) :
    another true (blanks ++ c :: cs) = .ok (true, c :: cs) := by
  unfold another
  rw [bind_of_ok (ahead?_blanks hblanks hc)]
  simp only
  rfl

theorem another_next {c : Char} (hc : isSpace c = false) (hne : c ≠ ']') {blanks : List Char}
    (hblanks : ∀ b ∈ blanks, isSpace b = true) (cs : List Char) :
    another false (',' :: blanks ++ c :: cs) = .ok (true, c :: cs) := by
  unfold another
  rw [List.cons_append, bind_of_ok (ahead?_cons (by decide) _)]
  refine (bind_of_ok (skip_cons _ _)).trans ?_
  rw [bind_of_ok (ahead?_blanks hblanks hc)]
  simp only
  rfl

theorem another_last {blanks : List Char} (hblanks : ∀ b ∈ blanks, isSpace b = true) (first : Bool)
    (cs : List Char) : another first (blanks ++ ']' :: cs) = .ok (false, ']' :: cs) := by
  unfold another
  rw [bind_of_ok (ahead?_blanks hblanks (by decide))]
  rfl

theorem length_le_tail (l : Layout) (depth : Nat) (right : Char) (ps : List String) :
    ps.length ≤ (tail l depth right ps).length := by
  have hparts : ps.length ≤
      (ps.flatMap fun p => ',' :: (l.lineBreak (depth + 1)).toList ++ p.toList).length := by
    induction ps with
    | nil => exact Nat.le_refl _
    | cons p ps ih =>
      simp only [List.flatMap_cons, List.length_append, List.length_cons]
      omega
  rw [tail, List.length_append]
  omega

section Bracketed
variable {l : Layout} (hl : Blank l)
include hl

theorem ends_tail {right : Char} (hright : right = ']' ∨ right = '\x7d') (depth : Nat)
    (ps : List String) (rest : List Char) : Ends (tail l depth right ps ++ rest) := by
  cases ps with
  | cons p ps => exact ends_cons (.inr (.inl rfl)) _
  | nil =>
    rw [tail, List.flatMap_nil, List.nil_append, List.append_assoc]
    exact ends_append (hl.lineBreak depth) (ends_cons (.inr (.inr hright)) _)

theorem elements_tail {r : Reader α} {ps : List String} {xs : List α}
    (h : List.Forall₂ (Reads r) ps xs) (depth : Nat) (rest : List Char) {fuel : Nat}
    (hfuel : ps.length < fuel) :
    elements r fuel false (tail l depth ']' ps ++ rest) = .ok (xs, rest) := by
  induction h generalizing fuel with
  | nil =>
    obtain ⟨fuel, rfl⟩ := exists_succ hfuel
    unfold elements
    rw [tail, List.flatMap_nil, List.nil_append, List.append_assoc, List.singleton_append,
      bind_of_ok (another_last (hl.lineBreak depth) false rest)]
    rfl
  | @cons p x ps xs hx _ ih =>
    obtain ⟨fuel, rfl⟩ := exists_succ hfuel
    obtain ⟨c, cs, hcons, hspace, hne⟩ := hx.starts
    have htail : tail l depth ']' (p :: ps) ++ rest =
        ',' :: (l.lineBreak (depth + 1)).toList ++ c :: (cs ++ (tail l depth ']' ps ++ rest)) := by
      simp [tail, hcons]
    have hreads := hx.reads [] (tail l depth ']' ps ++ rest) (List.forall_mem_nil _)
      (ends_tail hl (.inl rfl) depth ps rest)
    rw [List.nil_append, hcons, List.cons_append] at hreads
    unfold elements
    rw [htail, bind_of_ok (another_next hspace hne (hl.lineBreak _) _), if_pos rfl,
      bind_of_ok hreads, bind_of_ok (ih (Nat.lt_of_succ_lt_succ hfuel))]
    rfl

theorem reads_list {r : Reader α} {ps : List String} {xs : List α}
    (h : List.Forall₂ (Reads r) ps xs) (depth : Nat) :
    Reads (list r) (bracketed l depth "[" "]" ps) xs := by
  have hleft : "[" = String.singleton '[' := rfl
  have hright : "]" = String.singleton ']' := rfl
  rw [hleft, hright]
  cases h with
  | nil =>
    have htext := toList_bracketed_nil l depth '[' ']'
    refine ⟨⟨'[', [']'], htext, by decide, by decide⟩, fun blanks rest hblanks _ => ?_⟩
    unfold list
    rw [htext, List.append_assoc, List.cons_append, bind_of_ok (ahead?_blanks hblanks (by decide))]
    rfl
  | @cons p x ps xs hx h =>
    have htext := toList_bracketed_cons l depth '[' ']' p ps
    refine ⟨⟨'[', _, htext, by decide, by decide⟩, fun blanks rest hblanks _ => ?_⟩
    obtain ⟨c, cs, hcons, hspace, hne⟩ := hx.starts
    have hlength := length_le_tail l depth ']' ps
    have hreads := hx.reads [] (tail l depth ']' ps ++ rest) (List.forall_mem_nil _)
      (ends_tail hl (.inl rfl) depth ps rest)
    rw [List.nil_append, hcons, List.cons_append] at hreads
    unfold list
    rw [htext, List.append_assoc, List.cons_append, bind_of_ok (ahead?_blanks hblanks (by decide))]
    refine (bind_of_ok (skip_cons _ _)).trans ?_
    refine (bind_of_ok (get_eq _)).trans ?_
    unfold elements
    rw [hcons, List.append_assoc, List.append_assoc, List.cons_append,
      bind_of_ok (another_first hspace hne (hl.lineBreak _) _), if_pos rfl,
      bind_of_ok hreads, bind_of_ok (elements_tail hl h depth rest ?_)]
    · rfl
    · simp only [List.length_append, List.length_cons]
      omega

end Bracketed

/-! ## Records -/

def fieldText (l : Layout) (p : String × String) : String := literal p.1 ++ l.colon ++ p.2

theorem anotherName_first {blanks : List Char} (hblanks : ∀ b ∈ blanks, isSpace b = true)
    (cs : List Char) : anotherName true (blanks ++ '"' :: cs) = .ok (true, cs) := by
  unfold anotherName
  rw [bind_of_ok (ahead?_blanks hblanks (by decide))]
  rfl

theorem anotherName_next {blanks : List Char} (hblanks : ∀ b ∈ blanks, isSpace b = true)
    (cs : List Char) : anotherName false (',' :: blanks ++ '"' :: cs) = .ok (true, cs) := by
  unfold anotherName
  rw [List.cons_append, bind_of_ok (ahead?_cons (by decide) _)]
  refine (bind_of_ok (skip_cons _ _)).trans ?_
  refine (bind_of_ok (ahead?_blanks hblanks (by decide))).trans ?_
  rfl

theorem anotherName_last {blanks : List Char} (hblanks : ∀ b ∈ blanks, isSpace b = true)
    (first : Bool) (cs : List Char) :
    anotherName first (blanks ++ '\x7d' :: cs) = .ok (false, cs) := by
  unfold anotherName
  rw [bind_of_ok (ahead?_blanks hblanks (by decide))]
  rfl

section Record
variable {fields : List (Field ρ)} {l : Layout} (hl : Blank l)
include hl

/-- One field is read, and then the fields after it. -/
theorem fromNames_field {f : Field ρ} {k v : String} {x x' : ρ} {first : Bool} {seen : List String}
    {cs rest : List Char} (hcs : anotherName first cs =
      .ok (true, k.toList.flatMap escapedChar ++ '"' :: (l.colon.toList ++ v.toList ++ rest)))
    (hf : fields.find? (·.name = k) = some f) (hk : k ∉ seen) (hv : Reads (f.read x) v x')
    (hrest : Ends rest) (fuel : Nat) :
    fromNames fields (fuel + 1) first seen x cs =
      fromNames fields fuel false (k :: seen) x' rest := by
  obtain ⟨after, hcolon, hafter⟩ := hl.colon
  have hread : colon (l.colon.toList ++ v.toList ++ rest) =
      .ok ((), after ++ v.toList ++ rest) := by
    rw [hcolon]
    rfl
  have hname := quotedRest_literal k (l.colon.toList ++ v.toList ++ rest)
  have hcontains : ¬seen.contains k = true := by simpa using hk
  conv_lhs => unfold fromNames
  rw [bind_of_ok hcs, if_pos rfl, bind_of_ok hname]
  simp only [hf]
  rw [if_neg hcontains, bind_of_ok hread, bind_of_ok (hv.reads after rest hafter hrest)]

omit hl in
theorem fromNames_last {blanks : List Char} (hblanks : ∀ b ∈ blanks, isSpace b = true)
    {seen : List String} (hrequired : ∀ f ∈ fields, f.required = true → f.name ∈ seen) (fuel : Nat)
    (first : Bool) (x : ρ) (rest : List Char) :
    fromNames fields (fuel + 1) first seen x (blanks ++ '\x7d' :: rest) = .ok (x, rest) := by
  have hall : (fields.all fun f => !f.required || seen.contains f.name) = true := by
    rw [List.all_eq_true]
    intro f hf
    cases hr : f.required with
    | false => rfl
    | true => simpa using hrequired f hf hr
  unfold fromNames
  rw [bind_of_ok (anotherName_last hblanks first rest), if_neg (by decide), if_pos hall]
  rfl

/-- The written fields fill the record in order. -/
inductive Fills (fields : List (Field ρ)) : ρ → List (String × String) → ρ → Prop
  | nil (x : ρ) : Fills fields x [] x
  | cons {f : Field ρ} {k v : String} {x x' y : ρ} {ps : List (String × String)}
    (hf : fields.find? (·.name = k) = some f) (hv : Reads (f.read x) v x')
    (h : Fills fields x' ps y) : Fills fields x ((k, v) :: ps) y

theorem fromNames_tail {x y : ρ} {ps : List (String × String)}
    (h : Fills fields x ps y) {seen : List String} (hnodup : (ps.map Prod.fst ++ seen).Nodup)
    (hrequired : ∀ f ∈ fields, f.required = true → f.name ∈ ps.map Prod.fst ++ seen)
    (depth : Nat) (rest : List Char) {fuel : Nat} (hfuel : ps.length < fuel) :
    fromNames fields fuel false seen x (tail l depth '\x7d' (ps.map (fieldText l)) ++ rest) =
      .ok (y, rest) := by
  induction h generalizing seen fuel with
  | nil x =>
    obtain ⟨fuel, rfl⟩ := exists_succ hfuel
    rw [tail, List.map_nil, List.flatMap_nil, List.nil_append, List.append_assoc]
    exact fromNames_last (hl.lineBreak depth) hrequired fuel false x rest
  | @cons f k v x x' y ps hf hv h ih =>
    obtain ⟨fuel, rfl⟩ := exists_succ hfuel
    have htail : tail l depth '\x7d' (((k, v) :: ps).map (fieldText l)) ++ rest =
        ',' :: (l.lineBreak (depth + 1)).toList ++ '"' :: (k.toList.flatMap escapedChar ++ '"' ::
          (l.colon.toList ++ v.toList ++
            (tail l depth '\x7d' (ps.map (fieldText l)) ++ rest))) := by
      simp [tail, fieldText, toList_literal]
    have hends := ends_tail hl (.inr rfl) depth (ps.map (fieldText l)) rest
    have hperm : (ps.map Prod.fst ++ k :: seen).Perm (((k, v) :: ps).map Prod.fst ++ seen) :=
      List.perm_middle
    rw [htail, fromNames_field hl (anotherName_next (hl.lineBreak _) _) hf ?_ hv hends]
    · apply ih
      · rwa [hperm.nodup_iff]
      · intro f' hf' hr
        rw [hperm.mem_iff]
        exact hrequired f' hf' hr
      · exact Nat.lt_of_succ_lt_succ hfuel
    · intro hk
      rw [List.map_cons, List.cons_append, List.nodup_cons] at hnodup
      exact hnodup.1 (List.mem_append_right _ hk)

theorem reads_record {x y : ρ} {ps : List (String × String)} (h : Fills fields x ps y)
    (hnodup : (ps.map Prod.fst).Nodup)
    (hrequired : ∀ f ∈ fields, f.required = true → f.name ∈ ps.map Prod.fst) (depth : Nat) :
    Reads (record fields x) (bracketed l depth "\x7b" "\x7d" (ps.map (fieldText l))) y := by
  have hleft : "\x7b" = String.singleton '\x7b' := rfl
  have hright : "\x7d" = String.singleton '\x7d' := rfl
  rw [hleft, hright]
  cases h with
  | nil x =>
    have htext := toList_bracketed_nil l depth '\x7b' '\x7d'
    refine ⟨⟨'\x7b', ['\x7d'], htext, by decide, by decide⟩, fun blanks rest hblanks _ => ?_⟩
    unfold record
    rw [List.map_nil, htext, List.append_assoc, List.cons_append,
      bind_of_ok (ahead?_blanks hblanks (by decide))]
    refine (bind_of_ok (skip_cons _ _)).trans ?_
    refine (bind_of_ok (get_eq _)).trans ?_
    exact fromNames_last (List.forall_mem_nil _) hrequired _ true x rest
  | @cons f k v x x' y ps hf hv h =>
    have htext := toList_bracketed_cons l depth '\x7b' '\x7d' (fieldText l (k, v))
      (ps.map (fieldText l))
    refine ⟨⟨'\x7b', _, htext, by decide, by decide⟩, fun blanks rest hblanks _ => ?_⟩
    have hends := ends_tail hl (.inr rfl) depth (ps.map (fieldText l)) rest
    have hfirst : (l.lineBreak (depth + 1)).toList ++ ((fieldText l (k, v)).toList ++
          tail l depth '\x7d' (ps.map (fieldText l))) ++ rest =
        (l.lineBreak (depth + 1)).toList ++ '"' :: (k.toList.flatMap escapedChar ++ '"' ::
          (l.colon.toList ++ v.toList ++
            (tail l depth '\x7d' (ps.map (fieldText l)) ++ rest))) := by
      simp [fieldText, toList_literal]
    have hlength := length_le_tail l depth '\x7d' (ps.map (fieldText l))
    unfold record
    rw [List.map_cons, htext, List.append_assoc, List.cons_append,
      bind_of_ok (ahead?_blanks hblanks (by decide))]
    refine (bind_of_ok (skip_cons _ _)).trans ?_
    refine (bind_of_ok (get_eq _)).trans ?_
    rw [hfirst, fromNames_field hl (anotherName_first (hl.lineBreak _) _) hf (by simp) hv hends]
    have hperm : ((ps.map Prod.fst) ++ [k]).Perm (((k, v) :: ps).map Prod.fst) :=
      List.perm_append_singleton _ _
    apply fromNames_tail hl h
    · rwa [hperm.nodup_iff]
    · intro f' hf' hr
      rw [hperm.mem_iff]
      exact hrequired f' hf' hr
    · simp only [List.length_append, List.length_cons, List.length_map] at hlength ⊢
      omega

end Record

/-! ## Documents -/

theorem Reads.map {r : Reader α} {text : String} {x : α} (h : Reads r text x) (f : α → β) :
    Reads (r >>= fun x => pure (f x)) text (f x) where
  starts := h.starts
  reads blanks rest hblanks hrest := by
    rw [bind_of_ok (h.reads blanks rest hblanks hrest)]
    rfl

theorem Reads.document {r : Reader α} {s : String} {x : α} (h : Reads r s x) :
    document r s = .ok x := by
  have hread := h.reads [] [] (List.forall_mem_nil _) nofun
  rw [List.nil_append, List.append_nil] at hread
  unfold Reader.document
  rw [hread]
  rfl

theorem blank_indented : Blank .indented where
  lineBreak depth c hc := by
    have hlist : c = '\n' ∨ ¬2 * depth = 0 ∧ c = ' ' := by
      simpa [Layout.indented] using hc
    rcases hlist with rfl | ⟨-, rfl⟩ <;> decide
  colon := ⟨[' '], rfl, by simp [isSpace]⟩

theorem writeItems_eq (l : Layout) (depth : Nat) (xs : List Json) :
    writeItems l depth xs = xs.map (write l depth) := by
  induction xs with
  | nil => rfl
  | cons x xs ih => rw [writeItems, ih, List.map_cons]

theorem writeFields_eq (l : Layout) (depth : Nat) (fs : List (String × Json)) :
    writeFields l depth fs = (fs.map fun f => (f.1, write l depth f.2)).map (fieldText l) := by
  induction fs with
  | nil => rfl
  | cons f fs ih =>
    rw [writeFields, ih]
    rfl

theorem reads_writeList {l : Layout} (hl : Blank l) {r : Reader α} {f : α → Json} {xs : List α}
    (h : ∀ x ∈ xs, ∀ depth, Reads r (write l depth (f x)) x) (depth : Nat) :
    Reads (list r) (write l depth (.list (xs.map f))) xs := by
  rw [write, writeItems_eq, List.map_map]
  apply reads_list hl
  rw [List.forall₂_map_left_iff, List.forall₂_same]
  exact fun x hx => h x hx _

theorem reads_option {l : Layout} {r : Reader α} {f : α → Json} {o : Option α} {depth : Nat}
    (h : ∀ x ∈ o, Reads r (write l depth (f x)) x ∧ (write l depth (f x)).toList.head? ≠ some 'n') :
    Reads (nullable r) (write l depth (.option f o)) o := by
  cases o with
  | none => exact reads_null r
  | some x => exact reads_nullable (h x rfl).1 (h x rfl).2

end Lineage.Json.Reader
