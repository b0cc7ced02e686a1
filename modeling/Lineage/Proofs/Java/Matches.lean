import Lineage.Java.Rule
import Lineage.Proofs.Java.Spelling
import Lineage.Proofs.Java.Tokens
/-! # What rules match

The interpreter of grammar rules as a relation, which forgets in what order the alternatives of a
choice are tried. What holds of all nodes that the rules of a grammar build holds all over the trees
that they match. Main statements: `matches_of_run`, `Matches.all`.
-/
namespace Lineage.Java

namespace Rule

variable {S : Type} {g : S → Rule S}

/-- The pieces in a role, if there is one for them. -/
def playing (r? : Option Role) (ps : List Piece) : List Piece :=
  r?.elim ps fun x => ps.map (Piece.withRole x)

inductive Matches (g : S → Rule S) : Rule S → List Token → List Piece → List Token → Prop
  | word {text : String} {t : Token} (ts : List Token) (h : t.text = text) :
    Matches g (word text) (t :: ts) [.ofToken .word t] ts
  | glued {text : String} {t : Token} (ts : List Token) (h : t.text = text) :
    Matches g (glued text) (t :: ts) [.ofToken .word t] ts
  | namedWord {kind : Kind} {text : String} {t : Token} (ts : List Token) (h : t.text = text) :
    Matches g (namedWord kind text) (t :: ts) [.ofToken kind t] ts
  | leaf {kind : Kind} {cls : TokenClass} {t : Token} (ts : List Token) (h : t.cls = cls) :
    Matches g (leaf kind cls) (t :: ts) [.ofToken kind t] ts
  | done (ts : List Token) : Matches g (seq []) ts [] ts
  | seq {r : Rule S} {rs : List (Rule S)} {ts ts₁ ts₂ : List Token} {a b : List Piece}
    (h : Matches g r ts a ts₁) (hs : Matches g (seq rs) ts₁ b ts₂) :
    Matches g (seq (r :: rs)) ts (a ++ b) ts₂
  | choice {r : Rule S} {rs : List (Rule S)} {ts ts₁ : List Token} {a : List Piece} (hr : r ∈ rs)
    (h : Matches g r ts a ts₁) : Matches g (choice rs) ts a ts₁
  | stop {r : Rule S} (ts : List Token) : Matches g (many r) ts [] ts
  | many {r : Rule S} {ts ts₁ ts₂ : List Token} {a b : List Piece} (h : Matches g r ts a ts₁)
    (hs : Matches g (many r) ts₁ b ts₂) : Matches g (many r) ts (a ++ b) ts₂
  | ahead {r : Rule S} (ts : List Token) : Matches g (ahead r) ts [] ts
  | absent {r : Rule S} (ts : List Token) : Matches g (absent r) ts [] ts
  | symbol {s : S} {ts ts₁ : List Token} {a : List Piece} (h : Matches g (g s) ts a ts₁) :
    Matches g (symbol s) ts a ts₁
  | node {kind : Kind} {r : Rule S} {ts ts₁ : List Token} {a : List Piece}
    (h : Matches g r ts a ts₁) : Matches g (node kind r) ts [.join kind a] ts₁
  | role {x : Role} {r : Rule S} {ts ts₁ : List Token} {a : List Piece} (h : Matches g r ts a ts₁) :
    Matches g (role x r) ts (a.map (Piece.withRole x)) ts₁
  | chain {head : Rule S} {tails : List (Kind × Option Role × Rule S)} {ts ts₁ : List Token}
    {a : List Piece} (h : Matches g head ts a ts₁) : Matches g (chain head tails) ts a ts₁
  | next {head r : Rule S} {tails : List (Kind × Option Role × Rule S)} {kind : Kind}
    {r? : Option Role} {ts ts₁ ts₂ : List Token} {a b : List Piece}
    (h : Matches g (chain head tails) ts a ts₁) (ht : (kind, r?, r) ∈ tails)
    (hr : Matches g r ts₁ b ts₂) :
    Matches g (chain head tails) ts [.join kind (playing r? a ++ b)] ts₂
  | begun {start r : Rule S} {ends : List (Kind × Rule S)} {kind : Kind} {ts ts₁ ts₂ : List Token}
    {a b : List Piece} (h : Matches g start ts a ts₁) (he : (kind, r) ∈ ends)
    (hr : Matches g r ts₁ b ts₂) : Matches g (begun start ends) ts [.join kind (a ++ b)] ts₂

theorem eq_of_takeIf {ok : Token → Bool} {kind : Kind} {ts ts' : List Token} {a : List Piece}
    (h : takeIf ok kind ts = some (a, ts')) :
    ∃ t, ok t = true ∧ ts = t :: ts' ∧ a = [.ofToken kind t] := by
  cases ts with
  | nil => cases h
  | cons t ts =>
    rw [takeIf] at h
    split at h
    · rename_i hok
      cases h
      exact ⟨t, hok, rfl, rfl⟩
    · cases h

/-- What the interpreter may rely on for runs of some depth. -/
structure Sound (g : S → Rule S) (fuel : Nat) : Prop where
  run : ∀ {r : Rule S} {ts ts' : List Token} {a : List Piece},
    Rule.run g fuel r ts = some (a, ts') → Matches g r ts a ts'
  tails : ∀ {head : Rule S} {all rest : List (Kind × Option Role × Rule S)}
    {ts ts₁ ts' : List Token} {a b : List Piece}, Matches g (chain head all) ts a ts₁ →
    (∀ e ∈ rest, e ∈ all) → Rule.run.runTails g fuel all rest a ts₁ = some (b, ts') →
    Matches g (chain head all) ts b ts'
  ends : ∀ {start : Rule S} {all rest : List (Kind × Rule S)} {ts ts₁ ts' : List Token}
    {a b : List Piece}, Matches g start ts a ts₁ → (∀ e ∈ rest, e ∈ all) →
    Rule.run.runEnds g fuel rest a ts₁ = some (b, ts') → Matches g (begun start all) ts b ts'

theorem Sound.run_succ {fuel : Nat} (h : Sound g fuel) {r : Rule S} {ts ts' : List Token}
    {a : List Piece} (hr : Rule.run g (fuel + 1) r ts = some (a, ts')) : Matches g r ts a ts' := by
  cases r with
  | word text =>
    obtain ⟨t, hok, rfl, rfl⟩ := eq_of_takeIf hr
    exact .word ts' (of_decide_eq_true hok)
  | glued text =>
    obtain ⟨t, hok, rfl, rfl⟩ := eq_of_takeIf hr
    exact .glued ts' (of_decide_eq_true (Bool.and_eq_true_iff.mp hok).1)
  | namedWord kind text =>
    obtain ⟨t, hok, rfl, rfl⟩ := eq_of_takeIf hr
    exact .namedWord ts' (of_decide_eq_true hok)
  | leaf kind cls =>
    obtain ⟨t, hok, rfl, rfl⟩ := eq_of_takeIf hr
    exact .leaf ts' (of_decide_eq_true hok)
  | seq rs =>
    cases rs with
    | nil =>
      cases hr
      exact .done ts
    | cons r rs =>
      rw [Rule.run] at hr
      split at hr
      · cases hr
      · rename_i a ts₁ ha
        split at hr
        · cases hr
        · rename_i b ts₂ hb
          cases hr
          exact .seq (h.run ha) (h.run hb)
  | choice rs =>
    cases rs with
    | nil => cases hr
    | cons r rs =>
      rw [Rule.run] at hr
      split at hr
      · rename_i m hm
        cases hr
        exact .choice List.mem_cons_self (h.run hm)
      · cases h.run hr with
        | choice hmem hm => exact .choice (List.mem_cons_of_mem _ hmem) hm
  | many r =>
    rw [Rule.run] at hr
    split at hr
    · cases hr
      exact .stop ts
    · cases hr
      exact .stop ts
    · rename_i a₁ rest _ ha
      split at hr
      · cases hr
      · rename_i b ts₂ hb
        cases hr
        exact .many (h.run ha) (h.run hb)
  | ahead r =>
    obtain ⟨m, -, he⟩ := Option.map_eq_some_iff.mp hr
    cases he
    exact .ahead ts
  | absent r =>
    rw [Rule.run] at hr
    split at hr
    · cases hr
    · cases hr
      exact .absent ts
  | symbol s => exact .symbol (h.run hr)
  | node kind r =>
    obtain ⟨m, hm, he⟩ := Option.map_eq_some_iff.mp hr
    cases he
    exact .node (h.run hm)
  | role x r =>
    obtain ⟨m, hm, he⟩ := Option.map_eq_some_iff.mp hr
    cases he
    exact .role (h.run hm)
  | chain head tails =>
    rw [Rule.run] at hr
    split at hr
    · cases hr
    · rename_i a₁ ts₁ ha
      exact h.tails (.chain (h.run ha)) (fun _ he => he) hr
  | begun start ends =>
    rw [Rule.run] at hr
    split at hr
    · cases hr
    · rename_i a₁ ts₁ ha
      exact h.ends (h.run ha) (fun _ he => he) hr

theorem sound (g : S → Rule S) (fuel : Nat) : Sound g fuel := by
  induction fuel with
  | zero =>
    refine ⟨?_, ?_, ?_⟩
    · intro r ts ts' a h
      cases h
    · intro head all rest ts ts₁ ts' a b _ _ h
      cases h
    · intro start all rest ts ts₁ ts' a b _ _ h
      cases h
  | succ fuel ih =>
    refine ⟨ih.run_succ, fun {head all rest ts ts₁ ts' a b} h hrest hr => ?_,
      fun {start all rest ts ts₁ ts' a b} h hrest hr => ?_⟩
    · cases rest with
      | nil =>
        cases hr
        exact h
      | cons e rest =>
        obtain ⟨kind, r?, r⟩ := e
        rw [Rule.run.runTails.eq_def] at hr
        dsimp only at hr
        split at hr
        · rename_i b₁ ts₂ hb
          refine ih.tails (?_ : Matches g (chain head all) ts _ ts₂) (fun _ he => he) hr
          have hnext := Matches.next h (hrest _ List.mem_cons_self) (ih.run hb)
          cases r? <;> exact hnext
        · exact ih.tails h (fun e he => hrest e (List.mem_cons_of_mem _ he)) hr
    · cases rest with
      | nil => cases hr
      | cons e rest =>
        obtain ⟨kind, r⟩ := e
        rw [Rule.run.runEnds] at hr
        split at hr
        · rename_i b₁ ts₂ hb
          cases hr
          exact .begun h (hrest _ List.mem_cons_self) (ih.run hb)
        · exact ih.ends h (fun e he => hrest e (List.mem_cons_of_mem _ he)) hr

theorem matches_of_run {fuel : Nat} {r : Rule S} {ts ts' : List Token} {a : List Piece}
    (h : run g fuel r ts = some (a, ts')) : Matches g r ts a ts' :=
  (sound g fuel).run h

/-! ## Pieces -/

theorem Matches.suffix {r : Rule S} {ts ts' : List Token} {ps : List Piece}
    (h : Matches g r ts ps ts') : ts' <:+ ts := by
  induction h with
  | word | glued | namedWord | leaf => exact List.suffix_cons _ _
  | done | stop | ahead | absent => exact List.suffix_refl _
  | seq _ _ ih ih' | many _ _ ih ih' | next _ _ _ ih ih' | begun _ _ _ ih ih' => exact ih'.trans ih
  | choice _ _ ih | symbol _ ih | node _ ih | role _ ih | chain _ ih => exact ih

/-- What a rule matches among clean tokens. -/
def Yields (g : S → Rule S) (P : Piece → Prop) (r : Rule S) : Prop :=
  ∀ ⦃ts ts' : List Token⦄ ⦃ps : List Piece⦄, (∀ t ∈ ts, t.Clean) → Matches g r ts ps ts' →
    ∀ p ∈ ps, P p

theorem Matches.clean {r : Rule S} {ts ts' : List Token} {ps : List Piece}
    (h : Matches g r ts ps ts') (hts : ∀ t ∈ ts, t.Clean) : ∀ t ∈ ts', t.Clean :=
  fun t ht => hts t (h.suffix.subset ht)

/-- What a sequence matches is what its last rule matches, after what those before it match. -/
theorem Matches.concat (rs : List (Rule S)) {r : Rule S} {ts ts' : List Token} {ps : List Piece}
    (h : Matches g (Rule.seq (rs ++ [r])) ts ps ts') :
    ∃ a b ts₁, Matches g (Rule.seq rs) ts a ts₁ ∧ Matches g r ts₁ b ts' ∧ ps = a ++ b := by
  induction rs generalizing ts ps with
  | nil =>
    cases h with
    | seq ha hb =>
      cases hb
      exact ⟨[], _, ts, .done ts, ha, by simp⟩
  | cons r' rs ih =>
    cases h with
    | seq ha hb =>
      obtain ⟨a, b, ts₁, hs, hr, rfl⟩ := ih hb
      exact ⟨_, b, ts₁, .seq ha hs, hr, by simp⟩

section Yields
variable {P : Piece → Prop} {r : Rule S} {rs : List (Rule S)}

theorem yields_word {text : String}
    (h : ∀ t : Token, t.Clean → t.text = text → P (.ofToken .word t)) :
    Yields g P (word text) := by
  intro ts ts' ps hts hm p hp
  cases hm with
  | word _ ht =>
    rw [List.mem_singleton.mp hp]
    exact h _ (hts _ List.mem_cons_self) ht

theorem yields_namedWord {kind : Kind} {text : String}
    (h : ∀ t : Token, t.Clean → t.text = text → P (.ofToken kind t)) :
    Yields g P (namedWord kind text) := by
  intro ts ts' ps hts hm p hp
  cases hm with
  | namedWord _ ht =>
    rw [List.mem_singleton.mp hp]
    exact h _ (hts _ List.mem_cons_self) ht

theorem yields_leaf {kind : Kind} {cls : TokenClass}
    (h : ∀ t : Token, t.Clean → t.cls = cls → P (.ofToken kind t)) :
    Yields g P (leaf kind cls) := by
  intro ts ts' ps hts hm p hp
  cases hm with
  | leaf _ ht =>
    rw [List.mem_singleton.mp hp]
    exact h _ (hts _ List.mem_cons_self) ht

theorem yields_seq (h : ∀ r ∈ rs, Yields g P r) : Yields g P (seq rs) := by
  intro ts ts' ps hts hm
  induction rs generalizing ts ps with
  | nil =>
    cases hm
    exact List.forall_mem_nil _
  | cons r rs ih =>
    obtain ⟨hr, hrs⟩ := List.forall_mem_cons.mp h
    cases hm with
    | seq ha hb => exact List.forall_mem_append.mpr ⟨hr hts ha, ih hrs (ha.clean hts) hb⟩

theorem yields_choice (h : ∀ r ∈ rs, Yields g P r) : Yields g P (choice rs) := by
  intro ts ts' ps hts hm
  cases hm with
  | choice hr hm => exact h _ hr hts hm

theorem yields_opt (h : Yields g P r) : Yields g P (opt r) := by
  refine yields_choice fun r' hr => ?_
  rcases List.mem_cons.mp hr with rfl | hr
  · exact h
  · rw [List.mem_singleton.mp hr]
    exact yields_seq (List.forall_mem_nil _)

theorem yields_symbol {s : S} (h : Yields g P (g s)) : Yields g P (symbol s) := by
  intro ts ts' ps hts hm
  cases hm with
  | symbol hm => exact h hts hm

theorem yields_many (h : Yields g P r) : Yields g P (many r) := by
  intro ts ts' ps hts hm
  generalize hr : many r = r' at hm
  induction hm with
  | stop => exact fun _ hp => nomatch hp
  | many ha _ _ ih =>
    cases hr
    exact List.forall_mem_append.mpr ⟨h hts ha, ih (ha.clean hts) rfl⟩
  | _ => cases hr

theorem yields_sepBy {sep : String} (h : Yields g P r) (hsep : Yields g P (word sep)) :
    Yields g P (sepBy r sep) := by
  have hnext : Yields g P (many (seq [word sep, r])) :=
    yields_many (yields_seq (List.forall_mem_cons.mpr ⟨hsep, List.forall_mem_singleton.mpr h⟩))
  exact yields_opt (yields_seq (List.forall_mem_cons.mpr ⟨h, List.forall_mem_singleton.mpr hnext⟩))

theorem yields_node {kind : Kind}
    (h : ∀ {ts ts' ps}, (∀ t ∈ ts, Token.Clean t) → Matches g r ts ps ts' → P (.join kind ps)) :
    Yields g P (node kind r) := by
  intro ts ts' ps hts hm p hp
  cases hm with
  | node hm =>
    rw [List.mem_singleton.mp hp]
    exact h hts hm

theorem yields_begun {ends : List (Kind × Rule S)} (h : ∀ e ∈ ends, ∀ ps, P (.join e.1 ps)) :
    Yields g P (begun r ends) := by
  intro ts ts' ps hts hm p hp
  cases hm with
  | begun _ he _ =>
    rw [List.mem_singleton.mp hp]
    exact h _ he _

theorem yields_role {x : Role} (h : Yields g (fun p => P (p.withRole x)) r) :
    Yields g P (role x r) := by
  intro ts ts' ps hts hm p hp
  cases hm with
  | role hm =>
    obtain ⟨q, hq, rfl⟩ := List.mem_map.mp hp
    exact h hts hm q hq

theorem yields_chain {head : Rule S} {tails : List (Kind × Option Role × Rule S)}
    (h : Yields g P head)
    (ht : ∀ e ∈ tails, ∀ {ts ts' a b}, (∀ t ∈ ts, Token.Clean t) → (∀ p ∈ a, P p) →
      Matches g e.2.2 ts b ts' → P (.join e.1 (playing e.2.1 a ++ b))) :
    Yields g P (chain head tails) := by
  intro ts ts' ps hts hm
  generalize hr : chain head tails = r' at hm
  induction hm with
  | chain hm =>
    cases hr
    exact h hts hm
  | next ha he hb ih =>
    cases hr
    intro p hp
    rw [List.mem_singleton.mp hp]
    exact ht _ he (ha.clean hts) (ih hts rfl) hb
  | _ => cases hr

def Single (g : S → Rule S) (r : Rule S) : Prop :=
  ∀ ⦃ts ts' : List Token⦄ ⦃ps : List Piece⦄, Matches g r ts ps ts' → ∃ p, ps = [p]

theorem single_leaf (kind : Kind) (cls : TokenClass) : Single g (leaf kind cls) := by
  intro ts ts' ps h
  cases h with
  | leaf _ _ => exact ⟨_, rfl⟩

theorem single_namedWord (kind : Kind) (text : String) : Single g (namedWord kind text) := by
  intro ts ts' ps h
  cases h with
  | namedWord _ _ => exact ⟨_, rfl⟩

theorem single_node (kind : Kind) (r : Rule S) : Single g (node kind r) := by
  intro ts ts' ps h
  cases h with
  | node _ => exact ⟨_, rfl⟩

theorem single_symbol {s : S} (h : Single g (g s)) : Single g (symbol s) := by
  intro ts ts' ps hm
  cases hm with
  | symbol hm => exact h hm

theorem single_choice (h : ∀ r ∈ rs, Single g r) : Single g (choice rs) := by
  intro ts ts' ps hm
  cases hm with
  | choice hr hm => exact h _ hr hm

theorem single_chain (h : Single g r) (tails : List (Kind × Option Role × Rule S)) :
    Single g (chain r tails) := by
  intro ts ts' ps hm
  cases hm with
  | chain hm => exact h hm
  | next _ _ _ => exact ⟨_, rfl⟩

theorem yields_chain_of_single {tails : List (Kind × Option Role × Rule S)} (hs : Single g r)
    (h : Yields g P r)
    (ht : ∀ e ∈ tails, ∀ {ts ts' p b}, (∀ t ∈ ts, Token.Clean t) → P p →
      Matches g e.2.2 ts b ts' → P (.join e.1 (playing e.2.1 [p] ++ b))) :
    Yields g P (chain r tails) := by
  intro ts ts' ps hts hm
  generalize hr : chain r tails = r' at hm
  induction hm with
  | chain hm =>
    cases hr
    exact h hts hm
  | next ha he hb ih =>
    cases hr
    obtain ⟨p, rfl⟩ := single_chain hs tails ha
    intro q hq
    rw [List.mem_singleton.mp hq]
    exact ht _ he (ha.clean hts) (ih hts rfl p List.mem_cons_self) hb
  | _ => cases hr

end Yields

namespace Piece

@[simp] theorem tree_withRole (x : Role) (p : Piece) : (p.withRole x).tree = p.tree.withRole x := rfl

@[simp] theorem kind_join (kind : Kind) (ps : List Piece) : (join kind ps).tree.kind = kind := by
  cases ps <;> rfl

@[simp] theorem role_join (kind : Kind) (ps : List Piece) : (join kind ps).tree.role = none := by
  cases ps <;> rfl

theorem text_join_concat (kind : Kind) (ps : List Piece) (p : Piece) :
    ∃ before, (join kind (ps ++ [p])).tree.text = before ++ p.tree.text := by
  cases ps with
  | nil => exact ⟨"", by simp [Piece.join, Tree.text]⟩
  | cons q qs =>
    refine ⟨q.tree.text ++ String.join (qs.map fun q => q.trivia ++ q.tree.text) ++ p.trivia, ?_⟩
    simp [Piece.join, Tree.text, String.append_assoc]

theorem children_join_concat (kind : Kind) (ps : List Piece) (p : Piece) :
    ∃ cs, (join kind (ps ++ [p])).tree.children = cs ++ [p.tree] ∧
      ∀ c ∈ cs, (∃ q ∈ ps ++ [p], c ∈ q.comments) ∨ ∃ q ∈ ps, c = q.tree := by
  cases ps with
  | nil => exact ⟨[], rfl, fun _ hc => nomatch hc⟩
  | cons q qs =>
    refine ⟨q.tree :: (qs.flatMap (fun q => q.comments ++ [q.tree]) ++ p.comments), ?_, ?_⟩
    · simp [Piece.join, Tree.children]
    · intro c hc
      rcases List.mem_cons.mp hc with rfl | hc
      · exact .inr ⟨q, List.mem_cons_self, rfl⟩
      rcases List.mem_append.mp hc with hc | hc
      · obtain ⟨q', hq', hc⟩ := List.mem_flatMap.mp hc
        rcases List.mem_append.mp hc with hc | hc
        · exact .inl ⟨q', by simp [hq'], hc⟩
        · exact .inr ⟨q', List.mem_cons_of_mem _ hq', List.mem_singleton.mp hc⟩
      · exact .inl ⟨p, by simp, hc⟩

theorem exists_of_mem_children_join {kind : Kind} {ps : List Piece} {c : Tree}
    (h : c ∈ (join kind ps).tree.children) : ∃ p ∈ ps, c ∈ p.comments ∨ c = p.tree := by
  cases ps with
  | nil => cases h
  | cons p ps =>
    rcases List.mem_cons.mp h with rfl | h
    · exact ⟨p, List.mem_cons_self, .inr rfl⟩
    · obtain ⟨q, hq, hc⟩ := List.mem_flatMap.mp h
      refine ⟨q, List.mem_cons_of_mem _ hq, ?_⟩
      rcases List.mem_append.mp hc with hc | hc
      · exact .inl hc
      · exact .inr (List.mem_singleton.mp hc)

end Piece

theorem forall_mem_playing {P : Piece → Prop} {r? : Option Role} {ps : List Piece}
    (hrole : ∀ x p, P p → P (p.withRole x)) (h : ∀ p ∈ ps, P p) : ∀ p ∈ playing r? ps, P p := by
  cases r? with
  | none => exact h
  | some x =>
    intro p hp
    obtain ⟨q, hq, rfl⟩ := List.mem_map.mp hp
    exact hrole x q (h q hq)

/-- What stands before a node stands before its first piece. -/
theorem leading_join {Q : String → List Tree → Prop} (hnil : Q "" []) {kind : Kind}
    {ps : List Piece} (h : ∀ p ∈ ps, Q p.trivia p.comments) :
    Q (Piece.join kind ps).trivia (Piece.join kind ps).comments := by
  cases ps with
  | nil => exact hnil
  | cons p ps => exact h p List.mem_cons_self

theorem yields_leading {Q : String → List Tree → Prop} (hnil : Q "" [])
    (htoken : ∀ t : Token, t.Clean → Q t.trivia t.comments) (r : Rule S) :
    Yields g (fun p => Q p.trivia p.comments) r := by
  intro ts ts' ps hts h
  induction h with
  | word | glued | namedWord | leaf =>
    intro p hp
    rw [List.mem_singleton.mp hp]
    exact htoken _ (hts _ List.mem_cons_self)
  | done | stop | ahead | absent => exact fun _ hp => nomatch hp
  | seq h _ ih ih' | many h _ ih ih' =>
    exact List.forall_mem_append.mpr ⟨ih hts, ih' (h.clean hts)⟩
  | choice _ _ ih | symbol _ ih | chain _ ih => exact ih hts
  | node _ ih =>
    intro p hp
    rw [List.mem_singleton.mp hp]
    exact leading_join hnil (ih hts)
  | role _ ih =>
    intro p hp
    obtain ⟨q, hq, rfl⟩ := List.mem_map.mp hp
    exact ih hts q hq
  | next h _ _ ih ih' =>
    intro p hp
    rw [List.mem_singleton.mp hp]
    exact leading_join hnil (List.forall_mem_append.mpr
      ⟨forall_mem_playing (fun _ _ h => h) (ih hts), ih' (h.clean hts)⟩)
  | begun h _ _ ih ih' =>
    intro p hp
    rw [List.mem_singleton.mp hp]
    exact leading_join hnil (List.forall_mem_append.mpr ⟨ih hts, ih' (h.clean hts)⟩)

def Commented (p : Piece) : Prop := ∀ c ∈ p.comments, c.IsComment

section Commented
variable {kind : Kind} {ps : List Piece}

theorem commented_join (h : ∀ p ∈ ps, Commented p) : Commented (.join kind ps) :=
  leading_join (Q := fun _ cs => ∀ c ∈ cs, c.IsComment) (List.forall_mem_nil _) h

theorem yields_commented (r : Rule S) : Yields g Commented r :=
  yields_leading (Q := fun _ cs => ∀ c ∈ cs, c.IsComment) (List.forall_mem_nil _)
    (fun _ ht => ht.comments) r

/-- Where no comments stand before a piece there are only blanks. -/
def Spaced (p : Piece) : Prop := p.comments = [] → ∀ c ∈ p.trivia.toList, Token.isGap c = true

theorem spaced_join (h : ∀ p ∈ ps, Spaced p) : Spaced (.join kind ps) :=
  leading_join (Q := fun trivia cs => cs = [] → ∀ c ∈ trivia.toList, Token.isGap c = true)
    (fun _ => nofun) h

theorem yields_spaced (r : Rule S) : Yields g Spaced r :=
  yields_leading (Q := fun trivia cs => cs = [] → ∀ c ∈ trivia.toList, Token.isGap c = true)
    (fun _ => nofun) (fun _ ht => ht.gap) r

end Commented

end Rule

/-! ## All over a tree -/

namespace Tree

@[simp] theorem kind_withRole (x : Role) (t : Tree) : (t.withRole x).kind = t.kind := by cases t; rfl

@[simp] theorem text_withRole (x : Role) (t : Tree) : (t.withRole x).text = t.text := by cases t; rfl

@[simp] theorem children_withRole (x : Role) (t : Tree) :
    (t.withRole x).children = t.children := by cases t; rfl

@[simp] theorem role_withRole (x : Role) (t : Tree) : (t.withRole x).role = some x := by cases t; rfl

variable {P : Tree → Prop} {t : Tree}

/-- A property that looks at no role and allows for comments. -/
structure Regular (P : Tree → Prop) : Prop where
  withRole : ∀ x t, P t → P (t.withRole x)
  comment : ∀ t, t.IsComment → P t

theorem Regular.all_withRole (hP : Regular P) (x : Role) (h : All P t) : All P (t.withRole x) := by
  refine .intro (hP.withRole x t h.self) fun c hc => ?_
  rw [children_withRole] at hc
  exact h.child hc

theorem Regular.all_comment (hP : Regular P) (h : t.IsComment) : All P t := by
  refine .intro (hP.comment t h) fun c hc => ?_
  rw [h.children] at hc
  cases hc

end Tree

namespace Rule

variable {S : Type} {g : S → Rule S} {P : Tree → Prop}

/-- A property holds of every node that a rule builds from clean tokens. Symbols stand for rules that
are looked at themselves. -/
inductive Builds (g : S → Rule S) (P : Tree → Prop) : Rule S → Prop
  | word (text : String) (h : ∀ t, P (Piece.ofToken .word t).tree) : Builds g P (word text)
  | glued (text : String) (h : ∀ t, P (Piece.ofToken .word t).tree) : Builds g P (glued text)
  | namedWord {kind : Kind} (text : String) (h : ∀ t, P (Piece.ofToken kind t).tree) :
    Builds g P (namedWord kind text)
  | leaf {kind : Kind} (cls : TokenClass) (h : ∀ t, P (Piece.ofToken kind t).tree) :
    Builds g P (leaf kind cls)
  | seq {rs : List (Rule S)} (h : ∀ r ∈ rs, Builds g P r) : Builds g P (seq rs)
  | choice {rs : List (Rule S)} (h : ∀ r ∈ rs, Builds g P r) : Builds g P (choice rs)
  | many {r : Rule S} (h : Builds g P r) : Builds g P (many r)
  | ahead (r : Rule S) : Builds g P (ahead r)
  | absent (r : Rule S) : Builds g P (absent r)
  | symbol (s : S) : Builds g P (symbol s)
  | node {kind : Kind} {r : Rule S} (h : Builds g P r)
    (hp : ∀ {ts ts' ps}, (∀ t ∈ ts, Token.Clean t) → Matches g r ts ps ts' →
      P (Piece.join kind ps).tree) : Builds g P (node kind r)
  | role (x : Role) {r : Rule S} (h : Builds g P r) : Builds g P (role x r)
  | chain {head : Rule S} {tails : List (Kind × Option Role × Rule S)} (h : Builds g P head)
    (hts : ∀ e ∈ tails, Builds g P e.2.2) (hp : ∀ e ∈ tails, ∀ ps, P (Piece.join e.1 ps).tree) :
    Builds g P (chain head tails)
  | begun {start : Rule S} {ends : List (Kind × Rule S)} (h : Builds g P start)
    (he : ∀ e ∈ ends, Builds g P e.2)
    (hp : ∀ e ∈ ends, ∀ {ts ts₁ ts₂ a b}, (∀ t ∈ ts, Token.Clean t) →
      Matches g start ts a ts₁ → Matches g e.2 ts₁ b ts₂ → P (Piece.join e.1 (a ++ b)).tree) :
    Builds g P (begun start ends)

theorem all_ofToken {kind : Kind} {t : Token} (h : P (Piece.ofToken kind t).tree) :
    (Piece.ofToken kind t).tree.All P := .intro h fun _ hc => nomatch hc

theorem all_join (hP : Tree.Regular P) {kind : Kind} {ps : List Piece}
    (h : P (Piece.join kind ps).tree) (hps : ∀ p ∈ ps, p.tree.All P)
    (hcs : ∀ p ∈ ps, Commented p) : (Piece.join kind ps).tree.All P := by
  refine .intro h fun c hc => ?_
  obtain ⟨p, hp, hc | rfl⟩ := Piece.exists_of_mem_children_join hc
  · exact hP.all_comment (hcs p hp c hc)
  · exact hps p hp

theorem Matches.all (hP : Tree.Regular P) (hg : ∀ s, Builds g P (g s)) {r : Rule S}
    {ts ts' : List Token} {ps : List Piece} (h : Matches g r ts ps ts') (hr : Builds g P r)
    (hts : ∀ t ∈ ts, t.Clean) : ∀ p ∈ ps, p.tree.All P := by
  induction h with
  | word | glued | namedWord | leaf =>
    intro p hp
    rw [List.mem_singleton.mp hp]
    cases hr
    rename_i hleaf
    exact all_ofToken (hleaf _)
  | done | stop | ahead | absent => exact fun _ hp => nomatch hp
  | seq h _ ih ih' =>
    cases hr with
    | seq hr =>
      obtain ⟨hhead, htail⟩ := List.forall_mem_cons.mp hr
      exact List.forall_mem_append.mpr ⟨ih hhead hts, ih' (.seq htail) (h.clean hts)⟩
  | many h _ ih ih' =>
    refine List.forall_mem_append.mpr ⟨?_, ih' hr (h.clean hts)⟩
    cases hr with
    | many hr => exact ih hr hts
  | choice hmem _ ih =>
    cases hr with
    | choice hr => exact ih (hr _ hmem) hts
  | symbol _ ih => exact ih (hg _) hts
  | chain _ ih =>
    cases hr with
    | chain hr => exact ih hr hts
  | node h ih =>
    cases hr with
    | node hr hp =>
      intro p hmem
      rw [List.mem_singleton.mp hmem]
      exact all_join hP (hp hts h) (ih hr hts) (yields_commented _ hts h)
  | role _ ih =>
    cases hr with
    | role _ hr =>
      intro p hp
      obtain ⟨q, hq, rfl⟩ := List.mem_map.mp hp
      exact hP.all_withRole _ (ih hr hts q hq)
  | next h ht hb ih ih' =>
    intro p hp
    rw [List.mem_singleton.mp hp]
    have hhead := ih hr hts
    have hcs := yields_commented _ hts h
    cases hr with
    | chain _ htails hp =>
      refine all_join hP (hp _ ht _) (List.forall_mem_append.mpr ⟨?_, ?_⟩)
        (List.forall_mem_append.mpr ⟨?_, ?_⟩)
      · exact forall_mem_playing (fun x _ h => hP.all_withRole x h) hhead
      · exact ih' (htails _ ht) (h.clean hts)
      · exact forall_mem_playing (fun _ _ h => h) hcs
      · exact yields_commented _ (h.clean hts) hb
  | begun h he hb ih ih' =>
    intro p hp
    rw [List.mem_singleton.mp hp]
    cases hr with
    | begun hstart hends hp =>
      refine all_join hP (hp _ he hts h hb) (List.forall_mem_append.mpr ⟨?_, ?_⟩)
        (List.forall_mem_append.mpr ⟨?_, ?_⟩)
      · exact ih hstart hts
      · exact ih' (hends _ he) (h.clean hts)
      · exact yields_commented _ hts h
      · exact yields_commented _ (h.clean hts) hb

end Rule

end Lineage.Java
