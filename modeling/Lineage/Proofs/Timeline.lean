import Lineage.Proofs.Inquiry
import Lineage.Proofs.Text
import Lineage.Timeline
import Mathlib.Data.List.Chain
/-! # The bounds of a timeline

Whatever a repository and a detector answer, and at whatever question they fail, a timeline ends at
its target and leads back along first parents within the budget, and every commit it keeps besides
the target touches a method that is followed there. Main statements: `logged_step`, `logged_walk`,
`logged_build`.
-/
namespace Lineage

open Refactoring (Operation Location Detector Detection)

namespace Timeline

def Follows (tracked : TextSet) (op : Operation) : Prop :=
  ∃ l ∈ op.before ++ op.after, ∃ key, l.methodKey? = some key ∧ key ∈ tracked

def FollowsFile (tracked : TextSet) (path : String) : Prop :=
  ∃ element, path ++ "::" ++ element ∈ tracked

section Followed
variable {tracked : TextSet} {op : Operation} {files : List String}

theorem touches_iff : touches tracked op = true ↔ Follows tracked op := by
  unfold touches methodKeys
  rw [← List.filterMap_append, List.any_eq_true]
  constructor
  · rintro ⟨key, hkey, ht⟩
    obtain ⟨l, hl, hlk⟩ := List.mem_filterMap.mp hkey
    exact ⟨l, hl, key, hlk, ht⟩
  · rintro ⟨l, hl, key, hlk, ht⟩
    exact ⟨key, List.mem_filterMap.mpr ⟨l, hl, hlk⟩, ht⟩

instance (tracked : TextSet) (op : Operation) : Decidable (Follows tracked op) :=
  decidable_of_iff _ touches_iff

theorem exists_followsFile (h : standsIn tracked files = true) :
    ∃ path ∈ files, FollowsFile tracked path := by
  obtain ⟨key, hkey, hs⟩ := List.any_eq_true.mp h
  split at hs
  · rename_i path element hsplit
    refine ⟨path, List.contains_iff_mem.mp hs, element, ?_⟩
    rw [← Text.splitOnce_eq_some hsplit]
    exact (TextSet.mem_toList tracked key).mp hkey
  · cases hs

end Followed

/-! ## What the log says of a timeline -/

/-- From the target on, the log gives each commit as the first parent of the one before. -/
structure Ancestry (log : List Exchange) (target : Commit) (chain : List Commit) : Prop where
  head : chain.head? = some target
  parents : chain.IsChain fun c p => .parent c.id (.ok (some p)) ∈ log

/-- What the log says of a commit that is kept besides the target. -/
structure Relevant (b : Budget) (target : Commit) (log : List Exchange) (e : TimelineEntry) :
    Prop where
  recent : 0 < b.days → Int64.minValue.toInt ≤ target.timestamp - e.commit.timestamp →
    target.timestamp - e.commit.timestamp ≤ Int64.maxValue.toInt →
    (target.timestamp - e.commit.timestamp).tdiv 86400 ≤ b.days
  detected : ∃ (p : Commit) (found : Detection), .detect p e.commit found ∈ log ∧
    e.parent = some p.id ∧ e.detected = found.operations
  operations : e.operations = e.detected.filter (Follows e.tracked ·)
  touched : e.operations ≠ [] ∨ ∃ files, .changedFiles e.commit.id (.ok files) ∈ log ∧
    ∃ path ∈ files, FollowsFile e.tracked path

/-- What a budget and the log say of a timeline. -/
structure Bounded (b : Budget) (target : Commit) (log : List Exchange) (t : Timeline) : Prop where
  last : t.target? = some target
  ancestors : ∃ chain, Ancestry log target chain ∧ t.commits.reverse.Sublist chain
  length : t.entries.length ≤ b.depth + 1
  relevant : t.relevant + 1 = t.entries.length
  analyzed : t.relevant ≤ t.analyzed ∧ t.analyzed ≤ b.depth
  entries : ∀ e ∈ t.entries.dropLast, Relevant b target log e

/-- A timeline is built exactly if the reference leads to a commit, its target. -/
inductive Outcome (b : Budget) (reference : String) :
    List Exchange → Except RepositoryError Timeline → Prop
  | unresolved (e : RepositoryError) : Outcome b reference [.info reference (.error e)] (.error e)
  | resolved {target : Commit} {log : List Exchange} {t : Timeline}
      (ht : Bounded b target (.info reference (.ok target) :: log) t) :
      Outcome b reference (.info reference (.ok target) :: log) (.ok t)

section Log
variable {b : Budget} {target : Commit} {log log' : List Exchange}

theorem Ancestry.mono {chain : List Commit} (h : Ancestry log target chain) (hl : log ⊆ log') :
    Ancestry log' target chain :=
  ⟨h.head, h.parents.imp fun _ _ hp => hl hp⟩

theorem Ancestry.snoc {chain : List Commit} {c p : Commit} (h : Ancestry log target (chain ++ [c]))
    (hp : .parent c.id (.ok (some p)) ∈ log) : Ancestry log target (chain ++ [c] ++ [p]) where
  head := by rw [List.head?_append, h.head]; rfl
  parents := by
    rw [List.isChain_append]
    refine ⟨h.parents, List.isChain_singleton p, ?_⟩
    intro x hx y hy
    have hxc : c = x := by simpa using hx
    have hyp : p = y := by simpa using hy
    rw [← hxc, ← hyp]
    exact hp

theorem Relevant.mono {e : TimelineEntry} (h : Relevant b target log e) (hl : log ⊆ log') :
    Relevant b target log' e where
  recent := h.recent
  detected := by
    obtain ⟨p, found, hmem, hp, hd⟩ := h.detected
    exact ⟨p, found, hl hmem, hp, hd⟩
  operations := h.operations
  touched := by
    rcases h.touched with ho | ⟨files, hmem, hf⟩
    · exact .inl ho
    · exact .inr ⟨files, hl hmem, hf⟩

theorem Bounded.mono {t : Timeline} (h : Bounded b target log t) (hl : log ⊆ log') :
    Bounded b target log' t := by
  obtain ⟨chain, hchain, hsub⟩ := h.ancestors
  exact { h with
    ancestors := ⟨chain, hchain.mono hl, hsub⟩
    entries := fun e he => (h.entries e he).mono hl }

theorem bounded_alone {e : TimelineEntry} (he : e.commit = target) :
    Bounded b target log (alone e) where
  last := congrArg some he
  ancestors := ⟨[e.commit], ⟨congrArg some he, List.isChain_singleton _⟩, List.Sublist.refl _⟩
  length := Nat.le_add_left _ _
  relevant := rfl
  analyzed := ⟨Nat.le_refl _, Nat.zero_le _⟩
  entries := nofun

/-! ## The walk -/

/-- The invariant of the walk: the entries but the last, which is the target's, are relevant and
were met on the way along first parents to the current commit. -/
structure Walk.Sound (b : Budget) (target : Commit) (first : TimelineEntry) (log : List Exchange)
    (w : Walk) : Prop where
  ancestors : ∃ passed, Ancestry log target (passed ++ [w.current]) ∧
    (w.entries.map (·.commit)).reverse.Sublist passed
  entries : ∃ early, w.entries = early ++ [first] ∧ early.length ≤ w.analyzed ∧
    ∀ e ∈ early, Relevant b target log e

section Step
variable {σ : Type} {h : History σ} {d : Detector σ} {first : TimelineEntry} {w : Walk}

theorem recent_of_not_tooOld {c : Commit} (hage : b.isTooOld target c = false) (hdays : 0 < b.days)
    (hlow : Int64.minValue.toInt ≤ target.timestamp - c.timestamp)
    (hhigh : target.timestamp - c.timestamp ≤ Int64.maxValue.toInt) :
    (target.timestamp - c.timestamp).tdiv 86400 ≤ b.days := by
  have hword : (target.timestamp - c.timestamp).bmod UInt64.size =
      target.timestamp - c.timestamp := by
    rw [Int64.toInt_minValue] at hlow
    rw [Int64.toInt_maxValue] at hhigh
    apply Int.bmod_eq_of_le <;> simp only [UInt64.size] <;> omega
  unfold Budget.isTooOld at hage
  rw [decide_eq_true hdays, Bool.true_and, decide_eq_false_iff_not, Int.not_lt, Budget.age,
    hword] at hage
  exact hage

theorem Walk.Sound.pass (hw : w.Sound b target first log) {p : Commit}
    (hp : .parent w.current.id (.ok (some p)) ∈ log) :
    Walk.Sound b target first log { w with current := p, analyzed := w.analyzed + 1 } := by
  obtain ⟨passed, hchain, hsub⟩ := hw.ancestors
  obtain ⟨early, he, hlen, hrel⟩ := hw.entries
  refine ⟨⟨passed ++ [w.current], hchain.snoc hp, ?_⟩, ⟨early, he, Nat.le_succ_of_le hlen, hrel⟩⟩
  exact hsub.trans (List.sublist_append_left _ _)

/-- Keeping the commit that was current adds a relevant entry. -/
theorem Walk.Sound.keep (hw : w.Sound b target first log) {p : Commit}
    (hp : .parent w.current.id (.ok (some p)) ∈ log) {e : TimelineEntry}
    (hc : e.commit = w.current) (he : Relevant b target log e) (tracked : TextSet) :
    Walk.Sound b target first log ⟨p, tracked, w.analyzed + 1, e :: w.entries⟩ := by
  obtain ⟨passed, hchain, hsub⟩ := hw.ancestors
  obtain ⟨early, hentries, hlen, hrel⟩ := hw.entries
  refine ⟨⟨passed ++ [w.current], hchain.snoc hp, ?_⟩, ⟨e :: early, ?_, ?_, ?_⟩⟩
  · rw [List.map_cons, List.reverse_cons, hc]
    exact hsub.append (List.Sublist.refl _)
  · rw [hentries, List.cons_append]
  · exact Nat.succ_le_succ hlen
  · intro x hx
    rcases List.mem_cons.mp hx with rfl | hx
    · exact he
    · exact hrel x hx

theorem Walk.Sound.mono (hw : w.Sound b target first log) (hl : log ⊆ log') :
    w.Sound b target first log' := by
  obtain ⟨passed, hchain, hsub⟩ := hw.ancestors
  obtain ⟨early, he, hlen, hrel⟩ := hw.entries
  exact ⟨⟨passed, hchain.mono hl, hsub⟩, ⟨early, he, hlen, fun e he => (hrel e he).mono hl⟩⟩

theorem logged_changesTracked (h : History σ) (d : Detector σ) (c : Commit) (tracked : TextSet) :
    Logged h d (changesTracked h c tracked) fun log changed => changed = true →
      ∃ files, .changedFiles c.id (.ok files) ∈ log ∧ ∃ path ∈ files, FollowsFile tracked path := by
  refine (logged_changedFiles h d c.id).bind fun log answer hlog => logged_pure fun hchanged => ?_
  subst hlog
  cases answer with
  | ok files => exact ⟨files, List.mem_cons_self, exists_followsFile hchanged⟩
  | error e => cases hchanged

/-- What becomes of a commit that is not too old, if it touches what is followed where it is kept. -/
theorem Walk.Sound.look (hw : w.Sound b target first log) {p : Commit} {found : Detection}
    (hp : .parent w.current.id (.ok (some p)) ∈ log) (hfound : .detect p w.current found ∈ log)
    (hage : b.isTooOld target w.current = false) {matched : List Operation}
    (hmatched : matched = found.operations.filter (touches w.tracked)) {isRelevant : Bool}
    (htouched : isRelevant = true → matched ≠ [] ∨
      ∃ files, .changedFiles w.current.id (.ok files) ∈ log ∧
        ∃ path ∈ files, FollowsFile w.tracked path) {w' : Walk}
    (hw' : w' = if isRelevant then
        ⟨p, followAll w.tracked matched, w.analyzed + 1,
          ⟨w.current, w.tracked, matched, some p.id, found.operations⟩ :: w.entries⟩
      else { w with current := p, analyzed := w.analyzed + 1 }) :
    w'.Sound b target first log ∧ w'.analyzed = w.analyzed + 1 := by
  subst hw'
  cases isRelevant with
  | false => exact ⟨hw.pass hp, rfl⟩
  | true =>
    have hrelevant : Relevant b target log
        ⟨w.current, w.tracked, matched, some p.id, found.operations⟩ := by
      refine ⟨?_, ⟨p, found, hfound, rfl, rfl⟩, ?_, htouched rfl⟩
      · exact recent_of_not_tooOld hage
      · rw [hmatched]
        refine List.filter_congr fun op _ => ?_
        rw [Bool.eq_iff_iff, touches_iff, decide_eq_true_iff]
    exact ⟨hw.keep hp rfl hrelevant _, rfl⟩

theorem logged_look (hw : w.Sound b target first log) {p : Commit}
    (hp : .parent w.current.id (.ok (some p)) ∈ log)
    (hage : b.isTooOld target w.current = false) :
    Logged h d (look h d w p) fun log' w' =>
      w'.Sound b target first (log ++ log') ∧ w'.analyzed = w.analyzed + 1 := by
  refine (logged_detect h d p w.current).bind fun log₁ detected hdetected => ?_
  obtain ⟨found, rfl, rfl⟩ := hdetected
  dsimp only
  -- The changed files are asked for only if no operation is on a followed method.
  split
  · refine (logged_changesTracked h d w.current w.tracked).bind fun log₂ isRelevant hfiles =>
      logged_pure ?_
    have hlog : log ⊆ log ++ ([.detect p w.current found] ++ (log₂ ++ [])) :=
      List.subset_append_left _ _
    refine (hw.mono hlog).look (by simp [hp]) (by simp) hage rfl (fun hr => .inr ?_) rfl
    obtain ⟨files, hmem, hf⟩ := hfiles hr
    exact ⟨files, by simp [hmem], hf⟩
  · rename_i hne
    have hpure : Logged h d (pure true) fun log₂ _ => log₂ = [] := logged_pure rfl
    refine hpure.bind fun log₂ isRelevant hlog => logged_pure ?_
    have hlog : log ⊆ log ++ ([.detect p w.current found] ++ (log₂ ++ [])) :=
      List.subset_append_left _ _
    refine (hw.mono hlog).look (by simp [hp]) (by simp) hage rfl (fun _ => .inl fun hnil => ?_) rfl
    exact hne (List.isEmpty_iff.mpr hnil)

theorem logged_step (hw : w.Sound b target first log) :
    Logged h d (step h d b target w) fun log' w' => ∀ w'' ∈ w',
      w''.Sound b target first (log ++ log') ∧ w''.analyzed = w.analyzed + 1 := by
  unfold step
  cases hage : b.isTooOld target w.current with
  | true => exact logged_pure nofun
  | false =>
    refine (logged_parent h d w.current.id).bind fun log₁ answer hlog => ?_
    subst hlog
    match answer with
    | .ok (some p) =>
      have hp : Exchange.parent w.current.id (.ok (some p)) ∈
          log ++ [.parent w.current.id (.ok (some p))] :=
        List.mem_append_right _ List.mem_cons_self
      have hw' := hw.mono (List.subset_append_left log [.parent w.current.id (.ok (some p))])
      refine (logged_look hw' hp hage).bind fun log₂ w₂ hw₂ => logged_pure ?_
      intro w'' hw''
      cases hw''
      simpa using hw₂
    | .ok none => exact logged_pure nofun
    | .error e => exact logged_pure nofun

theorem logged_walk (n : Nat) {w : Walk} {log : List Exchange} (hw : w.Sound b target first log) :
    Logged h d (walk h d b target n w) fun log' w' =>
      w'.Sound b target first (log ++ log') ∧ w'.analyzed ≤ w.analyzed + n := by
  induction n generalizing w log with
  | zero => exact logged_pure ⟨by simpa using hw, Nat.le_refl _⟩
  | succ n ih =>
    refine (logged_step hw).bind fun log₁ next hnext => ?_
    cases next with
    | none =>
      refine logged_pure ⟨hw.mono ?_, Nat.le_add_right _ _⟩
      exact List.subset_append_left _ _
    | some w₁ =>
      obtain ⟨hw₁, hanalyzed⟩ := hnext w₁ rfl
      refine (ih hw₁).mono fun log₂ w₂ hw₂ => ?_
      rw [← List.append_assoc]
      exact ⟨hw₂.1, by omega⟩

theorem Walk.Sound.bounded (hw : w.Sound b target first log) (hf : first.commit = target)
    (ha : w.analyzed ≤ b.depth) : Bounded b target log ⟨w.entries, w.analyzed⟩ := by
  obtain ⟨passed, hchain, hsub⟩ := hw.ancestors
  obtain ⟨early, he, hlen, hrel⟩ := hw.entries
  refine ⟨?_, ⟨passed ++ [w.current], hchain, ?_⟩, ?_, ?_, ⟨?_, ha⟩, ?_⟩
  · simp [target?, he, hf]
  · exact hsub.trans (List.sublist_append_left _ _)
  · simp only [he, List.length_append, List.length_singleton]
    omega
  · simp [Timeline.relevant, he]
  · simpa [Timeline.relevant, he] using hlen
  · simpa [he] using hrel

theorem logged_ofTarget (h : History σ) (d : Detector σ) (b : Budget) (target : Commit) :
    Logged h d (ofTarget h d b target) fun log t => Bounded b target log t := by
  refine (logged_parent h d target.id).bind fun log₁ answer hlog => ?_
  subst hlog
  match answer with
  | .ok none => exact logged_pure (bounded_alone rfl)
  | .error e => exact logged_pure (bounded_alone rfl)
  | .ok (some p) =>
    refine (logged_detect h d p target).bind fun log₂ ops _ => ?_
    dsimp only
    split
    · exact logged_pure (bounded_alone rfl)
    · -- The walk starts at the target's parent with the target's entry alone.
      let first : TimelineEntry :=
        ⟨target, TextSet.ofList (ops.flatMap fun op => methodKeys op.after), ops, some p.id, ops⟩
      let start : Walk := ⟨p, followAll first.tracked ops, 0, [first]⟩
      have hstart : start.Sound b target first
          ([.parent target.id (.ok (some p))] ++ log₂) := by
        refine ⟨⟨[target], ⟨rfl, ?_⟩, List.Sublist.refl _⟩, ⟨[], rfl, Nat.le_refl _, nofun⟩⟩
        exact List.isChain_pair.mpr (List.mem_append_left _ List.mem_cons_self)
      refine (logged_walk b.depth hstart).bind fun log₃ w hw => logged_pure ?_
      rw [List.append_nil, ← List.append_assoc]
      exact hw.1.bounded rfl (by simpa [start] using hw.2)

/-- Whatever is answered, a timeline keeps to its budget, to first parents and to what it follows. -/
theorem logged_build (h : History σ) (d : Detector σ) (b : Budget) (reference : String) :
    Logged h d (build h d b reference) (Outcome b reference) := by
  refine (logged_info h d reference).bind fun log₁ answer hlog => ?_
  subst hlog
  cases answer with
  | error e => exact logged_pure (.unresolved e)
  | ok target =>
    refine (logged_ofTarget h d b target).bind fun log₂ t ht => logged_pure ?_
    rw [List.append_nil]
    exact .resolved (ht.mono (List.subset_cons_self _ _))

end Step

end Log

end Timeline

end Lineage
