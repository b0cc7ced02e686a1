import Lineage.Proofs.Stages
import Mathlib.Data.List.Chain
/-! # Turns and failures

Versions take turns to be checked out and parsed, and work ends at the first call that fails a stage.
Main statements: `Processes.turns`, `Processes.tidy`, `Processes.ends`.
-/
namespace Lineage

namespace Call

def isRestore : Call → Bool
  | ask (.restore _) => true
  | _ => false

def isCheckout : Call → Bool
  | ask (.checkout ..) => true
  | _ => false

def isWrite : Call → Bool
  | write .. => true
  | _ => false

/-- Whether a call only asks: neither the working tree nor an export is at stake. -/
def isInquiry : Call → Bool
  | ask (.checkout ..) | ask (.restore _) | parse .. | write .. => false
  | _ => true

/-- Whether a call fails a stage. A failed detection never does, and on the way back to older commits
a failed question only ends the way. -/
def isFatal (mode : Mode) : Call → Bool
  | ask (.info _ (.error _)) | ask (.linear _ _ (.error _)) | ask (.checkout _ (.error _)) => true
  | ask (.parent _ (.error _)) | ask (.parent _ (.ok none)) => mode = .evolution
  | parse _ (.error _) | write _ (.error _) => true
  | _ => false

/-- A version's turn to be checked out or parsed. -/
inductive Turn where
  | checkout (id : String)
  | parse (v : Commit)
  deriving DecidableEq

def turn? : Call → Option Turn
  | ask (.checkout id _) => some (.checkout id)
  | parse v _ => some (.parse v)
  | _ => none

def turns (vs : List Commit) : List Turn := vs.flatMap fun v => [.checkout v.id, .parse v]

/-- After a version was checked out, the next call parses it. -/
def FollowsUp (x y : Call) : Prop :=
  ∀ id, x = ask (.checkout id (.ok ())) → ∃ v a, y = parse v a ∧ v.id = id

/-- The call leaves the working tree and the export alone. -/
structure Unobtrusive (x : Call) : Prop where
  not_restore : x.isRestore = false
  not_checkout : x.isCheckout = false
  not_write : x.isWrite = false
  no_turn : x.turn? = none

theorem unobtrusive {x : Call} (h : x.isInquiry = true) : Unobtrusive x := by
  match x, h with
  | .ask (.info ..), _ | .ask (.parent ..), _ | .ask (.linear ..), _ => exact ⟨rfl, rfl, rfl, rfl⟩
  | .ask (.changedFiles ..), _ | .ask (.detect ..), _ | .now _, _ => exact ⟨rfl, rfl, rfl, rfl⟩

end Call

namespace Pipeline

open Call

/-- Why a run fails at a call. -/
inductive Fails (cfg : Config) (log : List Call) : Call → RunError → Prop
  | headless (hm : cfg.mode = .single) (reference : String) (e : RepositoryError) :
    Fails cfg log (.ask (.info reference (.error e))) (.noHead e)
  | unresolved (hm : cfg.mode ≠ .single) (reference : String) (e : RepositoryError) :
    Fails cfg log (.ask (.info reference (.error e))) (.repository e)
  | orphaned (hm : cfg.mode = .evolution) (id : String) (e : RepositoryError) :
    Fails cfg log (.ask (.parent id (.error e))) (.repository e)
  | root (hm : cfg.mode = .evolution) {target : Commit}
    (ht : .ask (.info cfg.evolution.commit (.ok target)) ∈ log) :
    Fails cfg log (.ask (.parent target.id (.ok none))) (.noParent target)
  | unlisted (reference : String) (depth : Nat) (e : RepositoryError) :
    Fails cfg log (.ask (.linear reference depth (.error e))) (.repository e)
  | refused (id : String) (e : RepositoryError) :
    Fails cfg log (.ask (.checkout id (.error e))) (.repository e)
  | unparsed (hm : cfg.mode = .single) (v : Commit) (reasons : List String) :
    Fails cfg log (.parse v (.error reasons)) (.unparsed cfg.project.path reasons)
  | unparsedVersion (hm : cfg.mode ≠ .single) (v : Commit) (reasons : List String) :
    Fails cfg log (.parse v (.error reasons)) (.unparsedVersion v reasons)
  | unwritten (x : Export) (e : Export.Failure) :
    Fails cfg log (.write x (.error e)) (.unwritten e)

/-! ## Turns -/

/-- Every checkout that succeeds is followed up, within the calls. -/
structure Tidy (log : List Call) : Prop where
  chain : log.IsChain FollowsUp
  last : ∀ x ∈ log.getLast?, ∀ id, x ≠ .ask (.checkout id (.ok ()))

theorem Tidy.append {log log' : List Call} (h : Tidy log) (h' : Tidy log') :
    Tidy (log ++ log') where
  chain := List.isChain_append.mpr ⟨h.chain, h'.chain, fun x hx _ _ id hid =>
    absurd hid (h.last x hx id)⟩
  last x hx id := by
    rw [List.getLast?_append] at hx
    rcases Option.or_eq_some_iff.mp hx with hx | ⟨-, hx⟩
    · exact h'.last x hx id
    · exact h.last x hx id

theorem tidy_of_forall {log : List Call} (h : ∀ x ∈ log, x.isCheckout = false) : Tidy log := by
  have hne : ∀ x ∈ log, ∀ id, x ≠ .ask (.checkout id (.ok ())) := by
    rintro x hx id rfl
    cases h _ hx
  refine ⟨?_, fun x hx => hne x (List.mem_of_getLast? hx)⟩
  refine List.Pairwise.isChain (List.pairwise_of_forall_mem_list ?_)
  exact fun x hx _ _ id hid => absurd hid (hne x hx id)

section Versions
variable {name : String} {p : Progress} {v : Commit} {vs : List Commit} {log : List Call}

theorem exists_detect {known : Timeline.Detections} {older newer : Commit}
    {ops : List Refactoring.Operation} (h : Obtains known older newer log ops) {x : Call}
    (hx : x ∈ log) : ∃ found, x = .ask (.detect older newer found) := by
  cases h with
  | reused _ => cases hx
  | detected _ found => exact ⟨found, List.mem_singleton.mp hx⟩

theorem Advances.turns {o : Except RunError Progress} (h : Advances name p v log o) :
    log.filterMap turn? <+: Call.turns [v] ∧
      ∀ q, o = .ok q → log.filterMap turn? = Call.turns [v] := by
  cases h with
  | refused e => exact ⟨⟨[.parse v], rfl⟩, nofun⟩
  | unparsed reasons => exact ⟨⟨[], rfl⟩, nofun⟩
  | first hp g => exact ⟨⟨[], rfl⟩, fun _ _ => rfl⟩
  | @next older _ _ g calls _ ho =>
    have hcalls : calls.filterMap turn? = [] := by
      rw [List.filterMap_eq_nil_iff]
      intro x hx
      obtain ⟨found, rfl⟩ := exists_detect ho hx
      rfl
    have hall : (.ask (.checkout v.id (.ok ())) :: .parse v (.ok g) :: calls).filterMap turn? =
        Call.turns [v] := by
      simp only [List.filterMap_cons, turn?, hcalls]
      rfl
    exact ⟨⟨[], by rw [hall, List.append_nil]⟩, fun _ _ => hall⟩

/-- Versions take their turns in order, all of them if none fails. -/
theorem Processes.turns {o : Except RunError Progress} (h : Processes name p vs log o) :
    log.filterMap turn? <+: Call.turns vs ∧
      ∀ q, o = .ok q → log.filterMap turn? = Call.turns vs := by
  induction h with
  | done p => exact ⟨List.prefix_refl _, fun _ _ => rfl⟩
  | @stopped p v vs calls e h =>
    refine ⟨h.turns.1.trans ?_, nofun⟩
    exact ⟨Call.turns vs, rfl⟩
  | @next p q v vs calls log o h hrest ih =>
    have hfirst := h.turns.2 q rfl
    rw [List.filterMap_append, hfirst]
    have hcons : Call.turns (v :: vs) = Call.turns [v] ++ Call.turns vs := rfl
    rw [hcons]
    exact ⟨(List.prefix_append_right_inj _).mpr ih.1, fun q' hq' => by rw [ih.2 q' hq']⟩

theorem Advances.tidy {o : Except RunError Progress} (h : Advances name p v log o) :
    Tidy log ∧ ∀ x ∈ log, x.isRestore = false ∧ x.isWrite = false := by
  have hturn : ∀ (a : Except (List String) Graph) (calls : List Call),
      (∀ x ∈ calls, x.isInquiry = true) →
      Tidy (.ask (.checkout v.id (.ok ())) :: .parse v a :: calls) ∧
        ∀ x ∈ Call.ask (.checkout v.id (.ok ())) :: .parse v a :: calls,
          x.isRestore = false ∧ x.isWrite = false := by
    intro a calls hcalls
    have hrest : Tidy (.parse v a :: calls) := by
      refine tidy_of_forall fun x hx => ?_
      rcases List.mem_cons.mp hx with rfl | hx
      · rfl
      · exact (unobtrusive (hcalls x hx)).not_checkout
    refine ⟨⟨List.isChain_cons_cons.mpr ⟨?_, hrest.chain⟩, hrest.last⟩, ?_⟩
    · rintro id ⟨⟩
      exact ⟨v, a, rfl, rfl⟩
    · intro x hx
      rcases List.mem_cons.mp hx with rfl | hx
      · exact ⟨rfl, rfl⟩
      rcases List.mem_cons.mp hx with rfl | hx
      · exact ⟨rfl, rfl⟩
      · exact ⟨(unobtrusive (hcalls x hx)).not_restore, (unobtrusive (hcalls x hx)).not_write⟩
  cases h with
  | refused e =>
    refine ⟨⟨List.isChain_singleton _, ?_⟩, ?_⟩
    · rintro x ⟨⟩ id ⟨⟩
    · intro x hx
      rw [List.mem_singleton.mp hx]
      exact ⟨rfl, rfl⟩
  | unparsed reasons => exact hturn _ [] (List.forall_mem_nil _)
  | first hp g => exact hturn _ [] (List.forall_mem_nil _)
  | next hp g ho =>
    refine hturn _ _ fun x hx => ?_
    obtain ⟨found, rfl⟩ := exists_detect ho hx
    rfl

theorem Processes.tidy {o : Except RunError Progress} (h : Processes name p vs log o) :
    Tidy log ∧ ∀ x ∈ log, x.isRestore = false ∧ x.isWrite = false := by
  induction h with
  | done p => exact ⟨tidy_of_forall (List.forall_mem_nil _), List.forall_mem_nil _⟩
  | stopped h => exact h.tidy
  | next h hrest ih =>
    refine ⟨h.tidy.1.append ih.1, fun x hx => ?_⟩
    rcases List.mem_append.mp hx with hx | hx
    · exact h.tidy.2 x hx
    · exact ih.2 x hx

/-! ## Failures -/

theorem Fails.mono {cfg : Config} {log log' : List Call} {x : Call} {e : RunError}
    (h : Fails cfg log x e) (hl : log ⊆ log') : Fails cfg log' x e := by
  cases h with
  | headless hm reference e => exact .headless hm reference e
  | unresolved hm reference e => exact .unresolved hm reference e
  | orphaned hm id e => exact .orphaned hm id e
  | root hm ht => exact .root hm (hl ht)
  | unlisted reference depth e => exact .unlisted reference depth e
  | refused id e => exact .refused id e
  | unparsed hm v reasons => exact .unparsed hm v reasons
  | unparsedVersion hm v reasons => exact .unparsedVersion hm v reasons
  | unwritten x e => exact .unwritten x e

theorem Fails.isFatal {cfg : Config} {log : List Call} {x : Call} {e : RunError}
    (h : Fails cfg log x e) : x.isFatal cfg.mode = true := by
  cases h with
  | orphaned hm | root hm => exact decide_eq_true hm
  | headless | unresolved | unlisted | refused | unparsed | unparsedVersion | unwritten => rfl

theorem not_fails {cfg : Config} {log : List Call} {x : Call} {e : RunError}
    (h : x.isFatal cfg.mode = false) : ¬Fails cfg log x e := by
  intro hf
  rw [hf.isFatal] at h
  cases h

/-- Work ends well if no call failed a stage, and else at the first that did. -/
inductive Ends {α : Type} (cfg : Config) (log : List Call) : Except RunError α → Prop
  | well (h : ∀ x ∈ log, x.isFatal cfg.mode = false) (a : α) : Ends cfg log (.ok a)
  | badly {l : List Call} {x : Call} {e : RunError} (hl : log = l ++ [x])
    (hpre : ∀ y ∈ l, y.isFatal cfg.mode = false) (hf : Fails cfg log x e) :
    Ends cfg log (.error e)

variable {cfg : Config}

theorem Ends.of_fails {α : Type} {x : Call} {e : RunError} (h : Fails cfg [x] x e) :
    Ends cfg [x] (.error e : Except RunError α) :=
  .badly (l := []) rfl (List.forall_mem_nil _) h

theorem Ends.append {α : Type} {log' : List Call} {o : Except RunError α}
    (hlog : ∀ x ∈ log, x.isFatal cfg.mode = false) (h : Ends cfg log' o) :
    Ends cfg (log ++ log') o := by
  have hall : ∀ {pre : List Call}, (∀ x ∈ pre, x.isFatal cfg.mode = false) →
      ∀ x ∈ log ++ pre, x.isFatal cfg.mode = false := by
    intro pre hpre x hx
    rcases List.mem_append.mp hx with hx | hx
    · exact hlog x hx
    · exact hpre x hx
  cases h with
  | well h a => exact .well (hall h) a
  | badly hl hpre hf =>
    refine .badly ?_ (hall hpre) (hf.mono (List.subset_append_right _ _))
    rw [hl, List.append_assoc]

theorem Ends.not_fatal {α : Type} {a : α} (h : Ends cfg log (.ok a)) :
    ∀ x ∈ log, x.isFatal cfg.mode = false := by
  cases h with
  | well h _ => exact h

variable (hm : cfg.mode ≠ .single)
include hm

theorem Advances.ends {o : Except RunError Progress} (h : Advances name p v log o) :
    Ends cfg log o := by
  cases h with
  | refused e => exact .of_fails (.refused _ e)
  | unparsed reasons =>
    refine .badly (l := [.ask (.checkout v.id (.ok ()))]) rfl ?_ (.unparsedVersion hm v reasons)
    intro y hy
    rw [List.mem_singleton.mp hy]
    rfl
  | first hp g =>
    refine .well (fun x hx => ?_) _
    simp only [List.mem_cons, List.not_mem_nil, or_false] at hx
    rcases hx with rfl | rfl
    all_goals rfl
  | next hp g ho =>
    refine .well (fun x hx => ?_) _
    simp only [List.mem_cons] at hx
    rcases hx with rfl | rfl | hx
    · rfl
    · rfl
    · obtain ⟨found, rfl⟩ := exists_detect ho hx
      rfl

theorem Processes.ends {o : Except RunError Progress} (h : Processes name p vs log o) :
    Ends cfg log o := by
  induction h with
  | done p => exact .well (List.forall_mem_nil _) p
  | stopped h =>
    cases h.ends hm with
    | badly hl hpre hf => exact .badly hl hpre hf
  | next h hrest ih => exact ih.append (h.ends hm).not_fatal

omit hm in
theorem Finishes.ends {r r' : RunReport} {g : Graph} {versions : List Version}
    {o : Except RunError Unit} (h : Finishes r g versions log o r') : Ends cfg log o := by
  cases h with
  | failed ws e => exact .of_fails (.unwritten _ e)
  | written ws ex st =>
    refine .well (fun x hx => ?_) ()
    rw [List.mem_singleton.mp hx]
    rfl

end Versions

end Pipeline

end Lineage
