import Lineage.Git.Session
import Lineage.Proofs.Sorted
import Mathlib.Control.Monad.Basic
import Mathlib.Data.List.Induction
/-! # Going back to what was checked out

A session checks versions out and in the end goes back to what was checked out when it was opened.
Every step of it may fail, and a step that fails changes nothing. Going back succeeds only if the
head is the one of the beginning again. The files are those of the beginning as well, as long as no
checkout was interrupted between putting a version into the working tree and recording it; the
session does not know that it has to go back then. Main statements: `checks_checkout`,
`restore_of_interrupted`, `restore_undoes`.
-/
namespace Lineage.Git

/-- What checkouts see of repositories of some type. -/
structure View (ρ : Type) where
  head : ρ → Head
  files : ρ → Tree
  branch : ρ → String → Option Id
  version : ρ → Id → Option Tree

namespace View

variable {ρ : Type} (v : View ρ)

def commitOf? (r : ρ) : Head → Option Id
  | .branch name => v.branch r name
  | .detached id => some id

def commit? (r : ρ) : Option Id := v.commitOf? r (v.head r)

/-- The tracked files are those of the version that is checked out. -/
def Clean (r : ρ) : Prop := ∃ id, v.commit? r = some id ∧ v.version r id = some (v.files r)

/-- From one repository to another, only the head and the files may differ, which are given. -/
structure Becomes (r r' : ρ) (head : Head) (files : Tree) : Prop where
  head : v.head r' = head
  files : v.files r' = files
  branch : v.branch r' = v.branch r
  version : v.version r' = v.version r

/-- Nothing differs that checkouts see. -/
def Same (r r' : ρ) : Prop := v.Becomes r r' (v.head r) (v.files r)

variable {v} {r r' r'' : ρ} {head : Head} {files : Tree}

theorem commitOf?_congr (h : v.branch r' = v.branch r) (head : Head) :
    v.commitOf? r' head = v.commitOf? r head := by
  cases head with
  | branch name => exact congrFun h name
  | detached id => rfl

theorem Same.refl (r : ρ) : v.Same r r := ⟨rfl, rfl, rfl, rfl⟩

theorem Same.becomes (h : v.Same r r') (h' : v.Becomes r' r'' head files) :
    v.Becomes r r'' head files :=
  ⟨h'.head, h'.files, h'.branch.trans h.branch, h'.version.trans h.version⟩

theorem Becomes.becomes_same (h : v.Becomes r r' head files) (h' : v.Same r' r'') :
    v.Becomes r r'' head files :=
  ⟨h'.head.trans h.head, h'.files.trans h.files, h'.branch.trans h.branch,
    h'.version.trans h.version⟩

theorem Same.trans (h : v.Same r r') (h' : v.Same r' r'') : v.Same r r'' := h.becomes_same h'

theorem Same.clean_iff (h : v.Same r r') : v.Clean r' ↔ v.Clean r := by
  have hcommit : v.commit? r' = v.commit? r := by
    rw [commit?, commit?, h.head, commitOf?_congr h.branch]
  rw [Clean, Clean, hcommit, h.version, h.files]

end View

/-- The steps do what they are documented to do, or fail without doing anything. -/
structure Steps.Documented {ρ : Type} (s : Steps ρ) (v : View ρ) : Prop where
  /-- No stale file is tracked. -/
  cleanUp : ∀ r, v.Same r (s.cleanUp r).2
  dirtyFiles : ∀ r, v.Same r (s.dirtyFiles r).2
  clean : ∀ r, (s.dirtyFiles r).1 = .ok [] → v.Clean r
  resolve : ∀ reference r, v.Same r (s.resolve reference r).2
  /-- The id of a commit refers to that commit. -/
  resolve_id : ∀ id r id', (v.version r id).isSome → (s.resolve id r).1 = .ok id' → id' = id
  tip : ∀ name r, v.Same r (s.tip name r).2
  tip_branch : ∀ name r id, (s.tip name r).1 = .ok id → v.branch r name = some id
  /-- Where there are no changes that it has to spare, a checkout leaves the files of the commit. -/
  place : ∀ reference id r, (s.place reference id r).1 = .ok () →
    ∃ files, v.Becomes r (s.place reference id r).2 (v.head r) files ∧
      (v.Clean r → v.version r id = some files)
  place_error : ∀ reference id r e, (s.place reference id r).1 = .error e →
    v.Same r (s.place reference id r).2
  detach : ∀ id r, (s.detach id r).1 = .ok () →
    v.Becomes r (s.detach id r).2 (.detached id) (v.files r)
  detach_error : ∀ id r e, (s.detach id r).1 = .error e → v.Same r (s.detach id r).2
  attach : ∀ name r, (s.attach name r).1 = .ok () →
    v.Becomes r (s.attach name r).2 (.branch name) (v.files r)
  attach_error : ∀ name r e, (s.attach name r).1 = .error e → v.Same r (s.attach name r).2

/-! ## Sketches of repositories -/

/-- A repository of versions and branches, without anything untracked. -/
structure Sketch where
  versions : TextMap Tree
  branches : TextMap Id
  head : Head
  files : Tree

namespace Sketch

def view : View Sketch where
  head := head
  files := files
  branch r name := r.branches.get? name
  version r id := r.versions.get? id

def baseline? (r : Sketch) : Option Tree := (view.commit? r).bind (view.version r)

def resolve? (r : Sketch) (reference : String) : Option Id :=
  if r.versions.contains reference then some reference else r.branches.get? reference

/-- Puts a version in place of the one that is checked out, not in place of anything else. -/
def place? (r : Sketch) (id : Id) : Option Sketch :=
  if r.baseline? = some r.files then
    (r.versions.get? id).map fun files => { r with files }
  else none

def steps : Steps Sketch where
  cleanUp r := (.ok 0, r)
  dirtyFiles r := (r.baseline?.elim (.error (.unresolved "HEAD")) fun files =>
    .ok (Repository.differing files r.files), r)
  resolve reference r := ((r.resolve? reference).elim (.error (.unresolved reference)) .ok, r)
  tip name r := ((r.branches.get? name).elim (.error (.unresolved name)) .ok, r)
  place reference id r :=
    (r.place? id).elim (.error (.checkout reference), r) fun r => (.ok (), r)
  detach id r := (.ok (), { r with head := .detached id })
  attach name r := (.ok (), { r with head := .branch name })

theorem eq_of_differing_eq_nil {old new : Tree} (h : Repository.differing old new = []) :
    old = new := by
  refine TextMap.ext fun p => ?_
  rw [Repository.differing, List.filter_eq_nil_iff] at h
  by_cases hp : p ∈ old.paths ++ new.paths
  · simpa using h p ((TextSet.mem_toList _ p).mpr (TextSet.mem_ofList.mpr hp))
  · rw [List.mem_append, not_or] at hp
    rw [TextMap.get?_eq_none hp.1, TextMap.get?_eq_none hp.2]

theorem steps_documented : steps.Documented view where
  cleanUp _ := .refl _
  dirtyFiles _ := .refl _
  clean r h := by
    have hb : r.baseline? = some r.files := by
      cases hb : r.baseline? with
      | none => simp [steps, hb] at h
      | some files =>
        simp only [steps, hb, Option.elim_some, Except.ok.injEq] at h
        rw [eq_of_differing_eq_nil h]
    obtain ⟨id, hid, hv⟩ := Option.bind_eq_some_iff.mp hb
    exact ⟨id, hid, hv⟩
  resolve _ _ := .refl _
  resolve_id id r id' hv h := by
    have hc : r.versions.contains id := hv
    have hr : r.resolve? id = some id := if_pos hc
    simp only [steps, hr, Option.elim_some, Except.ok.injEq] at h
    exact h.symm
  tip _ _ := .refl _
  tip_branch name r id h := by
    cases hb : r.branches.get? name with
    | none => simp [steps, hb] at h
    | some id' =>
      simp only [steps, hb, Option.elim_some, Except.ok.injEq] at h
      exact hb.trans (congrArg some h)
  place reference id r h := by
    cases hp : r.place? id with
    | none => simp [steps, hp] at h
    | some r' =>
      simp only [place?, Option.ite_none_right_eq_some, Option.map_eq_some_iff] at hp
      obtain ⟨hb, files, hfiles, rfl⟩ := hp
      have hplace : steps.place reference id r = (.ok (), { r with files }) := by
        simp [steps, place?, hb, hfiles]
      rw [hplace]
      exact ⟨files, ⟨rfl, rfl, rfl, rfl⟩, fun _ => hfiles⟩
  place_error reference id r e h := by
    cases hp : r.place? id with
    | none => simp [steps, hp, View.Same.refl]
    | some r' => simp [steps, hp] at h
  detach _ _ _ := ⟨rfl, rfl, rfl, rfl⟩
  detach_error _ _ _ h := nomatch h
  attach _ _ _ := ⟨rfl, rfl, rfl, rfl⟩
  attach_error _ _ _ h := nomatch h

/-- A branch at the second of two versions, with some text in the working tree. -/
def twoVersions (text : String) : Sketch where
  versions := .ofList [("0001", .ofList [("a", .text "one")]),
    ("0002", .ofList [("a", .text "two")])]
  branches := .ofList [("refs/heads/main", "0002")]
  head := .branch "refs/heads/main"
  files := .ofList [("a", .text text)]

end Sketch

namespace Session

variable {ρ α β : Type} {s : Steps ρ} {v : View ρ} {w : Session ρ} {reference : String}

/-! ## Work that may fail -/

/-- Work that begins with a step ends there, or goes on from what the step leaves behind. -/
theorem step_bind (x : StateM ρ (Except RepositoryError α)) (f : α → Work ρ β) (w : Session ρ) :
    (step x >>= f) w = match x w.repository with
      | (.error e, r) => (.error e, { w with repository := r })
      | (.ok a, r) => f a { w with repository := r } := by
  have hbind : (step x >>= f) w = ExceptT.bindCont f (x w.repository).1
    { w with repository := (x w.repository).2 } := rfl
  rw [hbind]
  rcases x w.repository with ⟨e | a, r⟩ <;> rfl

/-! ## The way to a commit -/

def goTo (s : Steps ρ) (find : StateM ρ (Except RepositoryError Id)) (reference : String)
    (record : Id → StateM ρ (Except RepositoryError Unit)) (moved : Bool) : Work ρ Unit := do
  let id ← step find
  step (s.place reference id)
  step (record id)
  setMoved moved

/-- How the way to a commit ends. A commit's version may be in the working tree without being
recorded. -/
inductive Goes (s : Steps ρ) (v : View ρ) (find : StateM ρ (Except RepositoryError Id))
    (reference : String) (record : Id → StateM ρ (Except RepositoryError Unit)) (head : Id → Head)
    (moved : Bool) (w : Session ρ) : Except RepositoryError Unit × Session ρ → Prop
  | stopped {e : RepositoryError} {r : ρ} (hr : v.Same w.repository r) :
    Goes s v find reference record head moved w (.error e, { w with repository := r })
  | interrupted {id : Id} {e : RepositoryError} {r₁ r₂ r₃ : ρ} {files : Tree}
    (hfind : find w.repository = (.ok id, r₁)) (hplace : s.place reference id r₁ = (.ok (), r₂))
    (hrecord : record id r₂ = (.error e, r₃))
    (hr : v.Becomes w.repository r₃ (v.head w.repository) files) :
    Goes s v find reference record head moved w (.error e, { w with repository := r₃ })
  | done {id : Id} {r : ρ} {files : Tree} (hfind : (find w.repository).1 = .ok id)
    (hr : v.Becomes w.repository r (head id) files)
    (hv : v.Clean w.repository → v.version w.repository id = some files) :
    Goes s v find reference record head moved w (.ok (), { w with repository := r, moved := moved })

theorem goes_goTo (hs : s.Documented v) {find : StateM ρ (Except RepositoryError Id)}
    (reference : String) {record : Id → StateM ρ (Except RepositoryError Unit)} {head : Id → Head}
    (hfind : ∀ r, v.Same r (find r).2)
    (hrecord : ∀ id r, (record id r).1 = .ok () →
      v.Becomes r (record id r).2 (head id) (v.files r))
    (herror : ∀ id r e, (record id r).1 = .error e → v.Same r (record id r).2)
    (moved : Bool) (w : Session ρ) :
    Goes s v find reference record head moved w (goTo s find reference record moved w) := by
  have h₁ := hfind w.repository
  rw [goTo, step_bind]
  rcases hx₁ : find w.repository with ⟨e | id, r₁⟩
  all_goals rw [hx₁] at h₁; dsimp only at h₁ ⊢
  · exact .stopped h₁
  rw [step_bind]
  dsimp only
  rcases hx₂ : s.place reference id r₁ with ⟨e | _, r₂⟩
  · have h₂ := hs.place_error reference id r₁ e (by rw [hx₂])
    rw [hx₂] at h₂
    exact .stopped (h₁.trans h₂)
  obtain ⟨files, h₂, hv⟩ := hs.place reference id r₁ (by rw [hx₂])
  rw [hx₂] at h₂
  dsimp only at h₂ ⊢
  have hplaced := h₁.becomes h₂
  rw [step_bind]
  dsimp only
  rcases hx₃ : record id r₂ with ⟨e | _, r₃⟩
  · have h₃ := herror id r₂ e (by rw [hx₃])
    rw [hx₃] at h₃
    have hb : v.Becomes w.repository r₃ (v.head w.repository) files := by
      rw [← h₁.head]
      exact hplaced.becomes_same h₃
    exact .interrupted hx₁ hx₂ hx₃ hb
  · have h₃ := hrecord id r₂ (by rw [hx₃])
    rw [hx₃] at h₃
    have hb : v.Becomes w.repository r₃ (head id) files :=
      ⟨h₃.head, h₃.files.trans hplaced.files, h₃.branch.trans hplaced.branch,
        h₃.version.trans hplaced.version⟩
    refine .done (by rw [hx₁]) hb fun hc => ?_
    rw [← h₁.version]
    exact hv (h₁.clean_iff.mpr hc)

/-! ## Checkouts -/

theorem checkout_eq (s : Steps ρ) (reference : String) : checkout s reference =
    (do
      let _ ← step s.cleanUp
      let dirty ← step s.dirtyFiles
      match dirty with
      | [] => goTo s (s.resolve reference) reference s.detach true
      | f :: fs => throw (.dirty reference (f :: fs))) := by
  rw [checkout]
  congr 1
  funext _
  congr 1
  funext dirty
  cases dirty <;> rfl

/-- A checkout is refused where there are changes, and then it has changed nothing itself. -/
theorem checkout_of_dirty (hs : s.Documented v) {n : Nat} {r₁ r₂ : ρ} {f : String}
    {fs : List String} (hcleanUp : s.cleanUp w.repository = (.ok n, r₁))
    (hdirty : s.dirtyFiles r₁ = (.ok (f :: fs), r₂)) :
    checkout s reference w = (.error (.dirty reference (f :: fs)), { w with repository := r₂ }) ∧
      v.Same w.repository r₂ := by
  have h₁ := hs.cleanUp w.repository
  have h₂ := hs.dirtyFiles r₁
  rw [hcleanUp] at h₁
  rw [hdirty] at h₂
  refine ⟨?_, h₁.trans h₂⟩
  rw [checkout_eq, step_bind, hcleanUp]
  dsimp only
  rw [step_bind]
  dsimp only
  rw [hdirty]
  rfl

/-- A version is put into the working tree, and then cannot be recorded as checked out. -/
def Interrupted (s : Steps ρ) (reference : String) (w : Session ρ) : Prop :=
  ∃ n r₁ r₂ id r₃ r₄ e r₅, s.cleanUp w.repository = (.ok n, r₁) ∧ s.dirtyFiles r₁ = (.ok [], r₂) ∧
    s.resolve reference r₂ = (.ok id, r₃) ∧ s.place reference id r₃ = (.ok (), r₄) ∧
    s.detach id r₄ = (.error e, r₅)

/-- What a checkout comes to. -/
inductive Checks (s : Steps ρ) (v : View ρ) (reference : String) (w : Session ρ) :
    Except RepositoryError Unit × Session ρ → Prop
  | stopped {e : RepositoryError} {r : ρ} (hr : v.Same w.repository r) :
    Checks s v reference w (.error e, { w with repository := r })
  | interrupted {e : RepositoryError} {r : ρ} {files : Tree} (hi : Interrupted s reference w)
    (hr : v.Becomes w.repository r (v.head w.repository) files) :
    Checks s v reference w (.error e, { w with repository := r })
  | done {id : Id} {r : ρ} {files : Tree} (hc : v.Clean w.repository)
    (hr : v.Becomes w.repository r (.detached id) files)
    (hv : v.version w.repository id = some files) :
    Checks s v reference w (.ok (), { w with repository := r, moved := true })

theorem checks_checkout (hs : s.Documented v) (reference : String) (w : Session ρ) :
    Checks s v reference w (checkout s reference w) := by
  have h₁ := hs.cleanUp w.repository
  rw [checkout_eq, step_bind]
  rcases hx₁ : s.cleanUp w.repository with ⟨e | n, r₁⟩
  all_goals rw [hx₁] at h₁; dsimp only at h₁ ⊢
  · exact .stopped h₁
  have h₂ := h₁.trans (hs.dirtyFiles r₁)
  rw [step_bind]
  dsimp only
  rcases hx₂ : s.dirtyFiles r₁ with ⟨e | dirty, r₂⟩
  all_goals rw [hx₂] at h₂; dsimp only at h₂ ⊢
  · exact .stopped h₂
  cases dirty with
  | cons f fs => exact .stopped h₂
  | nil =>
    have hclean : v.Clean w.repository := h₁.clean_iff.mp (hs.clean r₁ (by rw [hx₂]))
    dsimp only
    have hgoes := goes_goTo hs reference (hs.resolve reference) hs.detach hs.detach_error true
      { w with repository := r₂ }
    generalize goTo s _ _ _ _ _ = result at hgoes
    cases hgoes with
    | stopped hr => exact .stopped (h₂.trans hr)
    | interrupted hfind hplace hrecord hr =>
      have hb := h₂.becomes hr
      rw [h₂.head] at hb
      exact .interrupted ⟨_, _, _, _, _, _, _, _, hx₁, hx₂, hfind, hplace, hrecord⟩ hb
    | done hfind hr hv =>
      refine .done hclean (h₂.becomes hr) ?_
      rw [← h₂.version]
      exact hv (h₂.clean_iff.mpr hclean)

/-! ## The way back -/

theorem restore_of_settled (s : Steps ρ) (h : w.moved = false) : restore s w = (.ok (), w) := by
  obtain ⟨r, home, moved⟩ := w
  cases h
  rfl

theorem restore_of_moved (s : Steps ρ) (h : w.moved = true) : restore s w =
    (do
      let _ ← step s.cleanUp
      match w.home with
      | .branch name => goTo s (s.tip name) name (fun _ => s.attach name) false
      | .detached commit =>
        goTo s (s.resolve commit) commit (fun _ => s.detach commit) false : Work ρ Unit) w := by
  obtain ⟨r, home, moved⟩ := w
  cases h
  cases home <;> rfl

/-- A session that can go back: as long as it does not know of having moved, it is where it was
opened, and otherwise the head's version is in the working tree. -/
structure Tethered (v : View ρ) (r₀ : ρ) (w : Session ρ) : Prop where
  home : w.home = v.head r₀
  branch : v.branch w.repository = v.branch r₀
  version : v.version w.repository = v.version r₀
  head : w.moved = false → v.head w.repository = v.head r₀

/-- Besides, no change is in the working tree that the session does not know of. -/
structure Trim (v : View ρ) (r₀ : ρ) (w : Session ρ) : Prop where
  settled : w.moved = false → v.files w.repository = v.files r₀
  moved : w.moved = true → v.Clean w.repository ∧ v.Clean r₀

section Tethered
variable {r₀ : ρ}

theorem tethered_opened (v : View ρ) (r₀ : ρ) : Tethered v r₀ ⟨r₀, v.head r₀, false⟩ :=
  ⟨rfl, rfl, rfl, fun _ => rfl⟩

theorem trim_opened (v : View ρ) (r₀ : ρ) : Trim v r₀ ⟨r₀, v.head r₀, false⟩ :=
  ⟨fun _ => rfl, nofun⟩

theorem Tethered.checkout (hs : s.Documented v) (h : Tethered v r₀ w) (reference : String) :
    Tethered v r₀ (checkout s reference w).2 := by
  have hchecks := checks_checkout hs reference w
  generalize Session.checkout s reference w = result at hchecks
  cases hchecks with
  | stopped hr | interrupted hi hr =>
    exact ⟨h.home, hr.branch.trans h.branch, hr.version.trans h.version,
      fun hm => hr.head.trans (h.head hm)⟩
  | done hc hr hv => exact ⟨h.home, hr.branch.trans h.branch, hr.version.trans h.version, nofun⟩

theorem Tethered.clean (h : Tethered v r₀ w) (hm : w.moved = false)
    (hf : v.files w.repository = v.files r₀) (hc : v.Clean w.repository) : v.Clean r₀ := by
  obtain ⟨id, hid, hv⟩ := hc
  rw [h.version, hf] at hv
  refine ⟨id, ?_, hv⟩
  rwa [View.commit?, h.head hm, View.commitOf?_congr h.branch] at hid

theorem Trim.checkout (hs : s.Documented v) (ht : Tethered v r₀ w) (h : Trim v r₀ w)
    (reference : String) (hi : ¬Interrupted s reference w) :
    Trim v r₀ (checkout s reference w).2 := by
  have hchecks := checks_checkout hs reference w
  generalize Session.checkout s reference w = result at hchecks
  cases hchecks with
  | stopped hr =>
    refine ⟨fun hm => hr.files.trans (h.settled hm), fun hm => ?_⟩
    exact ⟨hr.clean_iff.mpr (h.moved hm).1, (h.moved hm).2⟩
  | interrupted hi' hr => exact absurd hi' hi
  | @done id r files hc hr hv =>
    refine ⟨nofun, fun _ => ⟨⟨id, ?_, ?_⟩, ?_⟩⟩
    · rw [View.commit?, hr.head]
      rfl
    · rw [hr.version, hr.files]
      exact hv
    · cases hm : w.moved with
      | true => exact (h.moved hm).2
      | false => exact ht.clean hm (h.settled hm) hc

theorem becomes_restore (hs : s.Documented v) (hm : w.moved = true)
    (hr : (restore s w).1 = .ok ()) : ∃ id files,
      v.Becomes w.repository (restore s w).2.repository w.home files ∧
      (∀ c, v.commitOf? w.repository w.home = some c → (v.version w.repository c).isSome → id = c) ∧
      (v.Clean w.repository → v.version w.repository id = some files) := by
  have h₁ := hs.cleanUp w.repository
  rw [restore_of_moved s hm, step_bind] at hr ⊢
  rcases hx₁ : s.cleanUp w.repository with ⟨e | n, r₁⟩
  all_goals rw [hx₁] at hr h₁; dsimp only at hr h₁ ⊢
  · cases hr
  -- A branch and a commit are gone back to alike; the tip of the branch is not known beforehand.
  cases hhome : w.home with
  | branch name =>
    rw [hhome] at hr
    have hgoes := goes_goTo hs name (hs.tip name) (fun _ => hs.attach name)
      (fun _ => hs.attach_error name) false { w with repository := r₁, home := .branch name }
    dsimp only at hr hgoes ⊢
    generalize goTo s _ _ _ _ _ = result at hr hgoes
    cases hgoes with
    | stopped => cases hr
    | interrupted => cases hr
    | @done id r files hfind hb hv =>
      refine ⟨id, files, h₁.becomes hb, fun c hc _ => ?_, fun hc => ?_⟩
      · have hbranch := hs.tip_branch name r₁ _ hfind
        rw [h₁.branch] at hbranch
        exact Option.some.inj (hbranch.symm.trans hc)
      · rw [← h₁.version]
        exact hv (h₁.clean_iff.mpr hc)
  | detached commit =>
    rw [hhome] at hr
    have hgoes := goes_goTo hs commit (hs.resolve commit) (fun _ => hs.detach commit)
      (fun _ => hs.detach_error commit) false
      { w with repository := r₁, home := .detached commit }
    dsimp only at hr hgoes ⊢
    generalize goTo s _ _ _ _ _ = result at hr hgoes
    cases hgoes with
    | stopped => cases hr
    | interrupted => cases hr
    | @done id r files hfind hb hv =>
      refine ⟨id, files, h₁.becomes hb, fun c hc hsome => ?_, fun hc => ?_⟩
      · obtain rfl := Option.some.inj hc
        exact hs.resolve_id commit r₁ _ (by rwa [h₁.version]) hfind
      · rw [← h₁.version]
        exact hv (h₁.clean_iff.mpr hc)

theorem Tethered.head_restore (hs : s.Documented v) (h : Tethered v r₀ w)
    (hr : (restore s w).1 = .ok ()) : v.head (restore s w).2.repository = v.head r₀ := by
  cases hm : w.moved with
  | false =>
    rw [restore_of_settled s hm]
    exact h.head hm
  | true =>
    obtain ⟨_, _, hb, -, -⟩ := becomes_restore hs hm hr
    exact hb.head.trans h.home

theorem Trim.files_restore (hs : s.Documented v) (h : Tethered v r₀ w) (ht : Trim v r₀ w)
    (hr : (restore s w).1 = .ok ()) : v.files (restore s w).2.repository = v.files r₀ := by
  cases hm : w.moved with
  | false =>
    rw [restore_of_settled s hm]
    exact ht.settled hm
  | true =>
    obtain ⟨id, files, hb, hid, hv⟩ := becomes_restore hs hm hr
    obtain ⟨hclean, c, hc, hc₀⟩ := ht.moved hm
    have hcommit : v.commitOf? w.repository w.home = some c := by
      rw [View.commitOf?_congr h.branch, h.home]
      exact hc
    obtain rfl := hid c hcommit (by rw [h.version, hc₀]; rfl)
    have hfiles := hv hclean
    rw [h.version, hc₀] at hfiles
    rw [hb.files]
    exact (Option.some.inj hfiles).symm

end Tethered

/-! ## Many checkouts -/

def checkoutAll (s : Steps ρ) (references : List String) (w : Session ρ) : Session ρ :=
  references.foldl (fun w reference => (checkout s reference w).2) w

def InterruptedIn (s : Steps ρ) (references : List String) (w : Session ρ) : Prop :=
  ∃ before reference, (before ++ [reference]) <+: references ∧
    Interrupted s reference (checkoutAll s before w)

theorem Tethered.checkoutAll {r₀ : ρ} (hs : s.Documented v) (h : Tethered v r₀ w)
    (references : List String) : Tethered v r₀ (checkoutAll s references w) := by
  induction references using List.reverseRecOn with
  | nil => exact h
  | append_singleton references reference ih =>
    rw [Session.checkoutAll, List.foldl_append]
    exact ih.checkout hs reference

theorem Trim.checkoutAll {r₀ : ρ} (hs : s.Documented v) (ht : Tethered v r₀ w) (h : Trim v r₀ w)
    {references : List String} (hi : ¬InterruptedIn s references w) :
    Trim v r₀ (checkoutAll s references w) := by
  induction references using List.reverseRecOn with
  | nil => exact h
  | append_singleton references reference ih =>
    have hbefore : ¬InterruptedIn s references w := by
      rintro ⟨before, x, hp, hx⟩
      exact hi ⟨before, x, hp.trans (List.prefix_append _ _), hx⟩
    rw [Session.checkoutAll, List.foldl_append]
    exact (ih hbefore).checkout hs (ht.checkoutAll hs references) reference
      fun hx => hi ⟨references, reference, List.prefix_rfl, hx⟩

/-- After an interrupted checkout, a session that was where it was opened stays at the other
version: going back does nothing. -/
theorem restore_of_interrupted (hs : s.Documented v) (hm : w.moved = false)
    (hi : Interrupted s reference w) : ∃ e w' id, checkout s reference w = (.error e, w') ∧
      restore s w' = (.ok (), w') ∧ v.head w'.repository = v.head w.repository ∧
      v.version w.repository id = some (v.files w'.repository) := by
  obtain ⟨n, r₁, r₂, id, r₃, r₄, e, r₅, hx₁, hx₂, hx₃, hx₄, hx₅⟩ := hi
  have h₁ := hs.cleanUp w.repository
  have h₂ := hs.dirtyFiles r₁
  have h₃ := hs.resolve reference r₂
  obtain ⟨files, h₄, hv⟩ := hs.place reference id r₃ (by rw [hx₄])
  have h₅ := hs.detach_error id r₄ e (by rw [hx₅])
  have hclean := hs.clean r₁ (by rw [hx₂])
  rw [hx₁] at h₁
  rw [hx₂] at h₂
  rw [hx₃] at h₃
  rw [hx₄] at h₄
  rw [hx₅] at h₅
  have hsame : v.Same w.repository r₃ := (h₁.trans h₂).trans h₃
  have hb := (hsame.becomes h₄).becomes_same h₅
  refine ⟨e, { w with repository := r₅ }, id, ?_, restore_of_settled s hm, ?_, ?_⟩
  · simp only [checkout_eq, goTo, step_bind, hx₁, hx₂, hx₃, hx₄, hx₅]
  · exact hb.head.trans hsame.head
  · have hfiles := hv ((h₂.trans h₃).clean_iff.mpr hclean)
    rwa [hsame.version, ← hb.files] at hfiles

end Session

namespace Workplace

/-- A disk with two versions of one file, where another program has locked what is checked out. -/
def lockedDisk : Disk :=
  let draft (id text : String) : Repository.Draft :=
    { id, changes := [("a", some (.text text))], time := 0, message := "", author := "a",
      parents := none }
  let d := ((({} : Disk).addRepository "r" false).commit "r" "HEAD" (draft "0001" "one")).commit
    "r" "HEAD" (draft "0002" "two")
  { d with tree := d.tree.writeText "r/.git/HEAD.lock" "" }

/-- A failed checkout leaves the other version behind, and going back does nothing. -/
theorem restore_lockedDisk : ∃ w, (Session.checkout (steps ⟨"r", []⟩) "0001"
      ⟨lockedDisk, .branch "refs/heads/main", false⟩) = (.error (.locked "/r/.git/HEAD.lock"), w) ∧
    Session.restore (steps ⟨"r", []⟩) w = (.ok (), w) ∧
    lockedDisk.workFiles "r" = .ofList [("a", .text "two")] ∧
    w.repository.workFiles "r" = .ofList [("a", .text "one")] := by
  refine ⟨(Session.checkout (steps ⟨"r", []⟩) "0001"
    ⟨lockedDisk, .branch "refs/heads/main", false⟩).2, ?_, ?_, ?_, ?_⟩
  · exact Prod.ext (by decide +kernel) rfl
  · exact Session.restore_of_settled _ (by decide +kernel)
  · decide +kernel
  · decide +kernel

end Workplace

namespace Session

variable {ρ : Type} {s : Steps ρ} {v : View ρ}

/-- After any checkouts, going back restores the head, and the files unless a checkout was
interrupted; and a checkout that is refused for changes leaves everything as it was. -/
theorem restore_undoes (hs : s.Documented v) (r₀ : ρ) (references : List String) :
    (∀ w', restore s (checkoutAll s references ⟨r₀, v.head r₀, false⟩) = (.ok (), w') →
      v.head w'.repository = v.head r₀ ∧
        (¬InterruptedIn s references ⟨r₀, v.head r₀, false⟩ →
          v.files w'.repository = v.files r₀)) ∧
    ∀ w reference n r₁ f fs r₂, s.cleanUp w.repository = (.ok n, r₁) →
      s.dirtyFiles r₁ = (.ok (f :: fs), r₂) →
      checkout s reference w = (.error (.dirty reference (f :: fs)), { w with repository := r₂ }) ∧
        v.Same w.repository r₂ := by
  refine ⟨fun w' hr => ?_, fun w reference n r₁ f fs r₂ hc hd => checkout_of_dirty hs hc hd⟩
  have hok := congrArg Prod.fst hr
  obtain rfl := congrArg Prod.snd hr
  have htethered := (tethered_opened v r₀).checkoutAll hs references
  refine ⟨htethered.head_restore hs hok, fun hi => ?_⟩
  exact ((trim_opened v r₀).checkoutAll hs (tethered_opened v r₀) hi).files_restore hs htethered hok

end Session

namespace Sketch

theorem not_interruptedIn (references : List String) (w : Session Sketch) :
    ¬Session.InterruptedIn steps references w := by
  rintro ⟨_, _, _, _, _, _, _, _, _, _, _, -, -, -, -, hdetach⟩
  cases hdetach

theorem restore_undoes_twoVersions :
    (∃ w', Session.restore steps (Session.checkoutAll steps ["0001", "0003"]
        ⟨twoVersions "two", .branch "refs/heads/main", false⟩) = (.ok (), w') ∧
      view.head w'.repository = .branch "refs/heads/main" ∧
      view.files w'.repository = .ofList [("a", .text "two")]) ∧
    Session.checkout steps "0001" ⟨twoVersions "three", .branch "refs/heads/main", false⟩ =
      (.error (.dirty "0001" ["a"]),
        ⟨twoVersions "three", .branch "refs/heads/main", false⟩) := by
  obtain ⟨hback, -⟩ :=
    Session.restore_undoes steps_documented (twoVersions "two") ["0001", "0003"]
  obtain ⟨-, hdirty⟩ := Session.restore_undoes steps_documented (twoVersions "two") []
  have hrestore : ∃ w', Session.restore steps (Session.checkoutAll steps ["0001", "0003"]
      ⟨twoVersions "two", .branch "refs/heads/main", false⟩) = (.ok (), w') := ⟨_, rfl⟩
  obtain ⟨w', hw⟩ := hrestore
  obtain ⟨hhead, hfiles⟩ := hback w' hw
  exact ⟨⟨w', hw, hhead, hfiles (not_interruptedIn _ _)⟩,
    (hdirty ⟨twoVersions "three", .branch "refs/heads/main", false⟩ "0001" 0 (twoVersions "three")
      "a" [] (twoVersions "three") rfl rfl).1⟩

end Sketch

end Lineage.Git
