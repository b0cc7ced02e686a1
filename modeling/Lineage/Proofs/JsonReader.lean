import Lineage.Json.Reader
/-! # What readers give

A property that each value of a list has, or that each field of a record keeps, is one of all that
is read. Main statements: `gives_below`, `Gives.list`, `Gives.record`.
-/
namespace Lineage.Json.Reader

variable {α β ρ : Type} {P : α → Prop} {Q : β → Prop}

theorem bind_eq_ok_iff {r : Reader β} {f : β → Reader α} {cs : List Char} {y : α × List Char} :
    (r >>= f) cs = .ok y ↔ ∃ x mid, r cs = .ok (x, mid) ∧ f x mid = .ok y := by
  change (r cs >>= fun p => f p.1 p.2) = .ok y ↔ _
  cases r cs with
  | error e => simp [bind, Except.bind]
  | ok p =>
    obtain ⟨x, mid⟩ := p
    simp [bind, Except.bind, and_assoc]

/-! ## What readers give -/

/-- Whatever is read has a property. -/
def Gives (r : Reader α) (P : α → Prop) : Prop := ∀ cs x rest, r cs = .ok (x, rest) → P x

theorem gives_any (r : Reader α) : Gives r fun _ => True := fun _ _ _ _ => trivial

theorem gives_pure {x : α} (h : P x) : Gives (pure x) P := by
  rintro cs _ rest ⟨⟩
  exact h

theorem gives_fail (f : Fault) : Gives (fail f) P := by
  rintro cs x rest ⟨⟩

theorem Gives.bind {r : Reader β} {f : β → Reader α} (hr : Gives r Q)
    (hf : ∀ y, Q y → Gives (f y) P) : Gives (r >>= f) P := by
  intro cs x rest h
  obtain ⟨y, mid, hy, hx⟩ := bind_eq_ok_iff.mp h
  exact hf y (hr cs y mid hy) mid x rest hx

theorem gives_after {r : Reader β} {f : β → Reader α} (hf : ∀ y, Gives (f y) P) :
    Gives (r >>= f) P := (gives_any r).bind fun y _ => hf y

theorem gives_fail_bind (e : Fault) (f : β → Reader α) : Gives (fail e >>= f) P :=
  (@gives_fail β (fun _ => False) e).bind fun _ h => h.elim

theorem Gives.ite {c : Prop} [Decidable c] {r r' : Reader α} (h : c → Gives r P)
    (h' : ¬c → Gives r' P) : Gives (if c then r else r') P := by
  split
  · exact h ‹_›
  · exact h' ‹_›

theorem gives_misfit : Gives (misfit : Reader α) P := by
  unfold misfit
  refine gives_after fun c => ?_
  split
  case h_8 => exact .ite (fun _ => gives_after fun _ => gives_fail _) fun _ => gives_fail_bind _ _
  all_goals
    repeat refine gives_after fun _ => ?_
    exact gives_fail _

theorem gives_below (bound : Nat) : Gives (below bound) (· < bound) := by
  unfold below
  refine gives_after fun c => ?_
  split
  · exact gives_fail _
  · refine gives_after fun _ => gives_after fun _ => gives_fail _
  · refine .ite (fun _ => gives_after fun n => ?_) fun _ => gives_misfit
    cases n with
    | none => exact gives_fail _
    | some n => exact .ite (fun h => gives_pure h) fun _ => gives_fail _

theorem Gives.elements {r : Reader α} (h : Gives r P) (fuel : Nat) (first : Bool) :
    Gives (elements r fuel first) (∀ x ∈ ·, P x) := by
  induction fuel generalizing first with
  | zero => exact gives_fail _
  | succ fuel ih =>
    unfold Reader.elements
    refine gives_after fun found => .ite (fun _ => ?_) fun _ => ?_
    · refine h.bind fun x hx => (ih false).bind fun xs hxs => gives_pure ?_
      exact List.forall_mem_cons.mpr ⟨hx, hxs⟩
    · exact gives_after fun _ => gives_pure (List.forall_mem_nil _)

theorem Gives.list {r : Reader α} (h : Gives r P) : Gives (list r) (∀ x ∈ ·, P x) := by
  unfold Reader.list
  refine gives_after fun c => ?_
  split
  · exact gives_fail _
  · exact gives_after fun _ => gives_after fun _ => h.elements _ _
  · exact gives_misfit

section Record
variable {P : ρ → Prop} {fields : List (Field ρ)}

theorem Gives.fromNames (hfields : ∀ f ∈ fields, ∀ x, P x → Gives (f.read x) P) (fuel : Nat)
    (first : Bool) (seen : List String) {x : ρ} (hx : P x) :
    Gives (fromNames fields fuel first seen x) P := by
  induction fuel generalizing first seen x with
  | zero => exact gives_fail _
  | succ fuel ih =>
    unfold Reader.fromNames
    refine gives_after fun found => .ite (fun _ => gives_after fun name => ?_) fun _ => ?_
    · split
      · rename_i f hf
        refine .ite (fun _ => gives_fail_bind _ _) fun _ => gives_after fun _ => ?_
        exact (hfields f (List.mem_of_find?_eq_some hf) x hx).bind fun y hy => ih false _ hy
      · exact gives_after fun _ => gives_after fun _ => ih false _ hx
    · exact .ite (fun _ => gives_pure hx) fun _ => gives_fail _

theorem Gives.fromOrder (hfields : ∀ f ∈ fields, ∀ x, P x → Gives (f.read x) P) (first : Bool)
    {x : ρ} (hx : P x) : Gives (fromOrder fields first x) P := by
  induction fields generalizing first x with
  | nil =>
    unfold Reader.fromOrder
    refine gives_after fun c => ?_
    split
    · exact gives_after fun _ => gives_pure hx
    · exact gives_fail _
    · exact gives_fail _
  | cons f fields ih =>
    rw [List.forall_mem_cons] at hfields
    unfold Reader.fromOrder
    refine gives_after fun found => .ite (fun _ => ?_) fun _ => ?_
    · exact (hfields.1 x hx).bind fun y hy => ih hfields.2 false hy
    · exact .ite (fun _ => gives_fail _) fun _ => ih hfields.2 first hx

theorem Gives.record (hfields : ∀ f ∈ fields, ∀ x, P x → Gives (f.read x) P) {x : ρ} (hx : P x) :
    Gives (record fields x) P := by
  unfold Reader.record
  refine gives_after fun c => ?_
  split
  · exact gives_fail _
  · exact gives_after fun _ => .fromOrder hfields _ hx
  · exact gives_after fun _ => gives_after fun _ => .fromNames hfields _ _ _ hx
  · exact gives_misfit

end Record

theorem Gives.document {r : Reader α} (h : Gives r P) {s : String} {x : α}
    (hx : document r s = .ok x) : P x := by
  unfold Reader.document at hx
  split at hx
  · rename_i y rest hy
    split at hx
    · exact Except.ok.inj hx ▸ h _ y rest hy
    · cases hx
  · cases hx

end Lineage.Json.Reader
