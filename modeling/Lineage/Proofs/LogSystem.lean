import Lineage.LogQueue
import Mathlib.Data.List.Infix
import Mathlib.Logic.Function.Basic
import Mathlib.Logic.Relation
/-! # The log at work

Threads end the writers of their lines, one consumer writes lines to the file, and a guard stops it.
All of them go on step by step, in any order, over one `LogQueue`. A queue that works on its own is a
run of such steps. Main statement: `reliable`.
-/
namespace Lineage

structure LogLine where
  text : String
  waits : Bool
  deriving DecidableEq

/-- What becomes of a line at the end of its writer. -/
inductive LogFate where
  | empty
  | queued
  /-- The queue is full, and the line is counted. -/
  | counted
  | lost
  deriving DecidableEq

/-- What a thread does about a writer that it ends. -/
inductive LogProducer where
  | idle
  | sending (line : LogLine)
  | counting (line : LogLine)
  | leaving (line : LogLine) (fate : LogFate)
  deriving DecidableEq

inductive LogConsumer where
  | working
  | flushed
  | gone
  deriving DecidableEq

inductive LogGuard where
  | held
  | loaded (dropped : Nat)
  | joining
  | returned
  deriving DecidableEq

structure LogDrop where
  producer : Nat
  line : LogLine
  fate : LogFate
  deriving DecidableEq

def LogProducer.underway (p : Nat) : LogProducer → List LogDrop
  | .leaving line fate => [⟨p, line, fate⟩]
  | _ => []

/-- A log with its threads. -/
structure LogSystem where
  queue : LogQueue
  file : String
  /-- The lines of the open writers. -/
  writers : List LogLine := []
  producers : Nat → LogProducer := fun _ => .idle
  consumer : LogConsumer := .working
  guard : LogGuard := .held
  /-- The lines whose fate is settled so far, in that order. -/
  settled : List LogDrop := []
  /-- The writers that have ended so far. -/
  ended : List LogDrop := []

namespace LogSystem

def start (capacity : Nat) (written : String) : LogSystem where
  queue := .start capacity written
  file := written

def go (s : LogSystem) (p : Nat) (phase : LogProducer) : LogSystem :=
  { s with producers := Function.update s.producers p phase }

def settle (s : LogSystem) (p : Nat) (line : LogLine) (fate : LogFate) : LogSystem :=
  { s.go p (.leaving line fate) with settled := s.settled ++ [⟨p, line, fate⟩] }

def sent (s : LogSystem) : List LogDrop := s.settled.filter (·.fate = .queued)

def texts (drops : List LogDrop) : List String := drops.map (·.line.text)

/-- What one of the threads can do next. -/
inductive Step (s : LogSystem) : LogSystem → Prop
  | make (level : LogLevel) : Step s { s with writers := s.writers ++ [⟨"", level = .error⟩] }
  | write {before after : List LogLine} {line : LogLine} (part : String)
    (hwriters : s.writers = before ++ line :: after) :
    Step s { s with writers := before ++ { line with text := line.text ++ part } :: after }
  | begin {p : Nat} {before after : List LogLine} {line : LogLine} (hp : s.producers p = .idle)
    (hwriters : s.writers = before ++ line :: after) :
    Step s { s.go p (.sending line) with writers := before ++ after }
  | skip {p : Nat} {line : LogLine} (hp : s.producers p = .sending line) (htext : line.text = "") :
    Step s (s.settle p line .empty)
  | send {p : Nat} {line : LogLine} (hp : s.producers p = .sending line) (htext : line.text ≠ "")
    (hc : s.consumer ≠ .gone) (hroom : s.queue.isFull = false) :
    Step s { s.settle p line .queued with queue := s.queue.enqueue (.line line.text) }
  | refuse {p : Nat} {line : LogLine} (hp : s.producers p = .sending line) (htext : line.text ≠ "")
    (hwaits : line.waits = false) (hc : s.consumer ≠ .gone) (hfull : s.queue.isFull = true) :
    Step s (s.go p (.counting line))
  | count {p : Nat} {line : LogLine} (hp : s.producers p = .counting line) :
    Step s { s.settle p line .counted with
      queue := { s.queue with dropped := s.queue.dropped + 1 } }
  | lose {p : Nat} {line : LogLine} (hp : s.producers p = .sending line) (htext : line.text ≠ "")
    (hc : s.consumer = .gone) : Step s (s.settle p line .lost)
  | finish {p : Nat} {line : LogLine} {fate : LogFate} (hp : s.producers p = .leaving line fate) :
    Step s { s.go p .idle with ended := s.ended ++ [⟨p, line, fate⟩] }
  | take {m : LogMessage} {rest : List LogMessage} (hr : s.queue.running = true)
    (hpending : s.queue.pending = m :: rest) :
    Step s { s with queue := { s.queue with pending := rest }.consume m }
  /-- A part of the buffer goes to the disk, or all of it. -/
  | spill {file : String} (hc : s.consumer = .working) (hfile : s.file.toList <+: file.toList)
    (hwritten : file.toList <+: s.queue.written.toList) : Step s { s with file }
  | flush (hr : s.queue.running = false) (hc : s.consumer = .working) :
    Step s { s with file := s.queue.written, consumer := .flushed }
  | exit (hc : s.consumer = .flushed) : Step s { s with consumer := .gone }
  | load (hg : s.guard = .held) : Step s { s with guard := .loaded s.queue.dropped }
  | close {n : Nat} (hg : s.guard = .loaded n) (hc : s.consumer ≠ .gone)
    (hroom : s.queue.isFull = false) :
    Step s { s with guard := .joining, queue := s.queue.enqueue (.stop n) }
  | abandon {n : Nat} (hg : s.guard = .loaded n) (hc : s.consumer = .gone) :
    Step s { s with guard := .returned }
  | join (hg : s.guard = .joining) (hc : s.consumer = .gone) : Step s { s with guard := .returned }

abbrev Steps : LogSystem → LogSystem → Prop := Relation.ReflTransGen Step

variable {s s' : LogSystem} {initial : String}

theorem sent_settle (p : Nat) (line : LogLine) (fate : LogFate) :
    (s.settle p line fate).sent =
      if fate = .queued then s.sent ++ [⟨p, line, fate⟩] else s.sent := by
  cases fate <;> simp [sent, settle]

theorem texts_append (a b : List LogDrop) : texts (a ++ b) = texts a ++ texts b := List.map_append

/-! ## The order of each thread -/

/-- Every thread ends its writers in the order in which their fates are settled. -/
def Ordered (s : LogSystem) : Prop :=
  ∀ p, s.settled.filter (·.producer = p) =
    s.ended.filter (·.producer = p) ++ (s.producers p).underway p

theorem Ordered.go {p : Nat} {phase : LogProducer} (h : Ordered s)
    (hold : (s.producers p).underway p = []) (hnew : phase.underway p = []) :
    Ordered (s.go p phase) := by
  intro q
  by_cases hq : q = p
  · subst hq
    simpa [LogSystem.go, hnew, hold] using h q
  · simpa [LogSystem.go, Function.update_of_ne hq] using h q

theorem Ordered.settle {p : Nat} (h : Ordered s) (hold : (s.producers p).underway p = [])
    (line : LogLine) (fate : LogFate) : Ordered (s.settle p line fate) := by
  intro q
  by_cases hq : q = p
  · subst hq
    have hsettled := h q
    rw [hold, List.append_nil] at hsettled
    simp [LogSystem.settle, LogSystem.go, hsettled, LogProducer.underway]
  · have hne : p ≠ q := Ne.symm hq
    simpa [LogSystem.settle, LogSystem.go, Function.update_of_ne hq, hne] using h q

theorem Ordered.finish {p : Nat} {line : LogLine} {fate : LogFate} (h : Ordered s)
    (hp : s.producers p = .leaving line fate) :
    Ordered { s.go p .idle with ended := s.ended ++ [⟨p, line, fate⟩] } := by
  intro q
  have hsettled := h q
  by_cases hq : q = p
  · subst hq
    simpa [LogSystem.go, hp, LogProducer.underway] using hsettled
  · have hne : p ≠ q := Ne.symm hq
    simpa [LogSystem.go, Function.update_of_ne hq, hne] using hsettled

theorem Ordered.step (h : Ordered s) (hs : Step s s') : Ordered s' := by
  cases hs with
  | begin hp hwriters => exact h.go (by rw [hp]; rfl) rfl
  | refuse hp htext hwaits hc hfull => exact h.go (by rw [hp]; rfl) rfl
  | skip hp htext => exact h.settle (by rw [hp]; rfl) _ _
  | send hp htext hc hroom => exact h.settle (by rw [hp]; rfl) _ _
  | count hp => exact h.settle (by rw [hp]; rfl) _ _
  | lose hp htext hc => exact h.settle (by rw [hp]; rfl) _ _
  | finish hp => exact h.finish hp
  | make | write | take | spill | flush | exit | load | close | abandon | join => exact h

/-! ## Fates -/

/-- Which lines come to a fate. -/
def Suits (line : LogLine) : LogFate → Prop
  | .empty => line.text = ""
  | .queued | .lost => line.text ≠ ""
  | .counted => line.text ≠ "" ∧ line.waits = false

structure Fated (s : LogSystem) : Prop where
  suits : ∀ d ∈ s.settled, Suits d.line d.fate
  counting : ∀ p line, s.producers p = .counting line → line.text ≠ "" ∧ line.waits = false
  lost : ∀ d ∈ s.settled, d.fate = .lost → s.consumer = .gone
  dropped : s.queue.dropped = (s.settled.filter (·.fate = .counted)).length

theorem Fated.go {p : Nat} {phase : LogProducer} (h : Fated s)
    (hphase : ∀ line, phase = .counting line → line.text ≠ "" ∧ line.waits = false) :
    Fated (s.go p phase) := by
  refine ⟨h.suits, ?_, h.lost, h.dropped⟩
  intro q line hq
  by_cases hqp : q = p
  · subst hqp
    exact hphase line (by simpa [LogSystem.go] using hq)
  · exact h.counting q line (by simpa [LogSystem.go, Function.update_of_ne hqp] using hq)

theorem Fated.settle {p : Nat} {line : LogLine} {fate : LogFate} {queue : LogQueue} (h : Fated s)
    (hsuits : Suits line fate) (hlost : fate = .lost → s.consumer = .gone)
    (hdropped : queue.dropped = s.queue.dropped + if fate = .counted then 1 else 0) :
    Fated { s.settle p line fate with queue } := by
  have hgo : Fated (s.go p (.leaving line fate)) := h.go nofun
  refine ⟨?_, hgo.counting, ?_, ?_⟩
  · intro d hd
    rcases List.mem_append.mp hd with hd | hd
    · exact h.suits d hd
    · rw [List.mem_singleton.mp hd]
      exact hsuits
  · intro d hd hfate
    rcases List.mem_append.mp hd with hd | hd
    · exact h.lost d hd hfate
    · rw [List.mem_singleton.mp hd] at hfate
      exact hlost hfate
  · have hcount := h.dropped
    cases fate <;> simp_all [LogSystem.settle]

theorem Fated.step (h : Fated s) (hs : Step s s') : Fated s' := by
  cases hs with
  | @begin p _ _ line hp hwriters =>
    have hgo : Fated (s.go p (.sending line)) := h.go nofun
    exact ⟨hgo.suits, hgo.counting, hgo.lost, hgo.dropped⟩
  | refuse hp htext hwaits hc hfull =>
    refine h.go fun line hline => ?_
    cases hline
    exact ⟨htext, hwaits⟩
  | skip hp htext => exact h.settle htext nofun rfl
  | send hp htext hc hroom => exact h.settle htext nofun rfl
  | count hp => exact h.settle (h.counting _ _ hp) nofun rfl
  | lose hp htext hc => exact h.settle htext (fun _ => hc) rfl
  | @finish p _ _ hp =>
    have hgo : Fated (s.go p .idle) := h.go nofun
    exact ⟨hgo.suits, hgo.counting, hgo.lost, hgo.dropped⟩
  | @take m rest hr hpending =>
    refine ⟨h.suits, h.counting, h.lost, ?_⟩
    cases m <;> exact h.dropped
  | flush hr hc =>
    refine ⟨h.suits, h.counting, ?_, h.dropped⟩
    intro d hd hfate
    exact absurd (h.lost d hd hfate) (by simp [hc])
  | exit hc => exact ⟨h.suits, h.counting, fun _ _ _ => rfl, h.dropped⟩
  | close hg hc hroom => exact ⟨h.suits, h.counting, h.lost, h.dropped⟩
  | make | write | spill | load | abandon | join => exact ⟨h.suits, h.counting, h.lost, h.dropped⟩

/-! ## The file -/

/-- The file holds a part of what is written; all of it once the consumer has stopped for good, for
which the guard waits. -/
structure Saved (s : LogSystem) : Prop where
  part : s.file.toList <+: s.queue.written.toList
  whole : s.consumer ≠ .working → s.queue.running = false ∧ s.file = s.queue.written
  joined : s.guard = .returned → s.consumer = .gone

theorem Saved.step (h : Saved s) (hs : Step s s') : Saved s' := by
  cases hs with
  | @take m rest hr hpending =>
    refine ⟨?_, fun hc => absurd (h.whole hc).1 (by simp [hr]), h.joined⟩
    cases m <;> simp [LogQueue.consume, h.part.trans]
  | spill hc hfile hwritten => exact ⟨hwritten, fun hc' => absurd hc hc', h.joined⟩
  | flush hr hc =>
    refine ⟨List.prefix_rfl, fun _ => ⟨hr, rfl⟩, ?_⟩
    intro hg
    exact absurd (h.joined hg) (by simp [hc])
  | exit hc => exact ⟨h.part, fun _ => h.whole (by simp [hc]), fun _ => rfl⟩
  | load | close => exact ⟨h.part, h.whole, nofun⟩
  | abandon hg hc | join hg hc => exact ⟨h.part, h.whole, fun _ => hc⟩
  | _ => exact ⟨h.part, h.whole, h.joined⟩

def Bounded (s : LogSystem) : Prop :=
  1 ≤ s.queue.capacity ∧ s.queue.pending.length ≤ s.queue.capacity

theorem Bounded.enqueue (h : Bounded s) (hroom : s.queue.isFull = false) (m : LogMessage) :
    Bounded { s with queue := s.queue.enqueue m } := by
  have hlt : s.queue.pending.length < s.queue.capacity := by simpa [LogQueue.isFull] using hroom
  refine ⟨h.1, ?_⟩
  rw [LogQueue.enqueue, List.length_append]
  exact hlt

theorem Bounded.step (h : Bounded s) (hs : Step s s') : Bounded s' := by
  cases hs with
  | send hp htext hc hroom => exact h.enqueue hroom _
  | close hg hc hroom => exact h.enqueue hroom _
  | @take m rest hr hpending =>
    obtain ⟨hroom, hle⟩ := h
    rw [hpending, List.length_cons] at hle
    cases m <;> exact ⟨hroom, Nat.le_of_succ_le hle⟩
  | _ => exact h

/-! ## The way of the lines -/

/-- Until it has stopped the consumer, the guard has read a number of dropped lines, or will read
one, that is not below a given one. -/
def Opening (least : Nat) (s : LogSystem) : Prop :=
  s.guard = .held ∧ least ≤ s.queue.dropped ∨ ∃ n, s.guard = .loaded n ∧ least ≤ n

/-- Where the lines are that were sent, `base` being first of them. -/
inductive Flow (initial : String) (base : List LogDrop) (least : Nat) (s : LogSystem) : Prop
  | open (rest : List String) (hguard : Opening least s) (hbase : base <+: s.sent)
    (hr : s.queue.running = true) (hpending : s.queue.pending = rest.map .line)
    (hwritten : s.queue.written ++ String.join rest = initial ++ String.join (texts s.sent))
  | closing (rest : List String) (accepted late : List LogDrop) (n : Nat)
    (hguard : s.guard = .joining) (hsent : s.sent = accepted ++ late) (hbase : base <+: accepted)
    (hn : least ≤ n) (hr : s.queue.running = true)
    (hpending : s.queue.pending = rest.map .line ++ .stop n :: (texts late).map .line)
    (hwritten : s.queue.written ++ String.join rest = initial ++ String.join (texts accepted))
  | closed (accepted late : List LogDrop) (n : Nat)
    (hguard : s.guard = .joining ∨ s.guard = .returned) (hsent : s.sent = accepted ++ late)
    (hbase : base <+: accepted) (hn : least ≤ n) (hr : s.queue.running = false)
    (hwritten : s.queue.written =
      initial ++ String.join (texts accepted) ++ LogQueue.closing n)

section Flow
variable {base : List LogDrop} {least : Nat}

theorem Flow.congr (h : Flow initial base least s) (hguard : s'.guard = s.guard)
    (hsent : s'.sent = s.sent) (hr : s'.queue.running = s.queue.running)
    (hpending : s'.queue.pending = s.queue.pending) (hwritten : s'.queue.written = s.queue.written)
    (hdropped : s.queue.dropped ≤ s'.queue.dropped) : Flow initial base least s' := by
  cases h with
  | «open» rest hg hb hrun hp hw =>
    refine .open rest ?_ (hsent ▸ hb) (hr.trans hrun) (hpending.trans hp) ?_
    · rcases hg with ⟨hheld, hleast⟩ | ⟨n, hloaded, hleast⟩
      · exact .inl ⟨hguard.trans hheld, hleast.trans hdropped⟩
      · exact .inr ⟨n, hguard.trans hloaded, hleast⟩
    · rw [hwritten, hsent]
      exact hw
  | closing rest accepted late n hg hs hb hn hrun hp hw =>
    exact .closing rest accepted late n (hguard.trans hg) (hsent.trans hs) hb hn (hr.trans hrun)
      (hpending.trans hp) (hwritten ▸ hw)
  | closed accepted late n hg hs hb hn hrun hw =>
    exact .closed accepted late n (hguard ▸ hg) (hsent.trans hs) hb hn (hr.trans hrun)
      (hwritten.trans hw)

/-- A line that is sent goes to the end of the queue, behind the end of the log if that is there. -/
theorem Flow.send {d : LogDrop} (h : Flow initial base least s) (hguard : s'.guard = s.guard)
    (hsent : s'.sent = s.sent ++ [d]) (hqueue : s'.queue = s.queue.enqueue (.line d.line.text)) :
    Flow initial base least s' := by
  cases h with
  | «open» rest hg hb hrun hp hw =>
    refine .open (rest ++ [d.line.text]) ?_ ?_ ?_ ?_ ?_
    · rwa [Opening, hguard, hqueue]
    · rw [hsent]
      exact hb.trans (List.prefix_append _ _)
    · rw [hqueue]
      exact hrun
    · rw [hqueue, LogQueue.enqueue, hp]
      simp
    · rw [hqueue, hsent, texts_append, String.join_append, String.join_append,
        ← String.append_assoc, ← String.append_assoc, ← hw]
      rfl
  | closing rest accepted late n hg hs hb hn hrun hp hw =>
    refine .closing rest accepted (late ++ [d]) n (hguard.trans hg) ?_ hb hn ?_ ?_ ?_
    · rw [hsent, hs, List.append_assoc]
    · rw [hqueue]
      exact hrun
    · rw [hqueue, LogQueue.enqueue, hp]
      simp [texts]
    · rw [hqueue]
      exact hw
  | closed accepted late n hg hs hb hn hrun hw =>
    refine .closed accepted (late ++ [d]) n (hguard ▸ hg) ?_ hb hn ?_ ?_
    · rw [hsent, hs, List.append_assoc]
    · rw [hqueue]
      exact hrun
    · rw [hqueue]
      exact hw

theorem Flow.take {m : LogMessage} {pending : List LogMessage} (h : Flow initial base least s)
    (hr : s.queue.running = true) (hpending : s.queue.pending = m :: pending) :
    Flow initial base least { s with queue := { s.queue with pending }.consume m } := by
  cases h with
  | «open» rest hg hb hrun hp hw =>
    cases rest with
    | nil => simp [hp] at hpending
    | cons text rest =>
      rw [hp, List.map_cons, List.cons.injEq] at hpending
      obtain ⟨rfl, rfl⟩ := hpending
      refine .open rest hg hb hr rfl ?_
      rw [String.join_cons, ← String.append_assoc] at hw
      exact hw
  | closing rest accepted late n hg hs hb hn hrun hp hw =>
    cases rest with
    | nil =>
      rw [hp, List.map_nil, List.nil_append, List.cons.injEq] at hpending
      obtain ⟨rfl, rfl⟩ := hpending
      refine .closed accepted late n (.inl hg) hs hb hn rfl ?_
      rw [String.join_nil, String.append_empty] at hw
      rw [← hw]
      rfl
    | cons text rest =>
      rw [hp, List.map_cons, List.cons_append, List.cons.injEq] at hpending
      obtain ⟨rfl, rfl⟩ := hpending
      refine .closing rest accepted late n hg hs hb hn hr rfl ?_
      rw [String.join_cons, ← String.append_assoc] at hw
      exact hw
  | closed accepted late n hg hs hb hn hrun hw => simp [hr] at hrun

theorem Flow.step (h : Flow initial base least s) (hsaved : Saved s) (hs : Step s s') :
    Flow initial base least s' := by
  cases hs with
  | skip hp htext => exact h.congr rfl (sent_settle _ _ _) rfl rfl rfl le_rfl
  | lose hp htext hc => exact h.congr rfl (sent_settle _ _ _) rfl rfl rfl le_rfl
  | count hp => exact h.congr rfl (sent_settle _ _ _) rfl rfl rfl (Nat.le_succ _)
  | send hp htext hc hroom => exact h.send rfl (sent_settle _ _ _) rfl
  | take hr hpending => exact h.take hr hpending
  -- The steps of the guard, each with one shape of the flow that it can be taken in.
  | load hg =>
    cases h with
    | «open» rest hguard hb hrun hp hw =>
      refine .open rest ?_ hb hrun hp hw
      rcases hguard with ⟨-, hleast⟩ | ⟨n, hloaded, -⟩
      · exact .inr ⟨_, rfl, hleast⟩
      · simp [hg] at hloaded
    | closing _ _ _ _ hguard => simp [hg] at hguard
    | closed _ _ _ hguard => simp [hg] at hguard
  | @close n hg hc hroom =>
    cases h with
    | «open» rest hguard hb hrun hp hw =>
      rcases hguard with ⟨hheld, -⟩ | ⟨_, hloaded, hleast⟩
      · simp [hg] at hheld
      · cases hg.symm.trans hloaded
        refine .closing rest s.sent [] n rfl (List.append_nil _).symm hb hleast hrun ?_ hw
        rw [LogQueue.enqueue, hp]
        rfl
    | closing _ _ _ _ hguard => simp [hg] at hguard
    | closed _ _ _ hguard => simp [hg] at hguard
  | abandon hg hc =>
    have hstopped := (hsaved.whole (by simp [hc])).1
    cases h with
    | «open» rest hguard hb hrun hp hw => simp [hstopped] at hrun
    | closing _ _ _ _ hguard => simp [hg] at hguard
    | closed _ _ _ hguard => simp [hg] at hguard
  | join hg hc =>
    have hstopped := (hsaved.whole (by simp [hc])).1
    cases h with
    | «open» rest hguard hb hrun hp hw => simp [hstopped] at hrun
    | closing _ _ _ _ _ _ _ _ hrun => simp [hstopped] at hrun
    | closed accepted late n hguard hsent hb hn hrun hw =>
      exact .closed accepted late n (.inr rfl) hsent hb hn hrun hw
  | _ => exact h.congr rfl rfl rfl rfl rfl le_rfl

end Flow

/-! ## All runs -/

structure Inv (initial : String) (base : List LogDrop) (least : Nat) (s : LogSystem) : Prop where
  ordered : Ordered s
  fated : Fated s
  saved : Saved s
  bounded : Bounded s
  flow : Flow initial base least s

theorem inv_start (capacity : Nat) (initial : String) :
    Inv initial [] 0 (start capacity initial) where
  ordered _ := rfl
  fated := ⟨nofun, nofun, nofun, rfl⟩
  saved := ⟨List.prefix_rfl, fun h => absurd rfl h, nofun⟩
  bounded := ⟨le_max_right _ _, Nat.zero_le _⟩
  flow := .open [] (.inl ⟨rfl, le_rfl⟩) List.nil_prefix rfl rfl rfl

section Inv
variable {base : List LogDrop} {least : Nat}

theorem Inv.step (h : Inv initial base least s) (hs : Step s s') : Inv initial base least s' :=
  ⟨h.ordered.step hs, h.fated.step hs, h.saved.step hs, h.bounded.step hs, h.flow.step h.saved hs⟩

theorem Inv.steps (h : Inv initial base least s) (hs : Steps s s') : Inv initial base least s' := by
  induction hs with
  | refl => exact h
  | tail _ hstep ih => exact ih.step hstep

/-- As long as the guard is held, all that was sent will be first. -/
theorem Inv.rebase (h : Inv initial base least s) (hg : s.guard = .held) :
    Inv initial s.sent s.queue.dropped s := by
  refine ⟨h.ordered, h.fated, h.saved, h.bounded, ?_⟩
  cases h.flow with
  | «open» rest hguard hb hrun hp hw =>
    exact .open rest (.inl ⟨hg, le_rfl⟩) List.prefix_rfl hrun hp hw
  | closing _ _ _ _ hguard => simp [hg] at hguard
  | closed _ _ _ hguard => simp [hg] at hguard

theorem Inv.running (h : Inv initial base least s) (hg : s.guard = .held) :
    s.queue.running = true := by
  cases h.flow with
  | «open» rest hguard hb hrun hp hw => exact hrun
  | closing _ _ _ _ hguard => simp [hg] at hguard
  | closed _ _ _ hguard => simp [hg] at hguard

/-- While the guard is held, a writer that has ended with a line has sent or counted it. -/
theorem Inv.sent_or_counted (h : Inv initial base least s) (hg : s.guard = .held) {d : LogDrop}
    (hd : d ∈ s.ended) (htext : d.line.text ≠ "") :
    d ∈ s.sent ∨ d.fate = .counted ∧ d.line.waits = false := by
  have hsettled : d ∈ s.settled := by
    have hmem : d ∈ s.settled.filter (·.producer = d.producer) := by
      rw [h.ordered d.producer]
      exact List.mem_append_left _ (List.mem_filter.mpr ⟨hd, by simp⟩)
    exact (List.mem_filter.mp hmem).1
  have hsuits := h.fated.suits d hsettled
  cases hfate : d.fate with
  | empty =>
    rw [hfate] at hsuits
    exact absurd hsuits htext
  | queued => exact .inl (List.mem_filter.mpr ⟨hsettled, by simp [hfate]⟩)
  | counted =>
    rw [hfate] at hsuits
    exact .inr ⟨rfl, hsuits.2⟩
  | lost =>
    have hgone := h.fated.lost d hsettled hfate
    have hstopped := (h.saved.whole (by simp [hgone])).1
    simp [h.running hg] at hstopped

def queued (s : LogSystem) : List String :=
  s.queue.pending.filterMap fun
    | .line text => some text
    | .stop _ => none

theorem filterMap_line (texts : List String) : (texts.map LogMessage.line).filterMap (fun
    | .line text => some text
    | .stop _ => none) = texts := by
  rw [List.filterMap_map]
  exact List.filterMap_some

theorem Inv.intact (h : Inv initial base least s) (hr : s.queue.running = true) :
    s.queue.written ++ String.join s.queued = initial ++ String.join (texts s.sent) := by
  cases h.flow with
  | «open» rest hguard hb hrun hp hw => rw [queued, hp, filterMap_line, hw]
  | closing rest accepted late n hg hsent hb hn hrun hp hw =>
    rw [queued, hp, List.filterMap_append, filterMap_line, List.filterMap_cons, filterMap_line,
      hsent, texts_append, String.join_append, String.join_append, ← String.append_assoc, hw,
      String.append_assoc]
  | closed _ _ _ _ _ _ _ hrun => simp [hr] at hrun

end Inv

/-! ## Turns of one thread -/

def note (s : LogSystem) (d : LogDrop) : LogSystem :=
  { s with settled := s.settled ++ [d], ended := s.ended ++ [d] }

section Turns
variable {p : Nat} {level : LogLevel} {text : String} {line : LogLine} {fate : LogFate}

theorem steps_open (hp : s.producers p = .idle) (level : LogLevel) (text : String) :
    Steps s (s.go p (.sending ⟨text, level = .error⟩)) := by
  have hwrite := Step.write (s := { s with
    writers := s.writers ++ [⟨"", level = .error⟩] }) text rfl
  rw [String.empty_append] at hwrite
  have hbegin := Step.begin (s := { s with writers := s.writers ++ [⟨text, level = .error⟩] })
    (p := p) hp rfl
  simp only [List.append_nil] at hbegin
  exact ((Relation.ReflTransGen.single (.make level)).tail hwrite).tail hbegin

theorem producers_go (s : LogSystem) (p : Nat) (phase : LogProducer) :
    (s.go p phase).producers p = phase := Function.update_self ..

theorem go_settle (phase : LogProducer) :
    (s.go p phase).settle p line fate = s.settle p line fate := by
  simp [settle, go]

theorem step_note (hp : s.producers p = .idle) (line : LogLine) (fate : LogFate)
    (queue : LogQueue) :
    Step { s.settle p line fate with queue } { s.note ⟨p, line, fate⟩ with queue } := by
  have hfinish := Step.finish (s := { s.settle p line fate with queue }) (producers_go _ _ _)
  have hidle : Function.update s.producers p .idle = s.producers := by
    rw [← hp, Function.update_eq_self]
  simpa [settle, go, note, hidle] using hfinish

theorem steps_skip (hp : s.producers p = .idle) (level : LogLevel) :
    Steps s (s.note ⟨p, ⟨"", level = .error⟩, .empty⟩) := by
  have hskip := Step.skip (producers_go s p (.sending ⟨"", level = .error⟩)) rfl
  rw [go_settle] at hskip
  exact ((steps_open hp level "").tail hskip).tail (step_note hp _ _ s.queue)

theorem steps_queued (hp : s.producers p = .idle) (level : LogLevel) (htext : text ≠ "")
    (hc : s.consumer ≠ .gone) (hroom : s.queue.isFull = false) :
    Steps s { s.note ⟨p, ⟨text, level = .error⟩, .queued⟩ with
      queue := s.queue.enqueue (.line text) } := by
  have hsend := Step.send (producers_go s p (.sending ⟨text, level = .error⟩)) htext hc hroom
  rw [go_settle] at hsend
  exact ((steps_open hp level text).tail hsend).tail (step_note hp _ _ _)

theorem steps_counted (hp : s.producers p = .idle) (hlevel : level ≠ .error) (htext : text ≠ "")
    (hc : s.consumer ≠ .gone) (hfull : s.queue.isFull = true) :
    Steps s { s.note ⟨p, ⟨text, false⟩, .counted⟩ with
      queue := { s.queue with dropped := s.queue.dropped + 1 } } := by
  have hopen := steps_open hp level text
  rw [decide_eq_false hlevel] at hopen
  have hrefuse := Step.refuse (producers_go s p (.sending ⟨text, false⟩)) htext rfl hc hfull
  have hcount := Step.count (producers_go (s.go p (.sending ⟨text, false⟩)) p
    (.counting ⟨text, false⟩))
  rw [go_settle, go_settle] at hcount
  exact ((hopen.tail hrefuse).tail hcount).tail (step_note hp _ _ _)

theorem steps_lost (hp : s.producers p = .idle) (level : LogLevel) (htext : text ≠ "")
    (hc : s.consumer = .gone) : Steps s (s.note ⟨p, ⟨text, level = .error⟩, .lost⟩) := by
  have hlose := Step.lose (producers_go s p (.sending ⟨text, level = .error⟩)) htext hc
  rw [go_settle] at hlose
  exact ((steps_open hp level text).tail hlose).tail (step_note hp _ _ s.queue)

end Turns

/-! ## The queue alone -/

/-- Every thread is idle, and the consumer is gone as soon as it has stopped. -/
structure Resting (s : LogSystem) : Prop where
  idle : ∀ p, s.producers p = .idle
  consumer : s.consumer = if s.queue.running then .working else .gone

/-- From rest to rest with a queue and with some writers ended, the guard doing nothing. -/
structure Turn (s s' : LogSystem) (queue : LogQueue) (drops : List LogDrop) : Prop where
  steps : Steps s s'
  resting : Resting s'
  queue : s'.queue = queue
  guard : s'.guard = s.guard
  ended : s'.ended = s.ended ++ drops

theorem Turn.refl (h : Resting s) : Turn s s s.queue [] :=
  ⟨.refl, h, rfl, rfl, (List.append_nil _).symm⟩

theorem Turn.trans {s₁ s₂ : LogSystem} {q₁ q₂ : LogQueue} {drops : List LogDrop}
    (h₁ : Turn s s₁ q₁ []) (h₂ : Turn s₁ s₂ q₂ drops) : Turn s s₂ q₂ drops :=
  ⟨h₁.steps.trans h₂.steps, h₂.resting, h₂.queue, h₂.guard.trans h₁.guard,
    by rw [h₂.ended, h₁.ended, List.append_nil]⟩

theorem Resting.turn_note (h : Resting s) {d : LogDrop} {queue : LogQueue}
    (hr : queue.running = s.queue.running) (hs : Steps s { s.note d with queue }) :
    Turn s { s.note d with queue } queue [d] :=
  ⟨hs, ⟨h.idle, by simpa [LogSystem.note, hr] using h.consumer⟩, rfl, rfl, rfl⟩

theorem Resting.turn_action {q : LogQueue} {level : LogLevel} {text : String} (h : Resting s)
    (hq : s.queue.step? (level.action text) = some q) :
    ∃ s' fate, Turn s s' q [⟨0, ⟨text, level = .error⟩, fate⟩] := by
  have hc := h.consumer
  by_cases htext : text = ""
  · obtain rfl : s.queue = q := by
      cases level <;> simpa [LogLevel.action, LogQueue.step?, htext] using hq
    subst htext
    exact ⟨_, _, h.turn_note rfl (steps_skip (h.idle 0) level)⟩
  cases hr : s.queue.running with
  | false =>
    obtain rfl : s.queue = q := by
      cases level <;> simpa [LogLevel.action, LogQueue.step?, hr] using hq
    rw [hr] at hc
    exact ⟨_, _, h.turn_note rfl (steps_lost (h.idle 0) level htext hc)⟩
  | true =>
    have hpresent : s.consumer ≠ .gone := by simp [hc, hr]
    cases hfull : s.queue.isFull with
    | false =>
      obtain rfl : s.queue.enqueue (.line text) = q := by
        cases level <;> simpa [LogLevel.action, LogQueue.step?, htext, hr, hfull] using hq
      exact ⟨_, _, h.turn_note rfl (steps_queued (h.idle 0) level htext hpresent hfull)⟩
    | true =>
      have hlevel : level ≠ .error := by
        rintro rfl
        simp [LogLevel.action, LogQueue.step?, htext, hr, hfull] at hq
      obtain rfl : { s.queue with dropped := s.queue.dropped + 1 } = q := by
        simpa [LogLevel.action, LogQueue.step?, hlevel, htext, hr, hfull] using hq
      rw [decide_eq_false hlevel]
      exact ⟨_, _, h.turn_note rfl (steps_counted (h.idle 0) hlevel htext hpresent hfull)⟩

theorem Resting.turn_take {q : LogQueue} (h : Resting s) (hq : s.queue.step? .take = some q) :
    ∃ s', Turn s s' q [] := by
  cases hr : s.queue.running with
  | false => simp [LogQueue.step?, hr] at hq
  | true =>
    have hworking : s.consumer = .working := by simp [h.consumer, hr]
    cases hpending : s.queue.pending with
    | nil => simp [LogQueue.step?, hpending] at hq
    | cons m rest =>
      obtain rfl : { s.queue with pending := rest }.consume m = q := by
        simpa [LogQueue.step?, hr, hpending] using hq
      have htake := Step.take hr hpending
      have hended := (List.append_nil s.ended).symm
      cases m with
      | line text =>
        refine ⟨_, .single htake, ⟨h.idle, ?_⟩, rfl, rfl, hended⟩
        simp [LogQueue.consume, hr, hworking]
      | stop n =>
        have hflush := Step.flush (s := { s with
          queue := { s.queue with pending := rest }.consume (.stop n) }) rfl hworking
        exact ⟨_, .tail (.tail (.single htake) hflush) (.exit rfl), ⟨h.idle, rfl⟩, rfl, rfl, hended⟩

theorem Resting.turn_drain (h : Resting s) (n : Nat) : ∃ s', Turn s s' (s.queue.drain n) [] := by
  induction n generalizing s with
  | zero => exact ⟨s, .refl h⟩
  | succ n ih =>
    rw [LogQueue.drain]
    cases htake : s.queue.step? .take with
    | none => exact ⟨s, .refl h⟩
    | some q =>
      obtain ⟨s₁, h₁⟩ := h.turn_take htake
      obtain ⟨s₂, h₂⟩ := ih h₁.resting
      exact ⟨s₂, h₁.trans (h₁.queue ▸ h₂)⟩

theorem Resting.steps_close {q : LogQueue} (h : Resting s) (hg : s.guard = .held)
    (hr : s.queue.running = true) (hq : s.queue.step? .close = some q) :
    ∃ s', Steps s s' ∧ Resting s' ∧ s'.queue = q ∧ s'.guard = .joining := by
  have hpresent : s.consumer ≠ .gone := by simp [h.consumer, hr]
  cases hfull : s.queue.isFull with
  | true => simp [LogQueue.step?, hr, hfull] at hq
  | false =>
    obtain rfl : s.queue.enqueue (.stop s.queue.dropped) = q := by
      simpa [LogQueue.step?, hr, hfull] using hq
    have hclose := Step.close (s := { s with guard := .loaded s.queue.dropped }) rfl hpresent hfull
    exact ⟨_, .tail (.single (.load hg)) hclose, ⟨h.idle, h.consumer⟩, rfl, rfl⟩

section Held
variable {base : List LogDrop} {least : Nat}

/-- While the guard is held, the consumer can make room. -/
theorem Resting.turn_room (h : Resting s) (hinv : Inv initial base least s) (hg : s.guard = .held)
    (hfull : s.queue.isFull = true) : ∃ q s', s.queue.step? .take = some q ∧ Turn s s' q [] ∧
      q.running = true ∧ q.isFull = false := by
  obtain ⟨hcapacity, hbound⟩ := hinv.bounded
  have hle : s.queue.capacity ≤ s.queue.pending.length := of_decide_eq_true hfull
  obtain ⟨m, rest, hpending⟩ := List.exists_cons_of_length_pos (hcapacity.trans hle)
  have htake : s.queue.step? .take = some ({ s.queue with pending := rest }.consume m) := by
    simp [LogQueue.step?, hinv.running hg, hpending]
  obtain ⟨s', h'⟩ := h.turn_take htake
  have hrunning := (hinv.steps h'.steps).running (h'.guard.trans hg)
  rw [h'.queue] at hrunning
  refine ⟨_, s', htake, h', hrunning, ?_⟩
  rw [hpending, List.length_cons] at hbound
  have hlt : ¬s.queue.capacity ≤ rest.length := by omega
  cases m <;> exact decide_eq_false hlt

theorem isSome_step?_action {q : LogQueue} (hroom : q.isFull = false) (level : LogLevel)
    (text : String) : (q.step? (level.action text)).isSome := by
  by_cases hlevel : level = .error
  · rw [LogLevel.action, if_pos hlevel, LogQueue.step?, hroom]
    split <;> rfl
  · rw [LogLevel.action, if_neg hlevel]
    rfl

theorem Resting.turn_perform (h : Resting s) (hinv : Inv initial base least s)
    (hg : s.guard = .held) (level : LogLevel) (text : String) : ∃ s' fate,
      Turn s s' (s.queue.perform (level.action text)) [⟨0, ⟨text, level = .error⟩, fate⟩] := by
  rw [LogQueue.perform]
  cases hq : s.queue.step? (level.action text) with
  | some q => exact h.turn_action hq
  | none =>
    have hfull : s.queue.isFull = true := by
      by_contra hroom
      have hsome := isSome_step?_action (Bool.eq_false_iff.mpr hroom) level text
      simp [hq] at hsome
    obtain ⟨q, s₁, htake, h₁, -, hroom⟩ := h.turn_room hinv hg hfull
    obtain ⟨q₁, hq₁⟩ := Option.isSome_iff_exists.mp (isSome_step?_action hroom level text)
    rw [htake, Option.bind_some, hq₁]
    rw [← h₁.queue] at hq₁
    obtain ⟨s₂, fate, h₂⟩ := h₁.resting.turn_action hq₁
    exact ⟨s₂, fate, h₁.trans h₂⟩

theorem Resting.steps_perform_close (h : Resting s) (hinv : Inv initial base least s)
    (hg : s.guard = .held) :
    ∃ s', Steps s s' ∧ Resting s' ∧ s'.queue = s.queue.perform .close ∧ s'.guard = .joining := by
  have hr := hinv.running hg
  rw [LogQueue.perform]
  cases hq : s.queue.step? .close with
  | some q => exact h.steps_close hg hr hq
  | none =>
    have hfull : s.queue.isFull = true := by
      by_contra hroom
      simp [LogQueue.step?, hr, hroom] at hq
    obtain ⟨q, s₁, htake, h₁, hr₁, hroom⟩ := h.turn_room hinv hg hfull
    have hclose : q.step? .close = some (q.enqueue (.stop q.dropped)) := by
      simp [LogQueue.step?, hr₁, hroom]
    rw [htake, Option.bind_some, hclose]
    rw [← h₁.queue] at hr₁ hclose
    obtain ⟨s₂, hs₂, h₂, hq₂, hg₂⟩ := h₁.resting.steps_close (h₁.guard.trans hg) hr₁ hclose
    exact ⟨s₂, h₁.steps.trans hs₂, h₂, hq₂.trans (by rw [h₁.queue]; rfl), hg₂⟩

theorem running_drain {q : LogQueue} {n k : Nat} (hstop : .stop n ∈ q.pending)
    (hk : q.pending.length ≤ k) : (q.drain k).running = false := by
  have hstopped (q : LogQueue) (k : Nat) (hr : q.running = false) :
      (q.drain k).running = false := by
    cases k <;> simp [LogQueue.drain, LogQueue.step?, hr]
  induction k generalizing q with
  | zero => simp [List.eq_nil_of_length_eq_zero (Nat.le_zero.mp hk)] at hstop
  | succ k ih =>
    cases hr : q.running with
    | false => exact hstopped q _ hr
    | true =>
      cases hpending : q.pending with
      | nil => simp [hpending] at hstop
      | cons m rest =>
        rw [hpending] at hstop hk
        have htake : q.step? .take = some ({ q with pending := rest }.consume m) := by
          simp [LogQueue.step?, hr, hpending]
        rw [LogQueue.drain, htake]
        cases m with
        | stop => exact hstopped _ k rfl
        | line text =>
          have hrest : .stop n ∈ rest := by simpa using hstop
          exact ih hrest (Nat.le_of_succ_le_succ hk)

/-- Closing the queue and letting the consumer finish is what the guard does. -/
theorem Resting.steps_finish (h : Resting s) (hinv : Inv initial base least s)
    (hg : s.guard = .held) :
    ∃ s', Steps s s' ∧ s'.queue = s.queue.finish ∧ s'.guard = .returned := by
  obtain ⟨s₁, hs₁, h₁, hq₁, hg₁⟩ := h.steps_perform_close hinv hg
  obtain ⟨s₂, h₂⟩ := h₁.turn_drain s₁.queue.pending.length
  have hstopped : s₂.queue.running = false := by
    rw [h₂.queue]
    cases (hinv.steps hs₁).flow with
    | «open» rest hguard => simp [Opening, hg₁] at hguard
    | closing rest accepted late n hguard hsent hb hn hrun hp hw =>
      exact running_drain (n := n) (by rw [hp]; simp) le_rfl
    | closed _ _ _ _ _ _ _ hrun =>
      cases hlength : s₁.queue.pending.length <;> simp [LogQueue.drain, LogQueue.step?, hrun]
  have hgone : s₂.consumer = .gone := by simp [h₂.resting.consumer, hstopped]
  refine ⟨_, (hs₁.trans h₂.steps).tail (.join (h₂.guard.trans hg₁) hgone), ?_, rfl⟩
  rw [LogQueue.finish, ← hq₁]
  exact h₂.queue

end Held

/-! ## What may be relied on -/

structure Reliable (initial : String) (s : LogSystem) : Prop where
  /-- Until the consumer stops, what it wrote and what is queued are the lines sent, in order. -/
  intact : s.queue.running = true →
    s.queue.written ++ String.join s.queued = initial ++ String.join (texts s.sent)
  /-- Each thread's fates are settled in the order in which it ends its writers. -/
  ordered : ∀ p, s.settled.filter (·.producer = p) =
    s.ended.filter (·.producer = p) ++ (s.producers p).underway p
  silent : ∀ d ∈ s.sent, d.line.text ≠ ""
  counted : s.queue.dropped = (s.settled.filter (·.fate = .counted)).length
  /-- Once the guard has returned, the file holds the lines sent before, and the number of dropped
  lines after them. -/
  delivered : s.guard = .held → ∀ s', Steps s s' → s'.guard = .returned → ∃ accepted n,
    s'.file = initial ++ String.join (texts accepted) ++ LogQueue.closing n ∧
      s.sent <+: accepted ∧ accepted <+: s'.sent ∧ s.queue.dropped ≤ n ∧
      ∀ d ∈ s.ended, d.line.text ≠ "" → d ∈ accepted ∨ d.fate = .counted ∧ d.line.waits = false
  /-- Where all rest, a queue that records an event or closes on its own goes through such steps. -/
  records : Resting s → s.guard = .held → ∀ (level : LogLevel) text, ∃ s' fate,
    Turn s s' (s.queue.perform (level.action text)) [⟨0, ⟨text, level = .error⟩, fate⟩]
  finishes : Resting s → s.guard = .held →
    ∃ s', Steps s s' ∧ s'.queue = s.queue.finish ∧ s'.guard = .returned

theorem Inv.delivered {base : List LogDrop} {least : Nat} (h : Inv initial base least s)
    (hg : s.guard = .held) (hs : Steps s s') (hg' : s'.guard = .returned) : ∃ accepted n,
    s'.file = initial ++ String.join (texts accepted) ++ LogQueue.closing n ∧
      s.sent <+: accepted ∧ accepted <+: s'.sent ∧ s.queue.dropped ≤ n ∧
      ∀ d ∈ s.ended, d.line.text ≠ "" →
        d ∈ accepted ∨ d.fate = .counted ∧ d.line.waits = false := by
  have h' := (h.rebase hg).steps hs
  have hfile := (h'.saved.whole (by simp [h'.saved.joined hg'])).2
  cases h'.flow with
  | «open» rest hguard =>
    rcases hguard with ⟨hheld, -⟩ | ⟨n, hloaded, -⟩
    · simp [hg'] at hheld
    · simp [hg'] at hloaded
  | closing _ _ _ _ hguard => simp [hg'] at hguard
  | closed accepted late n hguard hsent hb hn hrun hw =>
    refine ⟨accepted, n, hfile.trans hw, hb, ⟨late, hsent.symm⟩, hn, ?_⟩
    intro d hd htext
    rcases h.sent_or_counted hg hd htext with hsent | hcounted
    · exact .inl (hb.subset hsent)
    · exact .inr hcounted

theorem reliable (capacity : Nat) (initial : String) {s : LogSystem}
    (h : Steps (start capacity initial) s) : Reliable initial s := by
  have hinv := (inv_start capacity initial).steps h
  refine ⟨hinv.intact, hinv.ordered, ?_, hinv.fated.dropped,
    fun hg s' hs hg' => hinv.delivered hg hs hg', fun hrest => hrest.turn_perform hinv,
    fun hrest => hrest.steps_finish hinv⟩
  intro d hd
  obtain ⟨hsettled, hfate⟩ := List.mem_filter.mp hd
  have hsuits := hinv.fated.suits d hsettled
  rw [of_decide_eq_true hfate] at hsuits
  exact hsuits

/-- Two ordinary lines and an error, for a queue with room for one line. -/
theorem reliable_overrun : ∃ s s', Steps (start 1 "old\n") s ∧ Reliable "old\n" s ∧
    s.ended = [⟨0, ⟨"a\n", false⟩, .queued⟩, ⟨1, ⟨"b\n", false⟩, .counted⟩,
      ⟨0, ⟨"c\n", true⟩, .queued⟩] ∧
    Resting s ∧ s.guard = .held ∧ Steps s s' ∧ s'.guard = .returned ∧
    s'.file = "old\na\nc\n1 log entries dropped while the queue was full\n" := by
  have ha := steps_queued (s := start 1 "old\n") (p := 0) rfl .info
    (show "a\n" ≠ "" by decide) nofun rfl
  have hb := ha.trans (steps_counted (p := 1) rfl (show LogLevel.info ≠ .error by decide)
    (show "b\n" ≠ "" by decide) nofun rfl)
  have hc := (hb.tail (.take rfl rfl)).trans (steps_queued (p := 0) rfl .error
    (show "c\n" ≠ "" by decide) nofun rfl)
  refine ⟨_, _, hc, reliable 1 "old\n" hc, rfl, ⟨fun _ => rfl, rfl⟩, rfl,
    .head (.load rfl) <| .head (.take rfl rfl) <| .head (.close rfl nofun rfl) <|
      .head (.take rfl rfl) <| .head (.flush rfl rfl) <| .head (.exit rfl) <|
      .single (.join rfl rfl), rfl, ?_⟩
  decide +kernel

end LogSystem

end Lineage
