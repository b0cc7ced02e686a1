/-! # The log queue

Lines on their way to a log file: a bounded queue with many writers and one consumer, which
appends to the file. An ordinary line that meets a full queue is dropped and counted; an error
waits for room. Closing the queue stops the consumer once it has written what came before.
-/
namespace Lineage

inductive LogMessage where
  | line (text : String)
  /-- The end, with the number of lines dropped until then. -/
  | stop (dropped : Nat)
  deriving DecidableEq, Repr

structure LogQueue where
  capacity : Nat
  pending : List LogMessage := []
  written : String
  dropped : Nat := 0
  /-- Whether the consumer still takes messages. -/
  running : Bool := true
  deriving DecidableEq, Repr

namespace LogQueue

/-- A queue for a file with some content; it has room for one message at least. -/
def start (capacity : Nat) (written : String) : LogQueue := { capacity := max capacity 1, written }

def isFull (q : LogQueue) : Bool := q.capacity ≤ q.pending.length

def enqueue (q : LogQueue) (m : LogMessage) : LogQueue := { q with pending := q.pending ++ [m] }

def closing (dropped : Nat) : String :=
  if dropped = 0 then "" else s!"{dropped} log entries dropped while the queue was full\n"

/-- What writers and the consumer do. -/
inductive Action where
  | offer (text : String)
  | insist (text : String)
  | close
  | take
  deriving DecidableEq, Repr

def consume (q : LogQueue) : LogMessage → LogQueue
  | .line text => { q with written := q.written ++ text }
  | .stop dropped => { q with written := q.written ++ closing dropped, running := false }

/-- The queue after an action; none if the action has to wait. An empty line is no line, and nobody
waits for a consumer that has stopped. -/
def step? (q : LogQueue) : Action → Option LogQueue
  | .offer text =>
    some <|
      if text = "" || !q.running then q
      else if q.isFull then { q with dropped := q.dropped + 1 }
      else q.enqueue (.line text)
  | .insist text =>
    if text = "" || !q.running then some q
    else if q.isFull then none
    else some (q.enqueue (.line text))
  | .close =>
    if !q.running then some q
    else if q.isFull then none
    else some (q.enqueue (.stop q.dropped))
  | .take =>
    match q.running, q.pending with
    | true, m :: rest => some ({ q with pending := rest }.consume m)
    | _, _ => none

/-- Does an action, after the consumer has made room if it has to wait. -/
def perform (q : LogQueue) (a : Action) : LogQueue :=
  match q.step? a with
  | some q => q
  | none => (((q.step? .take).bind (·.step? a)).getD q)

def drain : Nat → LogQueue → LogQueue
  | 0, q => q
  | n + 1, q =>
    match q.step? .take with
    | some q => drain n q
    | none => q

def finish (q : LogQueue) : LogQueue :=
  let q := q.perform .close
  drain q.pending.length q

end LogQueue

inductive LogLevel where
  | trace
  | debug
  | info
  | warn
  | error
  deriving DecidableEq, Repr

namespace LogLevel

def all : List LogLevel := [.trace, .debug, .info, .warn, .error]

def name : LogLevel → String
  | trace => "trace"
  | debug => "debug"
  | info => "info"
  | warn => "warn"
  | error => "error"

def label : LogLevel → String
  | trace => "TRACE"
  | debug => "DEBUG"
  | info => " INFO"
  | warn => " WARN"
  | error => "ERROR"

def ofName? (s : String) : Option LogLevel := all.find? (·.name = s)

def shows (log event : LogLevel) : Bool := all.idxOf log ≤ all.idxOf event

/-- What a writer does with the line of an event. -/
def action (l : LogLevel) (text : String) : LogQueue.Action :=
  if l = .error then .insist text else .offer text

end LogLevel

end Lineage
