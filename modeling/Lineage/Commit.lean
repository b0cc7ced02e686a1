import Lineage.Calendar
import Lineage.Json
/-! # Commits -/
namespace Lineage

structure Commit where
  id : String
  shortId : String
  message : String := ""
  author : String := ""
  /-- Seconds since the start of 1970. -/
  timestamp : Int
  deriving DecidableEq, Repr, Inhabited

namespace Commit

def shorten (id : String) : String := String.ofList (id.toList.take 7)

def new (id : String) (timestamp : Int) : Commit := { id, shortId := shorten id, timestamp }

def time? (c : Commit) : Option Calendar.Moment := Calendar.moment? c.timestamp

def fields (c : Commit) : List (String × Json) :=
  [("id", .text c.id), ("shortId", .text c.shortId), ("message", .text c.message),
   ("author", .text c.author), ("timestamp", .int c.timestamp)]

def toJson (c : Commit) : Json := .record c.fields

end Commit

end Lineage
