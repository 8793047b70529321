import Chomsky.Event.Log

/-!
# Recorders

A recorder receives events as they happen: it drops them, keeps them, or writes them to a text as
lines of a log. One without any way to record fails on every event. The time of an event is looked
up only when it is recorded.
-/

namespace Chomsky.Event

inductive Recorder where
  | unable
  | silent
  | memory (events : List Event)
  | writer (text : String) (flush : Bool) (flushes : Nat)

inductive RecordFault where
  | unable
  | time (fault : TimeFault)
  /-- A further field has a name that means something else. -/
  | reservedName (name : String)
deriving DecidableEq, Repr

def RecordFault.message : RecordFault → String
  | unable => ""
  | time fault => fault.message
  | reservedName name =>
    s!"Logger.log_grammar() got multiple values for argument {Text.quoted name}"

namespace Recorder

/-- Records an event that happens at the time that the clock shows. -/
def record (r : Recorder) (kind : String) (clock : Except TimeFault Timestamp) (data : Json) :
    Except RecordFault Recorder :=
  match r with
  | unable => .error .unable
  | silent => .ok silent
  | memory events => do
    let now ← clock.mapError .time
    return memory (events ++ [⟨kind, now, data⟩])
  | writer text flush flushes => do
    let now ← clock.mapError .time
    let line := (Event.mk kind now data).line
    return writer (text ++ line) flush (if flush then flushes + 1 else flushes)

/-- The names that a further field cannot have. -/
def reservedNames : List String := ["self", "event_type", "grammar"]

/-- What an event tells about a grammar: its size, and further fields of the caller's choice. -/
def grammarData (g : Grammar) (extra : List (String × Json)) : Except RecordFault Json :=
  match extra.find? fun f => reservedNames.contains f.1 with
  | some f => .error (.reservedName f.1)
  | none =>
    .ok (.object (extra.foldl (fun fields f => Json.setField fields f.1 f.2) g.summary.fields))

end Recorder

end Chomsky.Event
