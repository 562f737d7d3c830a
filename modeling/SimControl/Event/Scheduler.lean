import SimControl.Config
import SimControl.Stop
import SimControl.Queue.Keyed
/-!
# The event scheduler

Devices register units; a unit is activated to fire a number of instruction times from now.
The scheduler keeps every active unit in a keyed queue ordered by due time, units due at the
same time in the order they were activated.

The clock is kept the way a countdown is: `interval` is the number of instruction times left
until the head of the queue is due (or a fixed wait when nothing is queued), the machine
consumes it as it executes, and `gtime` is `time` plus what has been consumed since the
countdown was last set. When the countdown reaches zero the machine calls `processEvent`,
which fires the head and every unit due at the same time.

* `Scheduler.queueEntries` lists the queued units in firing order, with the time each has
  left and the difference from the one before.
-/

namespace SimControl

/-- A unit registered with the scheduler, by its registration index. -/
structure UnitId where
  index : Nat
  deriving DecidableEq, Inhabited

/-- How a unit is written: `unit#` and its index. -/
def UnitId.render (u : UnitId) : String := "unit#" ++ toString u.index

/-- When a queued unit is due: a time, and a sequence number that orders activations. -/
structure Due where
  time : Int
  seq : Nat
  deriving DecidableEq

instance : LT Due := ⟨fun a b => a.time < b.time ∨ (a.time = b.time ∧ a.seq < b.seq)⟩

instance (a b : Due) : Decidable (a < b) :=
  inferInstanceAs (Decidable (a.time < b.time ∨ (a.time = b.time ∧ a.seq < b.seq)))

/-- The event scheduler. -/
structure Scheduler where
  config : Config
  /-- The names of the registered units, in registration order. -/
  names : List String
  queue : KeyedQueue UnitId Due
  /-- The sequence number the next activation gets. -/
  nextSeq : Nat
  /-- The time at which the countdown was last set. -/
  time : Int
  /-- Instruction times left on the countdown. -/
  interval : Int
  /-- The countdown's value when it was last set. -/
  baseInterval : Int
  stopRequested : Bool
  deriving DecidableEq

namespace Scheduler

/-- A scheduler with no units, at time zero. -/
def new (c : Config) : Scheduler :=
  { config := c, names := [], queue := {}, nextSeq := 0, time := 0,
    interval := c.noqueueWait, baseInterval := c.noqueueWait, stopRequested := false }

/-- Registers a unit under a name. -/
def register (s : Scheduler) (name : String) : UnitId × Scheduler :=
  (⟨s.names.length⟩, { s with names := s.names ++ [name] })

/-- The name a unit was registered under, or `?`. -/
def name (s : Scheduler) (u : UnitId) : String := s.names.getD u.index "?"

/-- The current simulated time. -/
def gtime (s : Scheduler) : Int := s.time + s.baseInterval - s.interval

/-- Moves the time the countdown was set to the current time. -/
def updateTime (s : Scheduler) : Scheduler :=
  { s with time := s.time + s.baseInterval - s.interval, baseInterval := s.interval }

/-- Sets the countdown to the time left until the head of the queue is due, or to the fixed
wait when nothing is queued. -/
def resetInterval (s : Scheduler) : Scheduler :=
  let i := match s.queue.peek? with
    | some (_, d) => clampDelay (d.time - s.time)
    | none => s.config.noqueueWait
  { s with interval := i, baseInterval := i }

/-- Runs `n` instruction times off the countdown, which saturates at the 32-bit limits. -/
def consume (s : Scheduler) (n : Int) : Scheduler :=
  { s with interval := clampDelay (s.interval - n) }

/-- The unit is queued. -/
def isActive (s : Scheduler) (u : UnitId) : Bool := s.queue.contains u

/-- Queues a unit to fire `d` instruction times from now; a queued unit keeps its time. -/
def activate (s : Scheduler) (u : UnitId) (d : Int) : Scheduler :=
  if s.isActive u then s
  else
    let s := s.updateTime
    let q := (s.queue.push u ⟨s.time + d, s.nextSeq⟩).2
    resetInterval { s with queue := q, nextSeq := s.nextSeq + 1 }

/-- Takes a unit off the queue. -/
def cancel (s : Scheduler) (u : UnitId) : Scheduler :=
  if s.isActive u then
    let s := s.updateTime
    resetInterval { s with queue := (s.queue.erase u).2 }
  else s

/-- Queues a unit to fire `d` instruction times from now, whether or not it was queued. -/
def activateAbs (s : Scheduler) (u : UnitId) (d : Int) : Scheduler :=
  (s.cancel u).activate u d

/-- Queues a unit to fire after a number of microseconds. -/
def activateAfter (s : Scheduler) (u : UnitId) (usecs : Nat) : Scheduler :=
  s.activate u (s.config.usecsToInstructions usecs)

/-- One more than the instruction times until a queued unit fires, or zero if it is idle. -/
def activateTime (s : Scheduler) (u : UnitId) : Int :=
  match s.queue.get? u with
  | some d => max (d.time - s.gtime) 0 + 1
  | none => 0

/-- Asks the simulation to stop at the next event. -/
def requestStop (s : Scheduler) : Scheduler := { s with stopRequested := true }

/-- What a unit does when it fires: it may change its device's state and the scheduler, and
may stop the simulation. -/
abbrev Reaction (σ : Type) := UnitId → σ → Scheduler → Except Stop Unit × σ × Scheduler

/-- Fires the head of the queue, then every unit due by the time it moved the clock to,
until a unit stops the simulation or asks for a stop; at most `fuel` units. -/
def fireDue {σ : Type} (react : Reaction σ) : Nat → σ → Scheduler → Except Stop Unit × σ × Scheduler
  | 0, st, s => (.ok (), st, s)
  | fuel + 1, st, s =>
    match s.queue.pop with
    | (none, _) => (.ok (), st, s)
    | (some (u, due), q) =>
      let s := resetInterval { s with queue := q, time := max s.time due.time }
      match react u st s with
      | (.error e, st, s) => (.error e, st, s)
      | (.ok (), st, s) =>
        if s.stopRequested then (.ok (), st, s)
        else
          match s.queue.peek? with
          | some (_, next) => if next.time ≤ s.time then fireDue react fuel st s else (.ok (), st, s)
          | none => (.ok (), st, s)

/-- Handles the end of the countdown: a requested stop is reported and cleared first;
otherwise the head of the queue and every unit due with it fire. `extra` bounds how many
units the reactions may queue to fire at once, beyond those already queued. -/
def processEvent {σ : Type} (react : Reaction σ) (extra : Nat) (st : σ) (s : Scheduler) :
    Except Stop Unit × σ × Scheduler :=
  if s.stopRequested then (.error .userStop, st, { s with stopRequested := false })
  else
    let s := s.updateTime
    if s.queue.isEmpty then (.ok (), st, s.resetInterval)
    else fireDue react (s.queue.size + extra) st s

/-- A queued unit as SHOW QUEUE lists it. -/
structure QueueEntry where
  unit : UnitId
  name : String
  /-- Time left after the entry before it fires. -/
  delta : Int
  /-- Time left until it fires. -/
  remaining : Int
  deriving DecidableEq

/-- Orders queued units by due time, then activation. -/
def dueBefore (a b : UnitId × Due) : Bool := decide (a.2 < b.2) || a.2 == b.2

/-- Lists entries from a running total of time left. -/
def entriesFrom (s : Scheduler) (now : Int) (prev : Int) : List (UnitId × Due) → List QueueEntry
  | [] => []
  | (u, d) :: rest =>
    let remaining := d.time - now
    ⟨u, s.name u, remaining - prev, remaining⟩ :: entriesFrom s now remaining rest

/-- The queued units in firing order. -/
def queueEntries (s : Scheduler) : List QueueEntry :=
  entriesFrom s s.gtime 0 (s.queue.entries.mergeSort dueBefore)

/-- The SHOW QUEUE report. -/
def render (s : Scheduler) : String :=
  match s.queueEntries with
  | [] => "Event queue empty, time = " ++ toString s.gtime ++ "\n"
  | es =>
    "Event queue status, time = " ++ toString s.gtime ++ "\n" ++
      String.join (es.map fun e => "  " ++ e.name ++ " at " ++ toString e.remaining ++ "\n")

end Scheduler

end SimControl
