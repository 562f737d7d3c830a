import SimControl.Text.Quoted
/-!
# Send queues

A send queue holds bytes waiting to be injected into the input of one line. The machine polls
it whenever the device could accept input; one byte is handed over per poll, no sooner than
`delay` instruction times after the one before.

The bytes stand in a buffer with the offset of the next one to hand over; queueing new data
first drops the bytes already handed over, and a clear empties the buffer.
-/

namespace SimControl

/-- What polling a send queue gives. -/
inductive SendPoll where
  /-- Nothing is queued. -/
  | idle
  /-- Data is queued, but the next byte is not due yet. -/
  | notYet
  /-- The next byte, handed over. -/
  | injected (byte : UInt8)
  deriving DecidableEq

/-- Bytes waiting to be injected into a line's input. -/
structure SendQueue where
  line : String
  /-- The bytes queued since the buffer was last compacted, those handed over first. -/
  buffer : List UInt8
  /-- How many bytes of the buffer have been handed over. -/
  extoff : Nat
  /-- Instruction times between bytes. -/
  delay : Nat
  /-- Instruction times before the first byte of new data. -/
  after : Nat
  /-- When the next byte is due. -/
  nextTime : Int
  deriving DecidableEq

namespace SendQueue

/-- An empty queue with a default pacing. -/
def new (line : String) (defaultDelay : Nat) : SendQueue := ⟨line, [], 0, defaultDelay, 0, 0⟩

/-- The bytes still waiting, the next to hand over first. -/
def pending (q : SendQueue) : List UInt8 := q.buffer.drop q.extoff

/-- Queues data. The bytes already handed over are first dropped from the buffer. A nonzero
delay or after replaces the setting; if no after was ever set, the delay serves. The first new
byte is due `after` instruction times from now, but never before a byte already due. -/
def input (q : SendQueue) (data : List UInt8) (after delay : Nat) (now : Int) : SendQueue :=
  let q := if q.extoff != 0 then { q with buffer := q.buffer.drop q.extoff, extoff := 0 } else q
  let delay := if delay != 0 then delay else q.delay
  let after := if after != 0 then after else q.after
  let after := if after == 0 then delay else after
  { q with buffer := q.buffer ++ data, delay := delay, after := after,
           nextTime := max q.nextTime (now + after) }

/-- Hands over the next byte if it is due. -/
def poll (q : SendQueue) (now : Int) : SendPoll × SendQueue :=
  match q.buffer[q.extoff]? with
  | none => (.idle, q)
  | some b =>
    if now < q.nextTime then (.notYet, q)
    else (.injected b, { q with extoff := q.extoff + 1, nextTime := now + q.delay })

/-- Drops every queued byte. -/
def clear (q : SendQueue) : SendQueue := { q with buffer := [], extoff := 0 }

/-- The SHOW SEND report. -/
def describe (q : SendQueue) (now : Int) : String :=
  match q.pending with
  | [] => "No pending send data on " ++ q.line ++ "\n"
  | p =>
    q.line ++ " send data: " ++ Text.Quoted.encode p ++ "\n" ++
      "  Delay: " ++ toString q.delay ++ " instructions\n" ++
      "  After: " ++ toString q.after ++ " instructions\n" ++
      "  Next byte due in " ++ toString (max (q.nextTime - now) 0) ++ " instructions\n"

end SendQueue

end SimControl
