import SimControl.Event.Scheduler
/-!
# Scripted units

A `Script` makes units react by rote, to exercise the scheduler without a machine: some units
fail when they fire, some ask the simulation to stop, and a list of re-activations is used up
as units fire, each at most once. Every firing is recorded with the time it happened.
-/

namespace SimControl

/-- Scripted reactions of units. -/
structure Script where
  /-- Indices of units that fail when they fire. -/
  failing : List Nat := []
  /-- Indices of units that ask for a stop when they fire. -/
  stopping : List Nat := []
  /-- Re-activations still to use: a unit index and a delay. -/
  reactivations : List (Nat × Int) := []
  /-- The firings so far, with the time of each. -/
  fired : List (UnitId × Int) := []
  deriving DecidableEq

namespace Script

/-- The first element that satisfies `p`, and the list without it. -/
def takeFirst {α : Type} (p : α → Bool) : List α → Option (α × List α)
  | [] => none
  | a :: rest =>
    if p a then some (a, rest)
    else (takeFirst p rest).map fun (b, others) => (b, a :: others)

/-- How a unit reacts: it is recorded, re-activates itself if a re-activation for it is left,
asks for a stop if it is a stopping unit, and fails if it is a failing unit. -/
def react : Scheduler.Reaction Script := fun u sc s =>
  let sc := { sc with fired := sc.fired ++ [(u, s.gtime)] }
  let (sc, s) := match takeFirst (·.1 == u.index) sc.reactivations with
    | some ((_, d), rest) => ({ sc with reactivations := rest }, s.activate u d)
    | none => (sc, s)
  let s := if sc.stopping.contains u.index then s.requestStop else s
  if sc.failing.contains u.index then (.error (.device (s.name u) "failed"), sc, s)
  else (.ok (), sc, s)

/-- Handles the end of the countdown with scripted units; the re-activations bound how many
units can fire at once beyond those queued. -/
def processEvent (sc : Script) (s : Scheduler) : Except Stop Unit × Script × Scheduler :=
  Scheduler.processEvent react sc.reactivations.length sc s

end Script

end SimControl
