import Mathlib
import SimControl.Proofs.StepOver
/-!
# Runs of the machine, with and without the slice budget

A run of the machine goes slice by slice until a slice stops the simulation, and nothing
bounds how many slices that takes. `Bench.Machine.run` counts the slices down from a fuel,
and ends a run that the fuel does not see to its end as if the operator had stopped it; the
session gives every run `sliceBudget` slices. `Stops k m c out r` is the unbounded run: `k`
slices go on and the next one stops with the outcome `r`.

* `run_of_stops`: any fuel beyond the slices of a run that stops gives that run's outcome.
* `Stops.unique`: an unbounded run stops at most one way.
* `run_cases`: with any fuel, a run either ends as the unbounded run does, within the fuel,
  or runs every slice of the fuel without a stop and ends in the operator's stop. So the cut
  is the only stop a run reports that no slice made.
* `Session.resume_reports_unbounded_stop`, `Session.step_reports_unbounded_stop`: CONTINUE
  and STEP report the stop of the unbounded run whenever that run stops within `sliceBudget`
  slices.
-/

namespace SimControl

namespace Bench.Machine

/-- `Stops k m c out r`: from `(m, c, out)`, `k` slices go on without a stop, and the next
one stops the simulation with the outcome `r`. -/
inductive Stops : Nat → Machine → Context → Array UInt8 → Outcome → Prop
  | stop {m m' : Machine} {c c' : Context} {out out' : Array UInt8} {stop : Stop}
      (h : m.runSlice c out = (.error stop, m', c', out')) : Stops 0 m c out (stop, m', c', out')
  | slice {k : Nat} {m : Machine} {c : Context} {out : Array UInt8} {r : Outcome}
      (h : (m.runSlice c out).1 = .ok ())
      (rest : Stops k (m.runSlice c out).2.1 (m.runSlice c out).2.2.1 (m.runSlice c out).2.2.2 r) :
      Stops (k + 1) m c out r

theorem run_succ_of_stop {m m' : Machine} {c c' : Context} {out out' : Array UInt8} {stop : Stop}
    (h : m.runSlice c out = (.error stop, m', c', out')) (fuel : Nat) :
    m.run (fuel + 1) c out = (stop, m', c', out') := by
  rw [run, h]

theorem run_succ_of_ok {m : Machine} {c : Context} {out : Array UInt8}
    (h : (m.runSlice c out).1 = .ok ()) (fuel : Nat) :
    m.run (fuel + 1) c out =
      (m.runSlice c out).2.1.run fuel (m.runSlice c out).2.2.1 (m.runSlice c out).2.2.2 := by
  rw [run]
  rcases hs : m.runSlice c out with ⟨r, m', c', out'⟩
  rw [hs] at h
  cases h
  rfl

/-- A slice that goes on is no stop. -/
theorem not_stops_zero_of_ok {m : Machine} {c : Context} {out : Array UInt8}
    (h : (m.runSlice c out).1 = .ok ()) {r : Outcome} : ¬Stops 0 m c out r := by
  rintro (⟨hs⟩)
  rw [hs] at h
  cases h

/-- Any fuel beyond the slices of a run that stops gives that run's outcome. -/
theorem run_of_stops {k : Nat} {m : Machine} {c : Context} {out : Array UInt8} {r : Outcome}
    (h : Stops k m c out r) {fuel : Nat} (hk : k < fuel) : m.run fuel c out = r := by
  induction h generalizing fuel with
  | stop hs =>
    obtain ⟨f, rfl⟩ : ∃ f, fuel = f + 1 := ⟨fuel - 1, by omega⟩
    exact run_succ_of_stop hs f
  | slice hok _ ih =>
    obtain ⟨f, rfl⟩ : ∃ f, fuel = f + 1 := ⟨fuel - 1, by omega⟩
    rw [run_succ_of_ok hok]
    exact ih (by omega)

/-- An unbounded run stops at most one way, after one number of slices. -/
theorem Stops.unique {k k' : Nat} {m : Machine} {c : Context} {out : Array UInt8}
    {r r' : Outcome} (h : Stops k m c out r) (h' : Stops k' m c out r') : k = k' ∧ r = r' := by
  induction h generalizing k' with
  | stop hs =>
    cases h' with
    | stop hs' =>
      rw [hs] at hs'
      cases hs'
      exact ⟨rfl, rfl⟩
    | slice hok _ =>
      rw [hs] at hok
      cases hok
  | slice hok _ ih =>
    cases h' with
    | stop hs' => exact absurd (.stop hs') (not_stops_zero_of_ok hok)
    | slice _ rest' =>
      obtain ⟨rfl, rfl⟩ := ih rest'
      exact ⟨rfl, rfl⟩

/-- With any fuel, a run either ends as the unbounded run does, within the fuel, or runs every
slice of the fuel without a stop and ends in the operator's stop. -/
theorem run_cases (fuel : Nat) (m : Machine) (c : Context) (out : Array UInt8) :
    (∃ k < fuel, Stops k m c out (m.run fuel c out)) ∨
      ((m.run fuel c out).1 = .userStop ∧ ∀ k < fuel, ∀ r, ¬Stops k m c out r) := by
  -- induction on the fuel, one slice at a time
  induction fuel generalizing m c out with
  | zero => exact .inr ⟨rfl, fun k hk => absurd hk (Nat.not_lt_zero k)⟩
  | succ fuel ih =>
    rcases hs : m.runSlice c out with ⟨res, m₁, c₁, out₁⟩
    cases res with
    | error stop =>
      rw [run_succ_of_stop hs]
      exact .inl ⟨0, Nat.succ_pos fuel, .stop hs⟩
    | ok u =>
      have hok : (m.runSlice c out).1 = .ok () := by rw [hs]
      rw [run_succ_of_ok hok, hs]
      rcases ih m₁ c₁ out₁ with ⟨k, hk, hstops⟩ | ⟨huser, hnone⟩
      · refine .inl ⟨k + 1, by omega, .slice hok ?_⟩
        rw [hs]
        exact hstops
      · refine .inr ⟨huser, fun k hk r hstops => ?_⟩
        cases hstops with
        | stop hstop => exact not_stops_zero_of_ok hok (.stop hstop)
        | slice _ rest =>
          rw [hs] at rest
          exact hnone _ (by omega) r rest

/-- `run_cases` with the outcome taken apart: the stop and the state the run leaves. -/
theorem run_cases_parts (fuel : Nat) (m : Machine) (c : Context) (out : Array UInt8) :
    (∃ k < fuel, ∃ stop m' c' out', Stops k m c out (stop, m', c', out') ∧
      m.run fuel c out = (stop, m', c', out')) ∨
    ((∀ k < fuel, ∀ r, ¬Stops k m c out r) ∧
      ∃ m' c' out', m.run fuel c out = (.userStop, m', c', out')) := by
  rcases run_cases fuel m c out with ⟨k, hk, hstops⟩ | ⟨huser, hnone⟩
  · exact .inl ⟨k, hk, _, _, _, _, hstops, rfl⟩
  · let o := m.run fuel c out
    refine .inr ⟨hnone, o.2.1, o.2.2.1, o.2.2.2, ?_⟩
    rw [← huser]

end Bench.Machine

namespace Session

open Bench.Machine

/-- A CONTINUE line runs the machine and reports its stop. -/
theorem run_command_resume {line : String} (hp : Command.parse line = .ok .resume) (s : Session) :
    let o := s.machine.run sliceBudget s.ctx s.out
    (command line).run s =
      (reportStop o.1).run { s with machine := o.2.1, ctx := o.2.2.1, out := o.2.2.2 } := by
  rw [command, show workBudget = 16777215 + 1 from rfl, execute, EStateM.run_bind, hp]
  rfl

/-- CONTINUE reports the stop of the unbounded run and leaves the state it leaves, whenever
that run stops within `sliceBudget` slices; a run that does not is cut after `sliceBudget`
slices and reported as stopped by the operator. -/
theorem resume_reports_unbounded_stop {line : String} (hp : Command.parse line = .ok .resume)
    (s : Session) :
    (∃ k < sliceBudget, ∃ stop m c out, Stops k s.machine s.ctx s.out (stop, m, c, out) ∧
      (command line).run s = (reportStop stop).run { s with machine := m, ctx := c, out := out }) ∨
    ((∀ k < sliceBudget, ∀ r, ¬Stops k s.machine s.ctx s.out r) ∧
      ∃ m c out, (command line).run s =
        (reportStop .userStop).run { s with machine := m, ctx := c, out := out }) := by
  rw [run_command_resume hp s]
  rcases run_cases_parts sliceBudget s.machine s.ctx s.out with
    ⟨k, hk, stop, m, c, out, hstops, hrun⟩ | ⟨hnone, m, c, out, hrun⟩
  · exact .inl ⟨k, hk, stop, m, c, out, hstops, by rw [hrun]⟩
  · exact .inr ⟨hnone, m, c, out, by rw [hrun]⟩

/-- STEP `n` reports the stop of the unbounded run from the context with the count queued, and
leaves the state it leaves with the count cancelled, whenever that run stops within
`sliceBudget` slices; a run that does not is cut and reported as stopped by the operator.
So the stops other than the count's own in `step_stops_within_count` are the slices' own
stops and the cut, and the cut comes only after `sliceBudget` slices with no stop. -/
theorem step_reports_unbounded_stop {line : String} {n : Nat}
    (hp : Command.parse line = .ok (.step n)) (s : Session) :
    let c₀ := s.ctx.step (min (n : Int) maxDelay)
    (∃ k < sliceBudget, ∃ stop m c out, Stops k s.machine c₀ s.out (stop, m, c, out) ∧
      (command line).run s =
        (reportStop stop).run { s with machine := m, ctx := c.cancelStep, out := out }) ∨
    ((∀ k < sliceBudget, ∀ r, ¬Stops k s.machine c₀ s.out r) ∧
      ∃ (m : Bench.Machine) (c : Context) (out : Array UInt8), (command line).run s =
        (reportStop .userStop).run { s with machine := m, ctx := c.cancelStep, out := out }) := by
  intro c₀
  rw [run_command_step hp s]
  rcases run_cases_parts sliceBudget s.machine c₀ s.out with
    ⟨k, hk, stop, m, c, out, hstops, hrun⟩ | ⟨hnone, m, c, out, hrun⟩
  · exact .inl ⟨k, hk, stop, m, c, out, hstops, by rw [hrun]⟩
  · exact .inr ⟨hnone, m, c, out, by rw [hrun]⟩

end Session

end SimControl
