import SimControl.Proofs.SchedulerCalls
/-!
# The scheduler as a timeline

What a user of the scheduler sees is a clock and a set of pending activations, at most one per
unit, each due at a time and numbered in the order it was made. A `Timeline` is that and
nothing more: activating puts the unit at the current time plus its delay, consuming moves the
clock, and an event fires the pending activations in order of due time and number, moving the
clock up to each. It has no countdown, no base interval and no time of the last
synchronisation.

The scheduler's view is the timeline it stands for (`Scheduler.view`). Every request a driver
makes of the scheduler, and every call a unit makes while it fires, commutes with the view, as
long as no consume saturates the 32-bit countdown (`Scheduler.viewResult_serveAll`): the
scheduler answers every sequence of requests as its timeline does.
-/

namespace SimControl

/-- The pending activations and the clock of a scheduler. -/
structure Timeline where
  config : Config
  names : List String
  /-- The current simulated time. -/
  now : Int
  /-- The pending activations, in the order they were made. -/
  pending : List (UnitId × Due)
  nextSeq : Nat
  stopRequested : Bool
  deriving DecidableEq

/-- What a unit does when it fires, seeing the timeline: its outcome, its device's new state,
and the calls it makes of the scheduler. -/
abbrev UnitHandler (σ : Type) := UnitId → σ → Timeline → Except Stop Unit × σ × List Call

namespace Timeline

/-- Registers a unit under a name. -/
def register (t : Timeline) (name : String) : UnitId × Timeline :=
  (⟨t.names.length⟩, { t with names := t.names ++ [name] })

/-- The unit has a pending activation. -/
def isPending (t : Timeline) (u : UnitId) : Bool := t.pending.any (·.1 == u)

/-- A unit with no pending activation becomes due `d` from now, numbered after every earlier
activation; a pending unit keeps its activation. -/
def activate (t : Timeline) (u : UnitId) (d : Int) : Timeline :=
  if t.isPending u then t
  else { t with pending := t.pending ++ [(u, ⟨t.now + d, t.nextSeq⟩)], nextSeq := t.nextSeq + 1 }

/-- Drops the unit's pending activation. -/
def cancel (t : Timeline) (u : UnitId) : Timeline :=
  { t with pending := t.pending.filter (·.1 != u) }

def activateAbs (t : Timeline) (u : UnitId) (d : Int) : Timeline := (t.cancel u).activate u d

def activateAfter (t : Timeline) (u : UnitId) (usecs : Nat) : Timeline :=
  t.activate u (t.config.usecsToInstructions usecs)

def requestStop (t : Timeline) : Timeline := { t with stopRequested := true }

/-- The machine has executed `n` instruction times. -/
def advance (t : Timeline) (n : Int) : Timeline := { t with now := t.now + n }

/-- One more than the time until the unit is due, never below one, or zero if it is idle. -/
def activateTime (t : Timeline) (u : UnitId) : Int :=
  match t.pending.find? (·.1 == u) with
  | some (_, d) => max (d.time - t.now) 0 + 1
  | none => 0

/-- The first activation of a list that no other comes before: the least due time, the
earliest made among equals. -/
def earliest : List (UnitId × Due) → Option (UnitId × Due)
  | [] => none
  | e :: rest =>
    match earliest rest with
    | some m => if m.2 < e.2 then some m else some e
    | none => some e

/-- The pending activation to fire next. -/
def next? (t : Timeline) : Option (UnitId × Due) := earliest t.pending

/-- The first activation no other comes before is the one `List.argmin` picks by due time
and number. -/
theorem earliest_eq_argmin (l : List (UnitId × Due)) : earliest l = l.argmin (·.2.key) := by
  induction l with
  | nil => rfl
  | cons e rest ih =>
    rw [earliest, List.argmin_cons, ← ih]
    cases earliest rest with
    | none => rfl
    | some m => simp only [Due.lt_iff_key_lt]

def perform (t : Timeline) : Call → Timeline
  | .register name => (t.register name).2
  | .activate u d => t.activate u d
  | .activateAbs u d => t.activateAbs u d
  | .activateAfter u usecs => t.activateAfter u usecs
  | .cancel u => t.cancel u
  | .requestStop => t.requestStop

def performAll (t : Timeline) (calls : List Call) : Timeline := calls.foldl perform t

variable {σ : Type}

/-- Takes the next activation, moves the clock up to its due time if that is later, and fires
its unit; then goes on while the next activation is due and no stop was asked for, at most
`fuel` times. -/
def fireDue (h : UnitHandler σ) : Nat → σ → Timeline → Except Stop Unit × σ × Timeline
  | 0, st, t => (.ok (), st, t)
  | fuel + 1, st, t =>
    match t.next? with
    | none => (.ok (), st, t)
    | some (u, due) =>
      let t := { t with pending := t.pending.filter (·.1 != u), now := max t.now due.time }
      match h u st t with
      | (.error e, st, calls) => (.error e, st, t.performAll calls)
      | (.ok (), st, calls) =>
        let t := t.performAll calls
        if t.stopRequested then (.ok (), st, t)
        else
          match t.next? with
          | some (_, next) => if next.time ≤ t.now then fireDue h fuel st t else (.ok (), st, t)
          | none => (.ok (), st, t)

/-- An event: a stop asked for is reported and dropped, and nothing fires; otherwise the due
activations fire, `extra` bounding how many the units may add. -/
def processEvent (h : UnitHandler σ) (extra : Nat) (st : σ) (t : Timeline) :
    Except Stop Unit × σ × Timeline :=
  if t.stopRequested then (.error .userStop, st, { t with stopRequested := false })
  else if t.pending.isEmpty then (.ok (), st, t)
  else fireDue h (t.pending.length + extra) st t

end Timeline

/-- A request a driver makes of the scheduler. -/
inductive Request where
  | call (c : Call)
  | consume (n : Int)
  | processEvent (extra : Nat)
  | gtime
  | isActive (u : UnitId)
  | activateTime (u : UnitId)

/-- The scheduler's answer to a request. -/
inductive Answer where
  | done
  | unit (u : UnitId)
  | outcome (r : Except Stop Unit)
  | time (t : Int)
  | active (b : Bool)

namespace Timeline

variable {σ : Type}

def serve (h : UnitHandler σ) : Request → σ → Timeline → Answer × σ × Timeline
  | .call (.register name), st, t => ((.unit (t.register name).1), st, (t.register name).2)
  | .call c, st, t => (.done, st, t.perform c)
  | .consume n, st, t => (.done, st, t.advance n)
  | .processEvent extra, st, t =>
    let (r, st, t) := t.processEvent h extra st
    (.outcome r, st, t)
  | .gtime, st, t => (.time t.now, st, t)
  | .isActive u, st, t => (.active (t.isPending u), st, t)
  | .activateTime u, st, t => (.time (t.activateTime u), st, t)

def serveAll (h : UnitHandler σ) : List Request → σ → Timeline → List Answer × σ × Timeline
  | [], st, t => ([], st, t)
  | r :: rs, st, t =>
    let (a, st, t) := t.serve h r st
    let (as, st, t) := t.serveAll h rs st
    (a :: as, st, t)

end Timeline

namespace Scheduler

variable {σ : Type}

/-- The timeline a scheduler stands for. -/
def view (s : Scheduler) : Timeline :=
  ⟨s.config, s.names, s.gtime, s.queue.entries, s.nextSeq, s.stopRequested⟩

/-- A handler as a reaction: it sees the scheduler's timeline and makes its calls. -/
def handlerReaction (h : UnitHandler σ) : Reaction σ := fun u st s =>
  let (r, st, calls) := h u st s.view
  (r, st, s.performAll calls)

def serve (h : UnitHandler σ) : Request → σ → Scheduler → Answer × σ × Scheduler
  | .call (.register name), st, s => ((.unit (s.register name).1), st, (s.register name).2)
  | .call c, st, s => (.done, st, s.perform c)
  | .consume n, st, s => (.done, st, s.consume n)
  | .processEvent extra, st, s =>
    let (r, st, s) := s.processEvent (handlerReaction h) extra st
    (.outcome r, st, s)
  | .gtime, st, s => (.time s.gtime, st, s)
  | .isActive u, st, s => (.active (s.isActive u), st, s)
  | .activateTime u, st, s => (.time (s.activateTime u), st, s)

def serveAll (h : UnitHandler σ) : List Request → σ → Scheduler → List Answer × σ × Scheduler
  | [], st, s => ([], st, s)
  | r :: rs, st, s =>
    let (a, st, s) := s.serve h r st
    let (as, st, s) := s.serveAll h rs st
    (a :: as, st, s)

/-- The request leaves the countdown short of its 32-bit limits. -/
def Request.unsaturating (s : Scheduler) : Request → Bool
  | .consume n => clampDelay (s.interval - n) == s.interval - n
  | _ => true

/-- No consume of the run saturates the countdown. -/
def unsaturated (h : UnitHandler σ) : List Request → σ → Scheduler → Bool
  | [], _, _ => true
  | r :: rs, st, s =>
    Request.unsaturating s r &&
      let (_, st, s) := s.serve h r st
      s.unsaturated h rs st

/-- A result of the scheduler, with the scheduler replaced by its timeline. -/
def viewResult {α : Type} (x : α × σ × Scheduler) : α × σ × Timeline := (x.1, x.2.1, x.2.2.view)

/-! ## The calls commute with the view -/

theorem gtime_eq_now (s : Scheduler) : s.gtime = s.view.now := rfl

theorem isActive_eq_isPending (s : Scheduler) (u : UnitId) :
    s.isActive u = s.view.isPending u :=
  s.isActive_eq_any u

theorem activateTime_eq (s : Scheduler) (u : UnitId) :
    s.activateTime u = s.view.activateTime u := by
  simp only [activateTime, Timeline.activateTime, KeyedQueue.get?, view]
  rcases List.find? (fun x : UnitId × Due => x.1 == u) s.queue.entries with _ | ⟨v, d⟩ <;> rfl

theorem register_eq (s : Scheduler) (name : String) :
    (s.register name).1 = (s.view.register name).1 := rfl

theorem view_register (s : Scheduler) (name : String) :
    (s.register name).2.view = (s.view.register name).2 := rfl

theorem view_activate (s : Scheduler) (u : UnitId) (d : Int) :
    (s.activate u d).view = s.view.activate u d := by
  have hp := isActive_eq_isPending s u
  unfold Timeline.activate
  cases h : s.isActive u
  · rw [activate_of_not_isActive h, ← hp, h]
    simp only [view, Bool.false_eq_true, if_false, gtime_resetInterval]
    rfl
  · rw [activate_of_isActive h, ← hp, h, if_pos rfl]

/-- An idle unit activated `d ≥ 0` from now is due `d` from now. -/
theorem activateTime_activate_of_not_isActive {s : Scheduler} {u : UnitId} {d : Int}
    (hs : s.isActive u = false) (hd : 0 ≤ d) : (s.activate u d).activateTime u = d + 1 := by
  have hp : s.view.isPending u = false := by rw [← isActive_eq_isPending, hs]
  -- the new activation is the unit's only one, at the end of the pending list
  have hnone : s.view.pending.find? (·.1 == u) = none := by
    simpa [Timeline.isPending, List.find?_eq_none] using hp
  rw [activateTime_eq, view_activate, Timeline.activate, hp, if_neg Bool.false_ne_true]
  simp only [Timeline.activateTime, List.find?_append, hnone, Option.none_or]
  simp
  omega

theorem view_cancel (s : Scheduler) (u : UnitId) : (s.cancel u).view = s.view.cancel u := by
  cases h : s.isActive u
  · -- an idle unit has no entry to drop
    have hq := queue_cancel s u
    rw [cancel_of_not_isActive h] at hq ⊢
    simp only [view, Timeline.cancel]
    rw [← hq]
  · rw [cancel_of_isActive h]
    simp only [view, Timeline.cancel, gtime_resetInterval]
    rfl

theorem view_perform (s : Scheduler) (c : Call) : (s.perform c).view = s.view.perform c := by
  cases c with
  | register name => rfl
  | activate u d => exact view_activate s u d
  | activateAbs u d =>
    simp only [perform, Timeline.perform, activateAbs, Timeline.activateAbs, view_activate,
      view_cancel]
  | activateAfter u usecs => exact view_activate s u _
  | cancel u => exact view_cancel s u
  | requestStop => rfl

theorem view_performAll (s : Scheduler) (calls : List Call) :
    (s.performAll calls).view = s.view.performAll calls := by
  induction calls generalizing s with
  | nil => rfl
  | cons c calls ih =>
    rw [performAll, List.foldl_cons, ← performAll, ih, view_perform]
    rfl

/-- A consume that does not saturate the countdown moves the clock by what it consumed. -/
theorem view_consume {s : Scheduler} {n : Int} (h : clampDelay (s.interval - n) = s.interval - n) :
    (s.consume n).view = s.view.advance n := by
  simp only [view, Timeline.advance, consume, gtime, h, Timeline.mk.injEq, and_true, true_and]
  omega

/-! ## Events -/

theorem handlerReaction_apply (h : UnitHandler σ) (u : UnitId) (st : σ) (s : Scheduler) :
    handlerReaction h u st s =
      ((h u st s.view).1, (h u st s.view).2.1, s.performAll (h u st s.view).2.2) := rfl

theorem peek?_eq_next? (s : Scheduler) : s.queue.peek? = s.view.next? := by
  rw [s.queue.peek?_eq_argmin_key, Timeline.next?, Timeline.earliest_eq_argmin]
  rfl

/-- Taking the head off a synchronised scheduler and moving its clock up to the head's time is
what the timeline does before it fires the unit. -/
theorem view_take {s : Scheduler} (hs : s.Synced) (u : UnitId) (due : Due) :
    (resetInterval { s with queue := (s.queue.erase u).2, time := max s.time due.time }).view =
      { s.view with pending := s.view.pending.filter (·.1 != u), now := max s.view.now due.time } := by
  simp only [view, gtime_resetInterval, gtime_eq_time_of_synced hs]
  rfl

/-- The loop that fires due units, from a synchronised scheduler, is the timeline's. -/
theorem view_fireDue (h : UnitHandler σ) (fuel : Nat) (st : σ) {s : Scheduler} (hs : s.Synced) :
    viewResult (fireDue (handlerReaction h) fuel st s) = s.view.fireDue h fuel st := by
  induction fuel generalizing st s with
  | zero => rfl
  | succ fuel ih =>
    rw [fireDue, Timeline.fireDue, KeyedQueue.pop]
    cases hn : s.view.next? with
    | none =>
      rw [peek?_eq_next?, hn]
      rfl
    | some e =>
      obtain ⟨u, due⟩ := e
      rw [peek?_eq_next?, hn]
      simp only
      -- the scheduler the unit sees, and its timeline
      set s₁ := resetInterval { s with queue := (s.queue.erase u).2, time := max s.time due.time }
        with hs₁
      set t₁ : Timeline :=
        { s.view with pending := s.view.pending.filter (·.1 != u), now := max s.view.now due.time }
        with ht₁
      have hv₁ : s₁.view = t₁ := view_take hs u due
      rw [handlerReaction_apply, hv₁]
      rcases hcall : h u st t₁ with ⟨r, st', calls⟩
      -- after the unit's calls
      have hsync : (s₁.performAll calls).Synced := (synced_resetInterval _).performAll calls
      have hv₂ : (s₁.performAll calls).view = t₁.performAll calls := by
        rw [view_performAll, hv₁]
      cases r with
      | error e => simp only [viewResult, hv₂]
      | ok v =>
        cases v
        have hstop : (s₁.performAll calls).stopRequested = (t₁.performAll calls).stopRequested := by
          rw [← hv₂]
          rfl
        have htime : (s₁.performAll calls).time = (t₁.performAll calls).now := by
          rw [← hv₂, ← gtime_eq_now, gtime_eq_time_of_synced hsync]
        simp only [hstop]
        split
        · simp only [viewResult, hv₂]
        · rw [peek?_eq_next?, hv₂]
          rcases (t₁.performAll calls).next? with _ | ⟨u₂, next⟩
          · simp only [viewResult, hv₂]
          · simp only [htime]
            split
            · rw [← hv₂]
              exact ih st' hsync
            · simp only [viewResult, hv₂]

theorem view_updateTime (s : Scheduler) : s.updateTime.view = s.view := by
  simp only [view, gtime_updateTime]
  rfl

/-- An event is the timeline's event. -/
theorem view_processEvent (h : UnitHandler σ) (extra : Nat) (st : σ) (s : Scheduler) :
    viewResult (s.processEvent (handlerReaction h) extra st) = s.view.processEvent h extra st := by
  have hstop : s.view.stopRequested = s.stopRequested := rfl
  unfold processEvent Timeline.processEvent
  rw [hstop]
  split
  · rfl
  · have hempty : s.updateTime.queue.isEmpty = s.view.pending.isEmpty := rfl
    dsimp only
    rw [hempty]
    split
    · -- nothing queued: the countdown is set to the fixed wait from the current time
      simp only [viewResult, view, gtime_resetInterval, updateTime_time, resetInterval_config,
        resetInterval_names, resetInterval_queue, resetInterval_nextSeq,
        resetInterval_stopRequested, updateTime_config, updateTime_names, updateTime_queue,
        updateTime_nextSeq, updateTime_stopRequested]
    · have hfire := view_fireDue h (s.updateTime.queue.size + extra) st (synced_updateTime s)
      rw [view_updateTime] at hfire
      exact hfire

/-- One request, answered by the scheduler, is answered by its timeline. -/
theorem view_serve (h : UnitHandler σ) (r : Request) (st : σ) (s : Scheduler)
    (hr : Request.unsaturating s r = true) :
    viewResult (s.serve h r st) = s.view.serve h r st := by
  cases r with
  | call c =>
    cases c
    case register name => simp only [serve, Timeline.serve, viewResult, register_eq, view_register]
    all_goals simp only [serve, Timeline.serve, viewResult, view_perform]
  | consume n =>
    have hn : clampDelay (s.interval - n) = s.interval - n := by
      simpa [Request.unsaturating] using hr
    simp only [serve, Timeline.serve, viewResult, view_consume hn]
  | processEvent extra =>
    have he := view_processEvent h extra st s
    simp only [serve, Timeline.serve]
    rw [← he]
    rfl
  | gtime => rfl
  | isActive u => simp only [serve, Timeline.serve, viewResult, isActive_eq_isPending]
  | activateTime u => simp only [serve, Timeline.serve, viewResult, activateTime_eq]

end Scheduler

/-! ## At most one activation per unit -/

namespace Timeline

variable {σ : Type} {t : Timeline}

/-- No unit has two pending activations. -/
def OnePerUnit (t : Timeline) : Prop := (t.pending.map (·.1)).Nodup

theorem onePerUnit_of_pending_sublist {t' : Timeline} (ht : t.OnePerUnit)
    (hs : t'.pending.Sublist t.pending) : t'.OnePerUnit :=
  (hs.map _).nodup ht

theorem OnePerUnit.activate (ht : t.OnePerUnit) (u : UnitId) (d : Int) :
    (t.activate u d).OnePerUnit := by
  unfold Timeline.activate
  split
  · exact ht
  · rename_i hp
    -- an idle unit has no activation the new one could repeat
    have hfresh : ∀ e ∈ t.pending, e.1 ≠ u := by
      intro e he heu
      exact hp (List.any_eq_true.mpr ⟨e, he, by simp [heu]⟩)
    rw [OnePerUnit, List.map_append, List.nodup_append]
    refine ⟨ht, by simp, ?_⟩
    intro a ha b hb
    simp only [List.map_cons, List.map_nil, List.mem_singleton] at hb
    subst hb
    obtain ⟨e, he, rfl⟩ := List.mem_map.mp ha
    exact hfresh e he

theorem OnePerUnit.cancel (ht : t.OnePerUnit) (u : UnitId) : (t.cancel u).OnePerUnit :=
  onePerUnit_of_pending_sublist ht List.filter_sublist

theorem OnePerUnit.perform (ht : t.OnePerUnit) (c : Call) : (t.perform c).OnePerUnit := by
  cases c with
  | register name => exact ht
  | activate u d => exact ht.activate u d
  | activateAbs u d => exact (ht.cancel u).activate u d
  | activateAfter u usecs => exact ht.activate u _
  | cancel u => exact ht.cancel u
  | requestStop => exact ht

theorem OnePerUnit.performAll (ht : t.OnePerUnit) (calls : List Call) :
    (t.performAll calls).OnePerUnit := by
  induction calls generalizing t with
  | nil => exact ht
  | cons c calls ih =>
    rw [performAll, List.foldl_cons, ← performAll]
    exact ih (ht.perform c)

theorem OnePerUnit.fireDue (h : UnitHandler σ) (fuel : Nat) (st : σ) (ht : t.OnePerUnit) :
    (t.fireDue h fuel st).2.2.OnePerUnit := by
  induction fuel generalizing st t with
  | zero => exact ht
  | succ fuel ih =>
    rw [Timeline.fireDue]
    rcases t.next? with _ | ⟨u, due⟩
    · exact ht
    · -- the unit taken off, then its calls
      have ht₁ : ({ t with pending := t.pending.filter (·.1 != u), now := max t.now due.time } :
          Timeline).OnePerUnit :=
        onePerUnit_of_pending_sublist ht List.filter_sublist
      dsimp only
      rcases h u st _ with ⟨_ | _, st', calls⟩
      · exact ht₁.performAll calls
      · have ht₂ := ht₁.performAll calls
        dsimp only
        split
        · exact ht₂
        · rcases (Timeline.performAll _ calls).next? with _ | ⟨_, next⟩
          · exact ht₂
          · dsimp only
            split
            · exact ih st' ht₂
            · exact ht₂

theorem OnePerUnit.serve (h : UnitHandler σ) (r : Request) (st : σ) (ht : t.OnePerUnit) :
    (t.serve h r st).2.2.OnePerUnit := by
  cases r with
  | call c =>
    cases c
    case register name => exact ht
    all_goals exact ht.perform _
  | consume n => exact ht
  | processEvent extra =>
    simp only [Timeline.serve, Timeline.processEvent]
    split
    · exact ht
    · split
      · exact ht
      · exact ht.fireDue h _ st
  | gtime => exact ht
  | isActive u => exact ht
  | activateTime u => exact ht

theorem OnePerUnit.serveAll (h : UnitHandler σ) (reqs : List Request) (st : σ)
    (ht : t.OnePerUnit) : (t.serveAll h reqs st).2.2.OnePerUnit := by
  induction reqs generalizing st t with
  | nil => exact ht
  | cons r rs ih =>
    have hr := ht.serve h r st
    simp only [Timeline.serveAll]
    exact ih _ hr

end Timeline

namespace Scheduler

variable {σ : Type}

/-- A run of requests, answered by the scheduler, is answered by its timeline, as long as no
consume saturates the countdown. -/
theorem viewResult_serveAll (h : UnitHandler σ) :
    ∀ (reqs : List Request) (st : σ) (s : Scheduler), s.unsaturated h reqs st = true →
      viewResult (s.serveAll h reqs st) = s.view.serveAll h reqs st
  | [], _, _, _ => rfl
  | r :: rs, st, s, hu => by
    simp only [unsaturated, Bool.and_eq_true] at hu
    obtain ⟨hr, hrs⟩ := hu
    have hstep := view_serve h r st s hr
    rcases hsv : s.serve h r st with ⟨a, st', s'⟩
    rw [hsv] at hstep hrs
    have hrun := viewResult_serveAll h rs st' s' hrs
    simp only [serveAll, Timeline.serveAll, hsv, ← hstep]
    simp only [viewResult] at hrun ⊢
    rw [← hrun]

/-- The scheduler is its timeline: every run of register, activate, activate-absolute,
activate-after, cancel, stop, consume and event requests, with units that only make those calls,
gets from the scheduler the answers its timeline gives, and leaves the scheduler standing for
the timeline's end state, provided no consume saturates the countdown; the timeline keeps at
most one pending activation per unit. -/
theorem serveAll_refines_timeline (h : UnitHandler σ) (reqs : List Request) (st : σ)
    (s : Scheduler) (hu : s.unsaturated h reqs st = true) :
    viewResult (s.serveAll h reqs st) = s.view.serveAll h reqs st ∧
      (s.view.OnePerUnit → (s.serveAll h reqs st).2.2.view.OnePerUnit) := by
  have hrun := viewResult_serveAll h reqs st s hu
  refine ⟨hrun, fun ht => ?_⟩
  have hend : (s.serveAll h reqs st).2.2.view = (s.view.serveAll h reqs st).2.2 := by
    rw [← hrun]
    rfl
  rw [hend]
  exact ht.serveAll h reqs st

/-- A unit activated for five instruction times fires once its time is consumed, and
activates itself again for two more on its first firing. -/
theorem serveAll_refines_timeline_of_ticker :
    let h : UnitHandler Nat := fun u n _ => (.ok (), n + 1, if n = 0 then [.activate u 2] else [])
    let reqs : List Request := [.call (.register "tick"), .call (.activate ⟨0⟩ 5), .consume 5,
      .processEvent 1, .activateTime ⟨0⟩, .consume 2, .processEvent 1, .gtime]
    (Scheduler.new {}).unsaturated h reqs 0 = true ∧
      (viewResult ((Scheduler.new {}).serveAll h reqs 0) =
          (Scheduler.new {}).view.serveAll h reqs 0 ∧
        ((Scheduler.new {}).view.OnePerUnit →
          ((Scheduler.new {}).serveAll h reqs 0).2.2.view.OnePerUnit)) := by
  intro h reqs
  exact ⟨by decide, serveAll_refines_timeline h reqs 0 _ (by decide)⟩

end Scheduler

end SimControl
