import SimControl.Proofs.SchedulerTimeline
import SimControl.Proofs.SchedulerClock
/-!
# The queue report

SHOW QUEUE lists the queued units (`Scheduler.queueEntries`): a copy of the queue's entries
sorted by due time and then by activation, each with the time it has left and its difference
from the entry before. Firing does not read that copy; it takes the head of the queue itself,
the entry of least due time and number, again and again.

The two orders agree because no two activations share a number: each activation takes the
next number and numbers are never handed out twice (`Scheduler.Numbered`). The sorted
arrangement of the entries is then the only strictly increasing one, and taking the head of the
queue takes its first entry (`earliest_eq_head?`, `mergeSort_filter_of_eq_cons`). So successive
events whose units make no calls fire the queued units in the order of the report
(`queue_report_in_firing_order`).

* `Scheduler.Numbered.serveAll`: every run of requests from a new scheduler keeps the units and
  the numbers of its queue apart.
* `Timeline.fired_serveAll_processEvent`: events fire a timeline's activations in sorted order.
* `Scheduler.sum_delta_entriesFrom`: the running sum of the report's differences is the time an
  entry has left.
-/

namespace SimControl

/-! ## Sorting by due time and number -/

theorem Due.key_injective : Function.Injective Due.key := by
  intro a b h
  simp only [Due.key, toLex_inj, Prod.mk.injEq] at h
  obtain ⟨ht, hs⟩ := h
  cases a
  cases b
  simp only at ht hs
  rw [ht, hs]

theorem Due.lt_asymm {a b : Due} (h : a < b) : ¬b < a := by
  rw [Due.lt_iff_key_lt] at h ⊢
  exact not_lt_of_gt h

/-- The report's comparison is the order of keys. -/
theorem dueBefore_eq_true_iff (a b : UnitId × Due) :
    Scheduler.dueBefore a b = true ↔ a.2.key ≤ b.2.key := by
  rw [Scheduler.dueBefore, Bool.or_eq_true, decide_eq_true_iff, beq_iff_eq, Due.lt_iff_key_lt,
    le_iff_lt_or_eq]
  exact or_congr Iff.rfl ⟨fun h => h ▸ rfl, fun h => Due.key_injective h⟩

theorem pairwise_mergeSort_dueBefore (l : List (UnitId × Due)) :
    (l.mergeSort Scheduler.dueBefore).Pairwise (fun a b => a.2.key ≤ b.2.key) := by
  have htrans : ∀ a b c : UnitId × Due, Scheduler.dueBefore a b = true →
      Scheduler.dueBefore b c = true → Scheduler.dueBefore a c = true := by
    intro a b c hab hbc
    rw [dueBefore_eq_true_iff] at hab hbc ⊢
    exact le_trans hab hbc
  have htotal : ∀ a b : UnitId × Due,
      (Scheduler.dueBefore a b || Scheduler.dueBefore b a) = true := by
    intro a b
    rw [Bool.or_eq_true, dueBefore_eq_true_iff, dueBefore_eq_true_iff]
    exact le_total _ _
  exact (List.pairwise_mergeSort htrans htotal l).imp fun h => (dueBefore_eq_true_iff _ _).1 h

/-- Queued activations with their units and their numbers apart. -/
def Apart (l : List (UnitId × Due)) : Prop := (l.map (·.1)).Nodup ∧ (l.map (·.2.seq)).Nodup

theorem Apart.sublist {l l' : List (UnitId × Due)} (h : Apart l) (hs : l'.Sublist l) : Apart l' :=
  ⟨(hs.map _).nodup h.1, (hs.map _).nodup h.2⟩

/-- With the numbers apart, the sorted entries strictly increase. -/
theorem pairwise_lt_mergeSort {l : List (UnitId × Due)} (hl : (l.map (·.2.seq)).Nodup) :
    (l.mergeSort Scheduler.dueBefore).Pairwise (fun a b => a.2 < b.2) := by
  have hnd : ((l.mergeSort Scheduler.dueBefore).map (·.2.seq)).Nodup :=
    ((List.mergeSort_perm l _).map _).nodup_iff.2 hl
  refine (pairwise_mergeSort_dueBefore l).imp₂ (fun a b hle hne => ?_) (List.pairwise_map.1 hnd)
  rw [Due.lt_iff_key_lt]
  refine lt_of_le_of_ne hle fun hkey => hne ?_
  rw [Due.key_injective hkey]

/-- With the numbers apart, sorting has one answer: the strictly increasing arrangement. -/
theorem mergeSort_eq_of_perm {l m : List (UnitId × Due)} (hl : (l.map (·.2.seq)).Nodup)
    (hm : m.Perm l) (hs : m.Pairwise (fun a b => a.2 < b.2)) :
    l.mergeSort Scheduler.dueBefore = m :=
  List.Perm.eq_of_pairwise (fun _ _ _ _ hab hba => absurd hab (Due.lt_asymm hba))
    (pairwise_lt_mergeSort hl) hs ((List.mergeSort_perm l _).trans hm.symm)

/-- The activation a timeline fires next is the first of its sorted activations. -/
theorem earliest_eq_head? {l : List (UnitId × Due)} (hl : (l.map (·.2.seq)).Nodup) :
    Timeline.earliest l = (l.mergeSort Scheduler.dueBefore).head? := by
  rw [Timeline.earliest_eq_argmin]
  have hperm := List.mergeSort_perm l Scheduler.dueBefore
  have hsorted := pairwise_lt_mergeSort hl
  cases hs : l.mergeSort Scheduler.dueBefore with
  | nil =>
    rw [hs] at hperm
    rw [hperm.symm.eq_nil]
    rfl
  | cons e rest =>
    rw [hs] at hperm hsorted
    have he : e ∈ l := hperm.subset List.mem_cons_self
    cases hm : l.argmin (·.2.key) with
    | none =>
      rw [List.argmin_eq_none] at hm
      rw [hm] at he
      cases he
    | some m =>
      -- the least key is the first sorted entry's: any later one has a greater key
      have hnlt := List.not_lt_of_mem_argmin he hm
      rcases List.mem_cons.1 (hperm.symm.subset (List.argmin_mem hm)) with rfl | hlater
      · rfl
      · exact absurd ((Due.lt_iff_key_lt _ _).1 (List.rel_of_pairwise_cons hsorted hlater)) hnlt

/-- Taking the unit of the first sorted entry off leaves the rest of the sorted entries. -/
theorem mergeSort_filter_of_eq_cons {l : List (UnitId × Due)} (hl : Apart l)
    {e : UnitId × Due} {rest : List (UnitId × Due)} (hs : l.mergeSort Scheduler.dueBefore = e :: rest) :
    (l.filter (·.1 != e.1)).mergeSort Scheduler.dueBefore = rest := by
  have hperm := List.mergeSort_perm l Scheduler.dueBefore
  have hsorted := pairwise_lt_mergeSort hl.2
  rw [hs] at hperm hsorted
  have hnd : (e.1 :: rest.map (·.1)).Nodup := by
    have := (hperm.map (·.1)).nodup_iff.2 hl.1
    rwa [List.map_cons] at this
  -- the first entry's unit stands nowhere else
  have hrest : (e :: rest).filter (·.1 != e.1) = rest := by
    rw [List.filter_cons_of_neg (by simp), List.filter_eq_self]
    intro x hx
    have hne : x.1 ≠ e.1 := fun h => (List.nodup_cons.1 hnd).1 (h ▸ List.mem_map_of_mem hx)
    simpa using hne
  have hsub := (hl.sublist (List.filter_sublist (p := (·.1 != e.1)))).2
  refine mergeSort_eq_of_perm hsub ?_ hsorted.of_cons
  rw [← hrest]
  exact hperm.filter _

/-- The units of activations in the order they fire. -/
def sortedUnits (l : List (UnitId × Due)) : List UnitId := (l.mergeSort Scheduler.dueBefore).map (·.1)

/-! ## Firing a timeline -/

/-- A unit handler that makes no call and notes each unit it is given. -/
def noteFiring : UnitHandler (List UnitId) := fun u fired _ => (.ok (), fired ++ [u], [])

namespace Timeline

variable {t : Timeline}

/-- Taking the next activation off the timeline takes the first sorted unit off. -/
theorem take_next {u : UnitId} {due : Due} (ht : Apart t.pending) (hn : t.next? = some (u, due)) :
    u :: sortedUnits (t.pending.filter (·.1 != u)) = sortedUnits t.pending ∧
      (t.pending.filter (·.1 != u)).length < t.pending.length := by
  rw [next?, earliest_eq_head? ht.2] at hn
  cases hs : t.pending.mergeSort Scheduler.dueBefore with
  | nil => rw [hs] at hn; cases hn
  | cons e rest =>
    rw [hs, List.head?_cons, Option.some.injEq] at hn
    subst hn
    have hrest := mergeSort_filter_of_eq_cons ht hs
    have hmem : (u, due) ∈ t.pending :=
      (List.mergeSort_perm t.pending _).subset (hs ▸ List.mem_cons_self)
    refine ⟨by rw [sortedUnits, sortedUnits, hrest, hs]; rfl, ?_⟩
    exact List.length_filter_lt_length_iff_exists.2 ⟨(u, due), hmem, by simp⟩

/-- One round of the loop, with a unit that makes no calls: the loop stops with the unit fired,
or goes on from the timeline with the unit taken off. -/
theorem fireDue_noteFiring_succ {u : UnitId} {due : Due} (hn : t.next? = some (u, due))
    (fuel : Nat) (fired : List UnitId) :
    let t₁ : Timeline := { t with pending := t.pending.filter (·.1 != u), now := max t.now due.time }
    t.fireDue noteFiring (fuel + 1) fired = (.ok (), fired ++ [u], t₁) ∨
      t.fireDue noteFiring (fuel + 1) fired = t₁.fireDue noteFiring fuel (fired ++ [u]) := by
  simp only [fireDue, hn, noteFiring, performAll, List.foldl_nil]
  -- the stop flag is read off the timeline the unit left, which is `t₁`
  rcases Bool.eq_false_or_eq_true t.stopRequested with hstop | hstop
  · simp only [hstop, ↓reduceIte, true_or]
  · simp only [hstop, Bool.false_eq_true, ↓reduceIte, next?]
    rcases Timeline.earliest (t.pending.filter (·.1 != u)) with _ | ⟨_, next⟩
    · exact .inl rfl
    · dsimp only
      split
      · exact .inr rfl
      · exact .inl rfl

/-- The loop of an event with units that make no calls fires the timeline's activations in
sorted order, at least one when it may fire one. -/
theorem fireDue_noteFiring (fuel : Nat) (fired : List UnitId) (ht : Apart t.pending) :
    (t.fireDue noteFiring fuel fired).2.1 ++ sortedUnits (t.fireDue noteFiring fuel fired).2.2.pending =
        fired ++ sortedUnits t.pending ∧
      (t.fireDue noteFiring fuel fired).2.2.pending.Sublist t.pending ∧
      (t.fireDue noteFiring fuel fired).2.2.stopRequested = t.stopRequested ∧
      (0 < fuel → t.pending ≠ [] →
        (t.fireDue noteFiring fuel fired).2.2.pending.length < t.pending.length) := by
  induction fuel generalizing fired t with
  | zero => exact ⟨rfl, List.Sublist.refl _, rfl, fun h => absurd h (Nat.lt_irrefl 0)⟩
  | succ fuel ih =>
    cases hn : t.next? with
    | none =>
      -- nothing is pending
      have hnil : t.pending = [] := by
        rw [next?, Timeline.earliest_eq_argmin, List.argmin_eq_none] at hn
        exact hn
      rw [fireDue, hn]
      exact ⟨rfl, List.Sublist.refl _, rfl, fun _ h => absurd hnil h⟩
    | some e =>
      obtain ⟨u, due⟩ := e
      obtain ⟨hsorted, hlt⟩ := take_next ht hn
      have hsub₁ : (t.pending.filter (·.1 != u)).Sublist t.pending := List.filter_sublist
      have hfired : fired ++ [u] ++ sortedUnits (t.pending.filter (·.1 != u)) =
          fired ++ sortedUnits t.pending := by
        rw [← hsorted, List.append_assoc, List.singleton_append]
      rcases fireDue_noteFiring_succ hn fuel fired with hres | hres <;> rw [hres]
      · exact ⟨hfired, hsub₁, rfl, fun _ _ => hlt⟩
      · -- the loop goes on from the timeline with the unit taken off
        obtain ⟨h₁, h₂, h₃, -⟩ :=
          ih (t := { t with pending := t.pending.filter (·.1 != u), now := max t.now due.time })
            (fired ++ [u]) (ht.sublist hsub₁)
        exact ⟨h₁.trans hfired, h₂.trans hsub₁, h₃, fun _ _ => lt_of_le_of_lt h₂.length_le hlt⟩

/-- An event with units that make no calls: a stop asked for is dropped and nothing fires, or
the due activations fire in sorted order; either way one event fewer is needed to empty the
timeline. -/
theorem processEvent_noteFiring (fired : List UnitId) (ht : Apart t.pending) :
    (t.processEvent noteFiring 0 fired).2.1 ++ sortedUnits (t.processEvent noteFiring 0 fired).2.2.pending =
        fired ++ sortedUnits t.pending ∧
      Apart (t.processEvent noteFiring 0 fired).2.2.pending ∧
      (t.processEvent noteFiring 0 fired).2.2.stopRequested = false ∧
      (t.processEvent noteFiring 0 fired).2.2.pending.length +
          (t.processEvent noteFiring 0 fired).2.2.stopRequested.toNat ≤
        t.pending.length + t.stopRequested.toNat - 1 := by
  unfold processEvent
  by_cases hstop : t.stopRequested = true
  · rw [if_pos hstop, hstop]
    exact ⟨rfl, ht, rfl, by simp⟩
  · rw [if_neg hstop]
    have hfalse : t.stopRequested = false := by simpa using hstop
    by_cases hempty : t.pending.isEmpty = true
    · rw [if_pos hempty, hfalse]
      rw [List.isEmpty_iff] at hempty
      exact ⟨rfl, ht, rfl, by simp [hempty]⟩
    · rw [if_neg hempty, Nat.add_zero]
      have hne : t.pending ≠ [] := by simpa using hempty
      obtain ⟨h₁, h₂, h₃, h₄⟩ := fireDue_noteFiring t.pending.length fired ht
      have hlt := h₄ (by simpa [List.length_pos_iff] using hne) hne
      rw [hfalse] at h₃ ⊢
      refine ⟨h₁, ht.sublist h₂, h₃, ?_⟩
      rw [h₃]
      simp only [Bool.toNat_false, Nat.add_zero]
      omega

/-- Enough successive events, with units that make no calls, fire every activation of a
timeline, in sorted order. -/
theorem fired_serveAll_processEvent (n : Nat) (fired : List UnitId) (ht : Apart t.pending)
    (hn : t.pending.length + t.stopRequested.toNat ≤ n) :
    (t.serveAll noteFiring (List.replicate n (.processEvent 0)) fired).2.1 =
      fired ++ sortedUnits t.pending := by
  induction n generalizing fired t with
  | zero =>
    have hnil : t.pending = [] := List.eq_nil_of_length_eq_zero (by omega)
    rw [hnil, List.replicate_zero, serveAll, sortedUnits, List.mergeSort_nil, List.map_nil,
      List.append_nil]
  | succ n ih =>
    obtain ⟨h₁, h₂, -, h₄⟩ := processEvent_noteFiring fired ht
    rw [List.replicate_succ]
    simp only [serveAll, serve]
    rw [ih _ h₂ (by omega), h₁]

end Timeline

/-! ## The scheduler's numbering -/

namespace Scheduler

variable {σ : Type} {s : Scheduler}

/-- The queue's units and activation numbers are apart, and every number is below the one the
next activation gets. -/
structure Numbered (s : Scheduler) : Prop where
  apart : Apart s.queue.entries
  seq_lt : ∀ e ∈ s.queue.entries, e.2.seq < s.nextSeq

/-- Dropping entries, and handing out no number again, keeps the numbering. -/
theorem Numbered.of_sublist {s' : Scheduler} (hs : s.Numbered)
    (hq : s'.queue.entries.Sublist s.queue.entries) (hn : s.nextSeq ≤ s'.nextSeq) : s'.Numbered where
  apart := hs.apart.sublist hq
  seq_lt e he := lt_of_lt_of_le (hs.seq_lt e (hq.subset he)) hn

theorem numbered_new (c : Config) : (Scheduler.new c).Numbered where
  apart := ⟨List.nodup_nil, List.nodup_nil⟩
  seq_lt e he := by cases he

theorem Numbered.activate (hs : s.Numbered) (u : UnitId) (d : Int) : (s.activate u d).Numbered := by
  cases ha : s.isActive u
  · -- the unit is idle and the new entry takes the next number, which no entry has
    have hu : ∀ e ∈ s.queue.entries, e.1 ≠ u := KeyedQueue.contains_eq_false_iff.mp ha
    rw [activate_of_not_isActive ha]
    refine ⟨⟨?_, ?_⟩, ?_⟩
    · show ((s.queue.entries ++ [(u, (⟨s.gtime + d, s.nextSeq⟩ : Due))]).map (·.1)).Nodup
      rw [List.map_append, List.nodup_append]
      refine ⟨hs.apart.1, by simp, ?_⟩
      intro a ha b hb
      simp only [List.map_cons, List.map_nil, List.mem_singleton] at hb
      obtain ⟨e, he, rfl⟩ := List.mem_map.mp ha
      rw [hb]
      exact hu e he
    · show ((s.queue.entries ++ [(u, (⟨s.gtime + d, s.nextSeq⟩ : Due))]).map (·.2.seq)).Nodup
      rw [List.map_append, List.nodup_append]
      refine ⟨hs.apart.2, by simp, ?_⟩
      intro a ha b hb
      simp only [List.map_cons, List.map_nil, List.mem_singleton] at hb
      obtain ⟨e, he, rfl⟩ := List.mem_map.mp ha
      rw [hb]
      exact Nat.ne_of_lt (hs.seq_lt e he)
    · intro e he
      show e.2.seq < s.nextSeq + 1
      rcases List.mem_append.mp he with he | he
      · exact Nat.lt_succ_of_lt (hs.seq_lt e he)
      · rw [List.mem_singleton.mp he]
        exact Nat.lt_succ_self _
  · rw [activate_of_isActive ha]
    exact hs

theorem nextSeq_cancel (s : Scheduler) (u : UnitId) : (s.cancel u).nextSeq = s.nextSeq := by
  cases h : s.isActive u
  · rw [cancel_of_not_isActive h]
  · rw [cancel_of_isActive h]
    rfl

theorem Numbered.cancel (hs : s.Numbered) (u : UnitId) : (s.cancel u).Numbered := by
  refine hs.of_sublist ?_ (le_of_eq (nextSeq_cancel s u).symm)
  rw [queue_cancel]
  exact List.filter_sublist

theorem Numbered.perform (hs : s.Numbered) (c : Call) : (s.perform c).Numbered := by
  cases c with
  | register name => exact hs.of_sublist (List.Sublist.refl _) le_rfl
  | activate u d => exact hs.activate u d
  | activateAbs u d => exact (hs.cancel u).activate u d
  | activateAfter u usecs => exact hs.activate u _
  | cancel u => exact hs.cancel u
  | requestStop => exact hs.of_sublist (List.Sublist.refl _) le_rfl

theorem Numbered.performAll (hs : s.Numbered) (calls : List Call) :
    (s.performAll calls).Numbered := by
  induction calls generalizing s with
  | nil => exact hs
  | cons c calls ih =>
    rw [performAll, List.foldl_cons, ← performAll]
    exact ih (hs.perform c)

theorem Numbered.processEvent (hs : s.Numbered) (h : UnitHandler σ) (extra : Nat) (st : σ) :
    (s.processEvent (handlerReaction h) extra st).2.2.Numbered := by
  unfold Scheduler.processEvent
  split
  · exact hs.of_sublist (List.Sublist.refl _) le_rfl
  · dsimp only
    split
    · exact hs.of_sublist (List.Sublist.refl _) le_rfl
    · -- taking the head off drops an entry, and the units only make calls
      exact fireDue_induction Numbered (handlerReaction h)
        (fun x u _ hx _ => hx.of_sublist List.filter_sublist le_rfl)
        (fun u st x hx => by
          rw [handlerReaction_apply]
          exact hx.performAll _)
        _ st _ (hs.of_sublist (List.Sublist.refl _) le_rfl)

theorem Numbered.serve (hs : s.Numbered) (h : UnitHandler σ) (r : Request) (st : σ) :
    (s.serve h r st).2.2.Numbered := by
  cases r with
  | call c =>
    cases c with
    | register name => exact hs.perform (.register name)
    | activate u d => exact hs.perform (.activate u d)
    | activateAbs u d => exact hs.perform (.activateAbs u d)
    | activateAfter u usecs => exact hs.perform (.activateAfter u usecs)
    | cancel u => exact hs.perform (.cancel u)
    | requestStop => exact hs.perform .requestStop
  | consume n => exact hs.of_sublist (List.Sublist.refl _) le_rfl
  | processEvent extra => exact hs.processEvent h extra st
  | gtime => exact hs
  | isActive u => exact hs
  | activateTime u => exact hs

/-- Every run of requests keeps the numbering. -/
theorem Numbered.serveAll (hs : s.Numbered) (h : UnitHandler σ) (reqs : List Request) (st : σ) :
    (s.serveAll h reqs st).2.2.Numbered := by
  induction reqs generalizing st s with
  | nil => exact hs
  | cons r rs ih =>
    have hr := hs.serve h r st
    simp only [serveAll]
    exact ih hr _

/-! ## The report -/

theorem map_unit_entriesFrom (s : Scheduler) (now prev : Int) (l : List (UnitId × Due)) :
    (s.entriesFrom now prev l).map (·.unit) = l.map (·.1) := by
  induction l generalizing prev with
  | nil => rfl
  | cons e l ih => simp only [entriesFrom, List.map_cons, ih]

theorem map_remaining_entriesFrom (s : Scheduler) (now prev : Int) (l : List (UnitId × Due)) :
    (s.entriesFrom now prev l).map (·.remaining) = l.map (·.2.time - now) := by
  induction l generalizing prev with
  | nil => rfl
  | cons e l ih => simp only [entriesFrom, List.map_cons, ih]

/-- Each entry's difference is measured from the one before, so the differences up to an entry
add up to its time left, less the time the first is measured from. -/
theorem sum_delta_entriesFrom (s : Scheduler) (now : Int) :
    ∀ (prev : Int) (l : List (UnitId × Due)) (k : Nat) (hk : k < (s.entriesFrom now prev l).length),
      (((s.entriesFrom now prev l).take (k + 1)).map (·.delta)).sum + prev =
        (s.entriesFrom now prev l)[k].remaining
  | _, [], _, hk => absurd hk (Nat.not_lt_zero _)
  | prev, (u, d) :: l, 0, _ => by
    simp only [entriesFrom, List.take_succ_cons, List.take_zero, List.map_cons, List.map_nil,
      List.sum_cons, List.sum_nil, List.getElem_cons_zero]
    omega
  | prev, (u, d) :: l, k + 1, hk => by
    have hk' : k < (s.entriesFrom now (d.time - now) l).length := by
      simpa [entriesFrom] using hk
    have ih := sum_delta_entriesFrom s now (d.time - now) l k hk'
    simp only [entriesFrom, List.take_succ_cons, List.map_cons, List.sum_cons,
      List.getElem_cons_succ]
    omega

theorem queueEntries_units (s : Scheduler) :
    s.queueEntries.map (·.unit) = sortedUnits s.queue.entries :=
  map_unit_entriesFrom s _ _ _

/-- The requests of a run that are only events leave the countdown unsaturated. -/
theorem unsaturated_replicate_processEvent (h : UnitHandler σ) (extra : Nat) :
    ∀ (n : Nat) (st : σ) (s : Scheduler),
      s.unsaturated h (List.replicate n (.processEvent extra)) st = true
  | 0, _, _ => rfl
  | n + 1, st, s => by
    rw [List.replicate_succ]
    simp only [unsaturated, Request.unsaturating, Bool.true_and]
    exact unsaturated_replicate_processEvent h extra n _ _

/-- Enough successive events, with units that make no calls, fire the queued units in the
order of the report. -/
theorem Numbered.fired_serveAll (hs : s.Numbered) {n : Nat} (hn : s.queue.size < n) :
    (s.serveAll noteFiring (List.replicate n (.processEvent 0)) []).2.1 =
      s.queueEntries.map (·.unit) := by
  have hview := viewResult_serveAll noteFiring _ [] s
    (unsaturated_replicate_processEvent noteFiring 0 n [] s)
  have hfired : (s.serveAll noteFiring (List.replicate n (.processEvent 0)) []).2.1 =
      (s.view.serveAll noteFiring (List.replicate n (.processEvent 0)) []).2.1 :=
    congrArg (·.2.1) hview
  have hload : s.view.pending.length + s.view.stopRequested.toNat ≤ n := by
    have : s.stopRequested.toNat ≤ 1 := Bool.toNat_le _
    show s.queue.size + s.stopRequested.toNat ≤ n
    omega
  rw [hfired, Timeline.fired_serveAll_processEvent n [] hs.apart hload, List.nil_append,
    queueEntries_units]
  rfl

/-- The report of a scheduler whose activations are numbered apart: the queued entries once
each, strictly increasing in due time and activation, each with the time it has left; running
sums of the differences; and the order in which events fire them. -/
theorem Numbered.queueEntries_spec (hs : s.Numbered) :
    (∃ l : List (UnitId × Due), l.Perm s.queue.entries ∧ (l.map (·.1)).Nodup ∧
        l.Pairwise (fun a b => a.2 < b.2) ∧ s.queueEntries.map (·.unit) = l.map (·.1) ∧
        s.queueEntries.map (·.remaining) = l.map (·.2.time - s.gtime)) ∧
      (∀ k (hk : k < s.queueEntries.length),
        ((s.queueEntries.take (k + 1)).map (·.delta)).sum = s.queueEntries[k].remaining) ∧
      (∀ n, s.queue.size < n →
        (s.serveAll noteFiring (List.replicate n (.processEvent 0)) []).2.1 =
          s.queueEntries.map (·.unit)) := by
  have hperm := List.mergeSort_perm s.queue.entries dueBefore
  refine ⟨⟨_, hperm, (hperm.map _).nodup_iff.2 hs.apart.1, pairwise_lt_mergeSort hs.apart.2,
    queueEntries_units s, map_remaining_entriesFrom s _ _ _⟩, fun k hk => ?_,
    fun n hn => hs.fired_serveAll hn⟩
  have hsum := sum_delta_entriesFrom s s.gtime 0 _ k hk
  rw [Int.add_zero] at hsum
  exact hsum

end Scheduler

/-- The SHOW QUEUE report, for every scheduler reached from a new one by any run of requests
(register, activate, activate-absolute, activate-after, cancel, stop, consume and events whose
units make such calls): it lists every queued unit exactly once, in strictly increasing due
time and, among equal times, activation order; each entry's time left is its due time less the
current time, and the differences from the first entry up to any entry add up to its time left;
and successive events whose units make no calls fire the queued units in the order listed,
every one of them once there have been more events than queued units. -/
theorem queue_report_in_firing_order {σ : Type} (c : Config) (h : UnitHandler σ)
    (reqs : List Request) (st : σ) :
    let s := ((Scheduler.new c).serveAll h reqs st).2.2
    (∃ l : List (UnitId × Due), l.Perm s.queue.entries ∧ (l.map (·.1)).Nodup ∧
        l.Pairwise (fun a b => a.2 < b.2) ∧ s.queueEntries.map (·.unit) = l.map (·.1) ∧
        s.queueEntries.map (·.remaining) = l.map (·.2.time - s.gtime)) ∧
      (∀ k (hk : k < s.queueEntries.length),
        ((s.queueEntries.take (k + 1)).map (·.delta)).sum = s.queueEntries[k].remaining) ∧
      (∀ n, s.queue.size < n →
        (s.serveAll noteFiring (List.replicate n (.processEvent 0)) []).2.1 =
          s.queueEntries.map (·.unit)) := by
  intro s
  have hs : s.Numbered := (Scheduler.numbered_new c).serveAll h reqs st
  exact hs.queueEntries_spec

/-- Two units due at the same time: the one activated first is listed, and fires, first. -/
theorem queue_report_in_firing_order_of_tie :
    let reqs : List Request := [.call (.register "A"), .call (.register "B"),
      .call (.activate ⟨1⟩ 3), .consume 1, .call (.activate ⟨0⟩ 2)]
    let s := ((Scheduler.new {}).serveAll noteFiring reqs []).2.2
    s.queue.size < 3 ∧ s.queueEntries.map (·.unit) = [⟨1⟩, ⟨0⟩] := by
  intro reqs s
  have hfire := (queue_report_in_firing_order {} noteFiring reqs []).2.2 3 (by decide)
  exact ⟨by decide, hfire.symm.trans (by decide)⟩

end SimControl
