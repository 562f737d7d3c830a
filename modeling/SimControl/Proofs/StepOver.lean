import SimControl.Proofs.StepCount
import SimControl.Proofs.PlantedSweep
import SimControl.Proofs.ExpectWindow
/-!
# NEXT over a call

NEXT over a CALL plants a step-over breakpoint at the address after the call, runs the machine,
and sweeps step-over breakpoints away. The step-over record is dynamic, and while a dynamic
record exists every breakpoint test is widened by the dynamic types: the record answers any test
at its address, whether the machine is about to execute there, fetches from there, or reads or
writes there. Elsewhere the widening changes nothing, since no record of the operator's has a
dynamic type. So, where the operator has no breakpoint at the return address, the run with the
record goes in lockstep with the run without it until the machine first touches that address,
and stops there on the step-over record.

* `BreakTable.Planted`: a table with one record planted where the table it came from has none.
* `Bench.Machine.Clear`: a stretch of a run that does not touch an address.
* `Bench.Machine.run_planted_stops_at_touch`: the lockstep, and the stop at the first touch.
* `Session.next_over_call_stops_at_first_touch`: NEXT over a call stops before the first
  instruction that touches the return address, and sweeps the step-over record away.
* `Session.next_stops_at_read_of_return_address`: a callee that reads the return address stops
  NEXT at the read.
* `Session.next_over_call_returns`: NEXT over a call that returns without touching the return
  address reports the step done there.
-/

namespace SimControl

namespace BreakTypes

theorem intersects_comm (a b : BreakTypes) : a.intersects b = b.intersects a := by
  simp only [intersects, UInt32.and_comm a.bits b.bits]

/-- Widening a test by the dynamic types changes nothing for types with none of them. -/
theorem intersects_union_dynamic {a : BreakTypes} (ha : a.Unplanted) (t : BreakTypes) :
    a.intersects (t.union dynamic) = a.intersects t := by
  obtain ⟨hs, hu, -⟩ := ha
  rw [intersects_comm, union_intersects, intersects_comm dynamic, intersects_dynamic, hs, hu,
    intersects_comm, Bool.or_false, Bool.or_false]

/-- What a widened test matches of step-over types keeps them. -/
theorem union_dynamic_inter_intersects {a : BreakTypes} (ha : a.intersects stepOver = true)
    (t : BreakTypes) : ((t.union dynamic).inter a).intersects stepOver = true := by
  obtain ⟨i, hai, hsi, hm⟩ := intersects_eq_true_iff.mp ha
  have hdi : dynamic.bits.toBitVec.getLsbD i = true := by
    have h : dynamic = stepOver.union user := by decide
    rw [h]
    simp only [union, UInt32.toBitVec_or, BitVec.getLsbD_or, hsi, Bool.true_or]
  refine intersects_eq_true_iff.mpr ⟨i, ?_, hsi, hm⟩
  simp only [inter, union, UInt32.toBitVec_and, UInt32.toBitVec_or, BitVec.getLsbD_and,
    BitVec.getLsbD_or, hdi, hai, Bool.or_true, Bool.and_self]

end BreakTypes

namespace BreakTable

variable {b B : BreakTable} {r : Address} {R : BreakRecord}

/-- `B` is the table `b` with the record `R` planted at `r`, where `b` has none: `b` holds no
planted record, `R` is a step-over record that has never matched and fires at its first match,
every other address keeps its records, and the summary gains `R`'s types. -/
structure Planted (b : BreakTable) (r : Address) (R : BreakRecord) (B : BreakTable) : Prop where
  settled : b.Settled
  vacant : b.at? r = []
  at_self : B.at? r = [R]
  at_ne : ∀ a, a ≠ r → B.at? a = b.at? a
  summary : B.summary = b.summary.union (R.types.inter BreakTypes.temp.compl)
  stepOver : R.types.intersects BreakTypes.stepOver = true
  count_le : R.count ≤ 1
  unfired : ∀ space, R.firedAt space = none

/-- The planted record is dynamic, so every test on the table is widened. -/
theorem Planted.summary_dynamic (h : b.Planted r R B) :
    B.summary.intersects BreakTypes.dynamic = true := by
  have hR : R.types.intersects BreakTypes.dynamic = true := by
    rw [BreakTypes.intersects_dynamic, h.stepOver, Bool.true_or]
  rw [h.summary, BreakTypes.union_intersects,
    BreakTypes.inter_temp_compl_intersects (by decide) hR, Bool.or_true]

theorem Planted.summary_isEmpty (h : b.Planted r R B) : B.summary.isEmpty = false := by
  cases he : B.summary.isEmpty
  · rfl
  · have := BreakTypes.intersects_eq_false_of_isEmpty he BreakTypes.dynamic
    rw [h.summary_dynamic] at this
    cases this

/-- Replacing the records of another address on both tables keeps the planting. -/
theorem Planted.withChain (h : b.Planted r R B) {a : Address} (ha : a ≠ r)
    (rs : List BreakRecord) (hs : (b.withChain a rs).Settled) :
    (b.withChain a rs).Planted r R (B.withChain a rs) where
  settled := hs
  vacant := by rw [at?_withChain, if_neg ha]; exact h.vacant
  at_self := by rw [at?_withChain, if_neg ha]; exact h.at_self
  at_ne a' ha' := by
    rw [at?_withChain, at?_withChain]
    split
    · rfl
    · exact h.at_ne a' ha'
  summary := h.summary
  stepOver := h.stepOver
  count_le := h.count_le
  unfired := h.unfired

/-- A test at another address that reports nothing on `b` reports nothing on `B` either, and
keeps the planting: on `b`'s records the widened test selects as the plain one does, and what it
changes it changes on both tables alike. -/
theorem Planted.test (h : b.Planted r R B) {a : Address} (ha : a ≠ r) {types : BreakTypes}
    {now : Int} (hnone : (b.test a types now).1 = none) :
    (B.test a types now).1 = none ∧ (b.test a types now).2.Planted r R (B.test a types now).2 := by
  have hsettled := Sweepable.test h.settled a types now
  have hsel : (b.at? a).findIdx?
        (selects (types.withoutSpace.union BreakTypes.dynamic) true types.space now) =
      (b.at? a).findIdx? (selects types.withoutSpace true types.space now) := by
    apply Expectations.findIdx?_congr_of_mem
    intro x hx
    simp only [selects, if_true, BreakTypes.intersects_union_dynamic (h.settled.unplanted hx)]
  unfold BreakTable.test at hnone hsettled ⊢
  simp only [h.settled.summary_dynamic, h.summary_dynamic, if_true, Bool.false_eq_true, if_false,
    h.at_ne a ha, hsel] at hnone hsettled ⊢
  cases hi : (b.at? a).findIdx? (selects types.withoutSpace true types.space now) with
  | none => exact ⟨rfl, h⟩
  | some i =>
    dsimp only
    cases hx : (b.at? a)[i]? with
    | none => exact ⟨rfl, h⟩
    | some x =>
      simp only [hi, hx] at hnone hsettled
      dsimp only
      by_cases hc : (x.stamp types.space (some now)).count > 1
      · -- the record counts down, on both tables alike
        simp only [if_pos hc] at hsettled ⊢
        exact ⟨trivial, h.withChain ha _ hsettled⟩
      · rw [if_neg hc] at hnone
        cases hnone

/-- A test at the planted address fires on the planted record, whatever types it tests: the
test is widened by the dynamic types, which the step-over record has, and the record has never
matched and has no count left. -/
theorem Planted.test_self (h : b.Planted r R B) (types : BreakTypes) (now : Int) :
    ∃ hit B', B.test r types now = (some hit, B') ∧ hit.address = r ∧
      hit.types.intersects BreakTypes.stepOver = true := by
  have hsel : selects (types.withoutSpace.union BreakTypes.dynamic) true types.space now R = true := by
    have hdyn : R.types.intersects BreakTypes.dynamic = true := by
      rw [BreakTypes.intersects_dynamic, h.stepOver, Bool.true_or]
    simp only [selects, if_true, Bool.and_eq_true, bne_iff_ne, ne_eq, h.unfired, reduceCtorEq,
      not_false_eq_true, and_true]
    rw [BreakTypes.intersects_comm, BreakTypes.union_intersects,
      BreakTypes.intersects_comm BreakTypes.dynamic, hdyn, Bool.or_true]
  have hidx : [R].findIdx? (selects (types.withoutSpace.union BreakTypes.dynamic) true
      types.space now) = some 0 := by
    rw [List.findIdx?_cons, hsel]
    rfl
  have hcount : ¬(R.stamp types.space (some now)).count > 1 := Nat.not_lt.mpr h.count_le
  unfold BreakTable.test
  simp only [h.summary_dynamic, if_true, h.at_self, hidx, List.getElem?_cons_zero, if_neg hcount]
  exact ⟨_, _, rfl, rfl, BreakTypes.union_dynamic_inter_intersects h.stepOver _⟩

/-- Planting a step-over breakpoint where a settled table has none. -/
theorem planted_set (hb : b.Settled) (hv : b.at? r = [])
    (hset : b.set r BreakTypes.stepOver 0 none = .ok B) : ∃ R, b.Planted r R B := by
  unfold set at hset
  dsimp only at hset
  -- step-over alone is granted the machine's default types as well
  rw [if_pos (show (BreakTypes.stepOver.withoutSpace.isEmpty ||
    BreakTypes.stepOver.withoutSpace == BreakTypes.stepOver) = true by decide)] at hset
  generalize ht : BreakTypes.stepOver.withoutSpace.union b.typeTable.defaultTypes = t at hset
  have hso : t.intersects BreakTypes.stepOver = true := by
    rw [← ht, BreakTypes.union_intersects, Bool.or_eq_true]
    exact Or.inl (by decide)
  split at hset
  · cases hset
  · split at hset
    · cases hset
    · rw [hv] at hset
      simp only [List.any_nil, Bool.false_eq_true, if_false, List.nil_append] at hset
      cases hset
      refine ⟨{ BreakRecord.fresh r t with count := 0 }, hb, hv, ?_, ?_, rfl, hso, Nat.zero_le 1, ?_⟩
      · show (b.withChain r _).at? r = _
        rw [at?_withChain, if_pos rfl]
        rfl
      · intro a ha
        show (b.withChain r _).at? a = _
        rw [at?_withChain, if_neg (Ne.symm ha)]
      · intro space
        simp only [BreakRecord.firedAt, BreakRecord.fresh, Vector.getElem?_replicate]
        split <;> rfl

end BreakTable

namespace Context

/-- Polling a line for input reads nothing of the breakpoint table. -/
theorem sendPoll_withBreaks (c : Context) (B : BreakTable) (line : Nat) :
    ({ c with breaks := B } : Context).sendPoll line =
      ((c.sendPoll line).1, { (c.sendPoll line).2 with breaks := B }) := by
  unfold sendPoll
  dsimp only
  cases c.lines[line]? <;> rfl

/-- Feeding a byte to a line's expect rules reads nothing of the breakpoint table. -/
theorem expCheck_withBreaks (c : Context) (B : BreakTable) (line : Nat) (byte : UInt8) :
    ({ c with breaks := B } : Context).expCheck line byte = { c.expCheck line byte with breaks := B } := by
  unfold expCheck
  dsimp only
  cases c.lines[line]? with
  | none => rfl
  | some l =>
    dsimp only
    cases (l.expect.check byte).1 with
    | none => rfl
    | some m =>
      dsimp only
      cases m.action <;> rfl

theorem foldl_expCheck_withBreaks (bytes : List UInt8) (c : Context) (B : BreakTable) :
    bytes.foldl (fun c b => c.expCheck 0 b) ({ c with breaks := B } : Context) =
      { bytes.foldl (fun c b => c.expCheck 0 b) c with breaks := B } := by
  induction bytes generalizing c with
  | nil => rfl
  | cons b bytes ih =>
    simp only [List.foldl_cons]
    rw [expCheck_withBreaks, ih]

/-- The due units fire on the scheduler alone. -/
theorem processEvent_withBreaks {σ : Type} (machine : Scheduler.Reaction σ) (extra : Nat) (st : σ)
    (c : Context) (B : BreakTable) :
    ({ c with breaks := B } : Context).processEvent machine extra st =
      ((c.processEvent machine extra st).1, (c.processEvent machine extra st).2.1,
        { (c.processEvent machine extra st).2.2 with breaks := B }) := rfl

theorem breaks_processEvent {σ : Type} (machine : Scheduler.Reaction σ) (extra : Nat) (st : σ)
    (c : Context) : (c.processEvent machine extra st).2.2.breaks = c.breaks := rfl

end Context

namespace Bench.Machine

variable {r : Address} {R : BreakRecord}

/-- The instruction at the counter touches the address `r`: it stands at `r`, or reads or writes
`r`. -/
def Touches (m : Machine) (r : Address) : Prop :=
  m.pc = r ∨ m.instructionAt m.pc = some (.load r) ∨ m.instructionAt m.pc = some (.store r)

instance (m : Machine) (r : Address) : Decidable (m.Touches r) :=
  inferInstanceAs (Decidable (_ ∨ _ ∨ _))

/-- None of the machine's tests asks for temporary breakpoints. -/
theorem testTypes_not_temp :
    executeTypes.intersects BreakTypes.temp = false ∧ fetchTypes.intersects BreakTypes.temp = false ∧
      readTypes.intersects BreakTypes.temp = false ∧
      writeTypes.intersects BreakTypes.temp = false := by
  decide

/-- A test that reports nothing is a test of the table that reports nothing: only the table
changes. -/
theorem checkBreak_eq_none {c c₁ : Context} (hs : c.breaks.Settled) {a : Address} {t : BreakTypes}
    (htemp : t.intersects BreakTypes.temp = false) {space : Nat}
    (hc : checkBreak c a t space = (none, c₁)) :
    c.breaks.test a (t.inSpace space) c.gtime = (none, c₁.breaks) ∧
      c₁ = { c with breaks := c₁.breaks } := by
  unfold checkBreak at hc
  split at hc
  · -- no breakpoint at all: a test would select nothing
    next hempty =>
    cases hc
    refine ⟨BreakTable.test_eq_of_summary_disjoint hs.reach.shaped.summary_eq a c.gtime ?_
      hs.summary_dynamic (BreakTypes.intersects_eq_false_of_isEmpty hempty _), rfl⟩
    rw [BreakTypes.inSpace_intersects]
    exact htemp
  · unfold Context.brkTest at hc
    rcases ht : c.breaks.test a (t.inSpace space) c.gtime with ⟨_ | hit, b₁⟩ <;> rw [ht] at hc
    · cases hc
      exact ⟨rfl, rfl⟩
    · cases hc

/-- A test at another address that reports nothing without the planted record reports nothing
with it, and keeps the planting. -/
theorem checkBreak_planted {c c₁ : Context} {B : BreakTable} (h : c.breaks.Planted r R B)
    {a : Address} (ha : a ≠ r) {t : BreakTypes} (htemp : t.intersects BreakTypes.temp = false)
    {space : Nat} (hc : checkBreak c a t space = (none, c₁)) :
    ∃ B₁, checkBreak { c with breaks := B } a t space = (none, { c₁ with breaks := B₁ }) ∧
      c₁.breaks.Planted r R B₁ := by
  obtain ⟨htest, hc₁⟩ := checkBreak_eq_none h.settled htemp hc
  have hB := h.test ha (by rw [htest])
  rw [htest] at hB
  refine ⟨(B.test a (t.inSpace space) c.gtime).2, ?_, hB.2⟩
  have hpair : B.test a (t.inSpace space) ({ c with breaks := B } : Context).gtime =
      (none, (B.test a (t.inSpace space) c.gtime).2) :=
    Prod.ext hB.1 rfl
  unfold checkBreak Context.brkTest
  rw [if_neg (ne_true_of_eq_false h.summary_isEmpty)]
  dsimp only
  rw [hpair, hc₁]

/-- Any test at the planted address stops on the planted record, and reads nothing of the
context but its table. -/
theorem checkBreak_planted_self {c : Context} {B : BreakTable} (h : c.breaks.Planted r R B)
    (t : BreakTypes) (space : Nat) :
    ∃ a t' msg c₂, checkBreak { c with breaks := B } r t space = (some (.breakpoint a t' msg), c₂) ∧
      t'.intersects BreakTypes.stepOver = true ∧ c₂.sched = c.sched := by
  obtain ⟨hit, B', htest, -, hso⟩ := h.test_self (t.inSpace space) c.gtime
  have htest' : B.test r (t.inSpace space) ({ c with breaks := B } : Context).gtime = (some hit, B') :=
    htest
  have hfire : ∃ msg c₂, checkBreak { c with breaks := B } r t space =
      (some (.breakpoint hit.address hit.types msg), c₂) := by
    unfold checkBreak Context.brkTest
    rw [if_neg (ne_true_of_eq_false h.summary_isEmpty)]
    dsimp only
    rw [htest']
    exact ⟨_, _, rfl⟩
  obtain ⟨msg, c₂, hfire⟩ := hfire
  have hsched := (probed_checkBreak { c with breaks := B } r t space).sched_eq
  rw [hfire] at hsched
  exact ⟨_, _, msg, c₂, hfire, hso, hsched⟩

/-- An execution that does not touch the planted address goes as it would without the record:
an instruction that ran without a stop runs alike, and only the tables differ, still by the
planting. -/
theorem execute_planted {m m₁ : Machine} {c c₁ : Context} {B : BreakTable}
    (h : c.breaks.Planted r R B) (hm : ¬m.Touches r) (hx : m.execute c = (.ok (), m₁, c₁)) :
    ∃ B₁, m.execute { c with breaks := B } = (.ok (), m₁, { c₁ with breaks := B₁ }) ∧
      c₁.breaks.Planted r R B₁ := by
  simp only [Touches, not_or] at hm
  obtain ⟨hpc, hload, hstore⟩ := hm
  unfold execute at hx ⊢
  dsimp only at hx ⊢
  rcases h₁ : checkBreak c m.pc executeTypes 0 with ⟨_ | stop, c₂⟩ <;> rw [h₁] at hx
  case some => cases hx
  obtain ⟨B₂, h₁', hB₂⟩ := checkBreak_planted h hpc testTypes_not_temp.1 h₁
  rw [h₁']
  dsimp only at hx ⊢
  rcases h₂ : checkBreak c₂ m.pc fetchTypes 1 with ⟨_ | stop, c₃⟩ <;> rw [h₂] at hx
  case some => cases hx
  obtain ⟨B₃, h₂', hB₃⟩ := checkBreak_planted hB₂ hpc testTypes_not_temp.2.1 h₂
  rw [h₂']
  dsimp only at hx ⊢
  -- past its two tests, the instruction runs alike in both contexts
  cases hi : m.instructionAt m.pc with
  | none =>
    rw [hi] at hx
    cases hx
  | some i =>
    rw [hi] at hx
    dsimp only at hx ⊢
    cases i with
    | halt => cases hx
    | read =>
      dsimp only at hx ⊢
      rw [Context.sendPoll_withBreaks]
      have hb := breaks_sendPoll c₃ 0
      rcases hp : c₃.sendPoll 0 with ⟨_ | _ | _, c₄⟩ <;> rw [hp] at hx hb <;> dsimp only at hx ⊢
      · cases hx
      all_goals
        simp only [tick, Prod.mk.injEq] at hx
        obtain ⟨-, rfl, rfl⟩ := hx
        exact ⟨B₃, rfl, hb ▸ hB₃⟩
    | load a =>
      dsimp only at hx ⊢
      have har : a ≠ r := by
        rintro rfl
        exact hload hi
      rcases h₃ : checkBreak c₃ a readTypes 2 with ⟨_ | stop, c₄⟩ <;> rw [h₃] at hx
      case some => cases hx
      obtain ⟨B₄, h₃', hB₄⟩ := checkBreak_planted hB₃ har testTypes_not_temp.2.2.1 h₃
      rw [h₃']
      simp only [tick, Prod.mk.injEq] at hx
      obtain ⟨-, rfl, rfl⟩ := hx
      exact ⟨B₄, rfl, hB₄⟩
    | store a =>
      dsimp only at hx ⊢
      have har : a ≠ r := by
        rintro rfl
        exact hstore hi
      rcases h₃ : checkBreak c₃ a writeTypes 2 with ⟨_ | stop, c₄⟩ <;> rw [h₃] at hx
      case some => cases hx
      obtain ⟨B₄, h₃', hB₄⟩ := checkBreak_planted hB₃ har testTypes_not_temp.2.2.2 h₃
      rw [h₃']
      simp only [tick, Prod.mk.injEq] at hx
      obtain ⟨-, rfl, rfl⟩ := hx
      exact ⟨B₄, rfl, hB₄⟩
    | ret =>
      dsimp only at hx ⊢
      cases hs : m.stack with
      | nil =>
        rw [hs] at hx
        cases hx
      | cons a rest =>
        rw [hs] at hx
        simp only [tick, Prod.mk.injEq] at hx
        obtain ⟨-, rfl, rfl⟩ := hx
        exact ⟨B₃, rfl, hB₃⟩
    | _ =>
      simp only [tick, Prod.mk.injEq] at hx
      obtain ⟨-, rfl, rfl⟩ := hx
      exact ⟨B₃, rfl, hB₃⟩

theorem runSlice_of_interval_nonpos {m : Machine} {c : Context} (hi : c.sched.interval ≤ 0)
    (out : Array UInt8) :
    m.runSlice c out =
      let p := c.processEvent Console.react 0 m.console
      (p.1, { m with console := { p.2.1 with emitted := [] } },
        p.2.1.emitted.foldl (fun c b => c.expCheck 0 b) p.2.2, out ++ p.2.1.emitted.toArray) := by
  unfold runSlice
  rw [if_pos hi]

/-- A slice that does not touch the planted address goes as it would without the record. An
event slice reads no breakpoint at all. -/
theorem runSlice_planted {m : Machine} {c : Context} {out : Array UInt8} {B : BreakTable}
    (h : c.breaks.Planted r R B) (hm : 0 < c.sched.interval → ¬m.Touches r)
    (hok : (m.runSlice c out).1 = .ok ()) :
    ∃ B₁, m.runSlice { c with breaks := B } out =
        (.ok (), (m.runSlice c out).2.1, { (m.runSlice c out).2.2.1 with breaks := B₁ },
          (m.runSlice c out).2.2.2) ∧
      (m.runSlice c out).2.2.1.breaks.Planted r R B₁ := by
  by_cases hi : c.sched.interval ≤ 0
  · have hi' : ({ c with breaks := B } : Context).sched.interval ≤ 0 := hi
    rw [runSlice_of_interval_nonpos hi] at hok ⊢
    rw [runSlice_of_interval_nonpos hi', Context.processEvent_withBreaks]
    dsimp only at hok ⊢
    refine ⟨B, ?_, ?_⟩
    · rw [Context.foldl_expCheck_withBreaks, hok]
    · rw [breaks_foldl_expCheck, Context.breaks_processEvent]
      exact h
  · have hpos : 0 < c.sched.interval := by omega
    have hpos' : 0 < ({ c with breaks := B } : Context).sched.interval := hpos
    rw [runSlice_of_interval_pos hpos] at hok ⊢
    rw [runSlice_of_interval_pos hpos']
    obtain ⟨B₁, hx, hB₁⟩ := execute_planted h (hm hpos) (Prod.ext hok rfl)
    exact ⟨B₁, by rw [hx], hB₁⟩

/-- An instruction that touches the planted address stops on the planted record before it takes
effect: at the address itself the execution test finds it; a load or a store of it elsewhere
passes the tests at the counter, as it does without the record, and the data test finds it. -/
theorem execute_planted_touch {m : Machine} {c : Context} {B : BreakTable}
    (h : c.breaks.Planted r R B) (ht : m.Touches r) (hok : m.pc ≠ r → (m.execute c).1 = .ok ()) :
    ∃ a t msg c₂, m.execute { c with breaks := B } = (.error (.breakpoint a t msg), m, c₂) ∧
      t.intersects BreakTypes.stepOver = true ∧ c₂.sched = c.sched := by
  by_cases hpc : m.pc = r
  · obtain ⟨a, t, msg, c₂, hfire, hso, hsched⟩ := checkBreak_planted_self h executeTypes 0
    unfold execute
    dsimp only
    rw [hpc, hfire]
    exact ⟨a, t, msg, c₂, rfl, hso, hsched⟩
  · have hx := hok hpc
    unfold execute at hx ⊢
    dsimp only at hx ⊢
    rcases h₁ : checkBreak c m.pc executeTypes 0 with ⟨_ | stop, c₁⟩ <;> rw [h₁] at hx
    case some => cases hx
    obtain ⟨B₁, h₁', hB₁⟩ := checkBreak_planted h hpc testTypes_not_temp.1 h₁
    have hs₁ := (probed_checkBreak c m.pc executeTypes 0).sched_eq
    rw [h₁']
    rw [h₁] at hs₁
    dsimp only at hx hs₁ ⊢
    rcases h₂ : checkBreak c₁ m.pc fetchTypes 1 with ⟨_ | stop, c₂⟩ <;> rw [h₂] at hx
    case some => cases hx
    obtain ⟨B₂, h₂', hB₂⟩ := checkBreak_planted hB₁ hpc testTypes_not_temp.2.1 h₂
    have hs₂ := (probed_checkBreak c₁ m.pc fetchTypes 1).sched_eq
    rw [h₂']
    rw [h₂] at hs₂
    dsimp only at hs₂ ⊢
    -- past the tests at the counter, the touch is a load or a store of the planted address
    rcases ht with hpc' | hload | hstore
    · exact absurd hpc' hpc
    · obtain ⟨a, t, msg, c₃, hfire, hso, hsched⟩ := checkBreak_planted_self hB₂ readTypes 2
      rw [hload]
      dsimp only
      rw [hfire]
      exact ⟨a, t, msg, c₃, rfl, hso, hsched.trans (hs₂.trans hs₁)⟩
    · obtain ⟨a, t, msg, c₃, hfire, hso, hsched⟩ := checkBreak_planted_self hB₂ writeTypes 2
      rw [hstore]
      dsimp only
      rw [hfire]
      exact ⟨a, t, msg, c₃, rfl, hso, hsched.trans (hs₂.trans hs₁)⟩

/-- `Clear r k m c out m' c' out'`: `k` slices of a run go from `(m, c, out)` to
`(m', c', out')` without a stop, and none of the instructions they execute touches `r`. -/
inductive Clear (r : Address) :
    Nat → Machine → Context → Array UInt8 → Machine → Context → Array UInt8 → Prop
  | refl (m : Machine) (c : Context) (out : Array UInt8) : Clear r 0 m c out m c out
  | slice {k : Nat} {m m' : Machine} {c c' : Context} {out out' : Array UInt8}
      (hm : 0 < c.sched.interval → ¬m.Touches r) (hok : (m.runSlice c out).1 = .ok ())
      (rest : Clear r k (m.runSlice c out).2.1 (m.runSlice c out).2.2.1 (m.runSlice c out).2.2.2
        m' c' out') :
      Clear r (k + 1) m c out m' c' out'

/-- The run with the planted record goes in lockstep with the plain run along a clear stretch:
the same machine and output, and tables that differ by the planting. -/
theorem run_planted {k : Nat} {m m' : Machine} {c c' : Context} {out out' : Array UInt8}
    (hcl : Clear r k m c out m' c' out') {B : BreakTable} (h : c.breaks.Planted r R B) :
    ∃ B', (∀ fuel, m.run (k + fuel) { c with breaks := B } out =
        m'.run fuel { c' with breaks := B' } out') ∧ c'.breaks.Planted r R B' := by
  induction hcl generalizing B with
  | refl m c out => exact ⟨B, fun fuel => by rw [Nat.zero_add], h⟩
  | slice hm hok rest ih =>
    obtain ⟨B₁, hslice, hB₁⟩ := runSlice_planted h hm hok
    obtain ⟨B', hrun, hB'⟩ := ih hB₁
    refine ⟨B', fun fuel => ?_, hB'⟩
    rw [Nat.add_right_comm, run, hslice]
    exact hrun fuel

/-- After a clear stretch, the first instruction that touches the planted address stops the run
with the planted record on it: the machine as the plain run has it there, the output as far as
it goes, and the clock not moved past it. -/
theorem run_planted_stops_at_touch {k : Nat} {m m' : Machine} {c c' : Context}
    {out out' : Array UInt8} (hcl : Clear r k m c out m' c' out') {B : BreakTable}
    (h : c.breaks.Planted r R B) (ht : m'.Touches r) (hint : 0 < c'.sched.interval)
    (hok : m'.pc ≠ r → (m'.execute c').1 = .ok ()) (fuel : Nat) :
    ∃ a t msg c₂, m.run (k + fuel + 1) { c with breaks := B } out =
        (.breakpoint a t msg, m', c₂, out') ∧
      t.intersects BreakTypes.stepOver = true ∧ c₂.sched = c'.sched := by
  obtain ⟨B', hrun, hB'⟩ := run_planted hcl h
  obtain ⟨a, t, msg, c₂, hx, hso, hsched⟩ := execute_planted_touch hB' ht hok
  have hint' : 0 < ({ c' with breaks := B' } : Context).sched.interval := hint
  refine ⟨a, t, msg, c₂, ?_, hso, hsched⟩
  rw [Nat.add_assoc, hrun, run, runSlice_of_interval_pos hint', hx]

end Bench.Machine

/-- NEXT with no count steps once. -/
theorem Command.parse_next_alone : Command.parse "NEXT" = .ok (.stepOver 1) := by
  have hscan : Command.scan "NEXT" = [⟨.token (.word "NEXT"), 0, 4⟩] :=
    Command.scan_word_alone (show "NEXT".toList = ['N', 'E', 'X', 'T'] from rfl) rfl rfl
      (by decide)
  have hhash : "NEXT".startsWith "#" = false := by simp
  rw [Command.parse, hscan]
  simp only [hhash, Bool.false_eq_true, if_false,
    show Command.lookup "NEXT" commandWords = .ok .nextStep from rfl, bind, Except.bind,
    Command.readArguments]
  rfl

namespace Session

open Bench.Machine

/-- A NEXT line over a call plants the step-over breakpoint after the call, runs the machine,
sweeps the step-over breakpoints away, and reports the stop; a stop that ends a step ends NEXT. -/
theorem run_command_next_over_call {line : String} (hp : Command.parse line = .ok (.stepOver 1))
    {s : Session} {a : Address} (hcall : s.machine.instructionAt s.machine.pc = some (.call a))
    {B : BreakTable}
    (hset : s.ctx.breaks.set s.machine.pc.successor BreakTypes.stepOver 0 none = .ok B) :
    let o := s.machine.run sliceBudget { s.ctx with breaks := B } s.out
    (command line).run s =
      (if !stepped o.1 || s.exitRequested then reportStop o.1 else reportStop .stepExpired).run
        { s with
          machine := o.2.1
          ctx := { o.2.2.1 with breaks := o.2.2.1.breaks.clearAll BreakTypes.stepOver }
          out := o.2.2.2 } := by
  intro o
  have hbrk : s.ctx.brkSet s.machine.pc.successor BreakTypes.stepOver 0 none =
      .ok { s.ctx with breaks := B } := by
    rw [Context.brkSet, hset]
    rfl
  have honce : stepOverOnce.run s = .ok o.1 { s with
      machine := o.2.1
      ctx := { o.2.2.1 with breaks := o.2.2.1.breaks.clearAll BreakTypes.stepOver }
      out := o.2.2.2 } := by
    have hget : (get : SessionM Session).run s = .ok s s := rfl
    unfold stepOverOnce
    rw [EStateM.run_bind, hget]
    dsimp only
    rw [hcall]
    dsimp only
    rw [EStateM.run_bind, run_updateContext, hbrk]
    rfl
  rw [command, show workBudget = 16777215 + 1 from rfl, execute, EStateM.run_bind, hp]
  show (stepOverTimes (0 + 1)).run s = _
  rw [stepOverTimes.eq_2, EStateM.run_bind, honce]
  rfl

/-- A stop that ends a step is reported as the end of the step, at the counter. -/
theorem run_reportStop_of_stepped {stop : Stop} (h : stepped stop = true) (s : Session) :
    (reportStop stop).run s = .ok ()
      { s with out := s.out ++ ("\nStep expired, PC: " ++ s.machine.pc.toOctal8 ++ "\n").toUTF8.data } := by
  cases stop with
  | stepExpired =>
    show EStateM.Result.ok () { s with out := s.out ++
      ("\n" ++ ("Step expired" ++ ", PC: " ++ s.machine.pc.toOctal8) ++ "\n").toUTF8.data } = _
    simp only [← String.append_assoc, String.reduceAppend]
  | breakpoint a t msg =>
    have ht : t.intersects BreakTypes.stepOver = true := h
    show EStateM.Result.ok () { s with out := s.out ++ ("\n" ++
      (if t.intersects BreakTypes.stepOver then "Step expired, PC: " ++ s.machine.pc.toOctal8
        else msg) ++ "\n").toUTF8.data } = _
    simp only [ht, if_true, ← String.append_assoc, String.reduceAppend]
  | _ => cases h

/-- NEXT over a call, where the operator has no breakpoint after the call, runs as the machine
runs without the step-over breakpoint until an instruction first touches the address after the
call, and stops there before that instruction, reporting the end of the step at the counter;
no step-over breakpoint is left. -/
theorem next_over_call_stops_at_first_touch {line : String}
    (hp : Command.parse line = .ok (.stepOver 1)) {s : Session} {a : Address}
    (hcall : s.machine.instructionAt s.machine.pc = some (.call a)) (hsettled : s.Settled)
    (hvacant : s.ctx.breaks.at? s.machine.pc.successor = [])
    {k : Nat} {m' : Bench.Machine} {c' : Context} {out' : Array UInt8}
    (hclear : Clear s.machine.pc.successor k s.machine s.ctx s.out m' c' out')
    (hk : k < sliceBudget) (htouch : m'.Touches s.machine.pc.successor)
    (hint : 0 < c'.sched.interval)
    (hok : m'.pc ≠ s.machine.pc.successor → (m'.execute c').1 = .ok ()) :
    ∃ s₁, (command line).run s = .ok () s₁ ∧ s₁.machine = m' ∧ s₁.ctx.sched = c'.sched ∧
      s₁.out = out' ++ ("\nStep expired, PC: " ++ m'.pc.toOctal8 ++ "\n").toUTF8.data ∧
      ∀ p, ∀ rec ∈ s₁.ctx.breaks.at? p, rec.types.intersects BreakTypes.stepOver = false := by
  obtain ⟨B, hset⟩ := BreakTable.set_stepOver_ok s.ctx.breaks s.machine.pc.successor
  obtain ⟨R, hplant⟩ := BreakTable.planted_set hsettled hvacant hset
  obtain ⟨a', t, msg, c₂, hrun, hso, hsched⟩ :=
    run_planted_stops_at_touch hclear hplant htouch hint hok (sliceBudget - k - 1)
  rw [show k + (sliceBudget - k - 1) + 1 = sliceBudget by omega] at hrun
  have hcmd := run_command_next_over_call hp hcall hset
  dsimp only at hcmd
  rw [hrun] at hcmd
  refine ⟨{ s with
      machine := m'
      ctx := { c₂ with breaks := c₂.breaks.clearAll BreakTypes.stepOver }
      out := out' ++ ("\nStep expired, PC: " ++ m'.pc.toOctal8 ++ "\n").toUTF8.data },
    ?_, rfl, hsched, rfl, ?_⟩
  · -- the stop ends the step, whether or not an exit is pending
    have hstep : stepped (.breakpoint a' t msg) = true := hso
    rw [hcmd]
    split
    · exact run_reportStop_of_stepped hstep _
    · exact run_reportStop_of_stepped rfl _
  · intro p rec hrec
    rw [BreakTable.at?_clearAll, clearMask_stepOver, List.mem_filter] at hrec
    simpa using hrec.2

/-- A callee that reads the address after the call stops NEXT at the read, before the return:
the counter is at the read and the return address is still on the stack. -/
theorem next_stops_at_read_of_return_address :
    let s : Session := { Session.new {} false {} with
      machine := (Session.new {} false {}).machine.load
        [.call (Address.ofNat 2), .nop, .load (Address.ofNat 1), .ret] }
    ∃ s₁, (command "NEXT").run s = .ok () s₁ ∧ s₁.machine.pc = Address.ofNat 2 ∧
      s₁.machine.stack = [Address.ofNat 1] ∧
      s₁.out = "\nStep expired, PC: 00000002\n".toUTF8.data := by
  intro s
  -- one slice runs the call; the read comes next
  obtain ⟨s₁, hrun, hm, -, hout, -⟩ := next_over_call_stops_at_first_touch (s := s)
    Command.parse_next_alone rfl (settled_new {} false {} .linux) rfl
    (.slice (by decide) (by decide) (.refl _ _ _)) (by decide) (by decide) (by decide)
    (fun _ => by decide)
  refine ⟨s₁, hrun, ?_, ?_, ?_⟩
  · rw [hm]
    decide
  · rw [hm]
    decide
  · rw [hout]
    decide

/-- NEXT over a call that comes back to the address after it stops there once the call has
returned, reporting the end of the step at that address, and leaves no step-over breakpoint.
This holds where the operator has no breakpoint at that address and the callee neither
executes, reads nor writes it before returning. -/
theorem next_over_call_returns {line : String} (hp : Command.parse line = .ok (.stepOver 1))
    {s : Session} {a : Address} (hcall : s.machine.instructionAt s.machine.pc = some (.call a))
    (hsettled : s.Settled) (hvacant : s.ctx.breaks.at? s.machine.pc.successor = [])
    {k : Nat} {m' : Bench.Machine} {c' : Context} {out' : Array UInt8}
    (hclear : Clear s.machine.pc.successor k s.machine s.ctx s.out m' c' out')
    (hk : k < sliceBudget) (hret : m'.pc = s.machine.pc.successor)
    (hint : 0 < c'.sched.interval) :
    ∃ s₁, (command line).run s = .ok () s₁ ∧ s₁.machine = m' ∧ s₁.ctx.sched = c'.sched ∧
      s₁.out = out' ++
        ("\nStep expired, PC: " ++ s.machine.pc.successor.toOctal8 ++ "\n").toUTF8.data ∧
      ∀ p, ∀ rec ∈ s₁.ctx.breaks.at? p, rec.types.intersects BreakTypes.stepOver = false := by
  -- the return is the first touch, and the counter stands on it
  have h := next_over_call_stops_at_first_touch hp hcall hsettled hvacant hclear hk (Or.inl hret)
    hint (fun hne => absurd hret hne)
  rwa [hret] at h

/-- NEXT over `CALL 2` in the program `CALL 2; NOP; RETURN`: two slices run the call and the
return. -/
theorem next_over_call_returns_of_call_nop_ret :
    let s : Session := { Session.new {} false {} with
      machine := (Session.new {} false {}).machine.load [.call (Address.ofNat 2), .nop, .ret] }
    let o₁ := s.machine.runSlice s.ctx s.out
    let o₂ := o₁.2.1.runSlice o₁.2.2.1 o₁.2.2.2
    ∃ s₁, (command "NEXT").run s = .ok () s₁ ∧ s₁.machine = o₂.2.1 ∧
      s₁.ctx.sched = o₂.2.2.1.sched ∧
      s₁.out = o₂.2.2.2 ++
        ("\nStep expired, PC: " ++ s.machine.pc.successor.toOctal8 ++ "\n").toUTF8.data ∧
      ∀ p, ∀ rec ∈ s₁.ctx.breaks.at? p, rec.types.intersects BreakTypes.stepOver = false := by
  intro s o₁ o₂
  exact next_over_call_returns (s := s) Command.parse_next_alone rfl (settled_new {} false {} .linux) rfl
    (.slice (by decide) (by decide) (.slice (by decide) (by decide) (.refl _ _ _))) (by decide)
    (by decide) (by decide)

end Session

end SimControl
