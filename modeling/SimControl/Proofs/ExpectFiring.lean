import SimControl.Proofs.ExpectDefine
import SimControl.Proofs.SchedulerTimeline
import SimControl.Context
/-!
# Counting down and firing expect rules

A rule defined with a count `c` counts down on each of its first `c` selections and fires on
every selection after them. A rule that fires reports its pattern, its action, the line's
halt-after delay, and whether its own switches read that delay as microseconds. What becomes of
it then depends on its switches: a clear-all rule takes every rule of the line with it and
releases the buffer, a rule that is not persistent removes itself and leaves the others in
their order, and a persistent rule stays with no count, so it fires on each later selection.

* `respond_of_count_pos`, `respond_of_count_zero`: what a selection does to the selected rule.
* `Tracks`, `Tracks.check`, `Tracks.feed`: the rule for a pattern through output fed to its
  line, counted down once per selection.
* `rule_counts_down_then_fires`: the rule for a pattern, from the request that last defined it,
  through any output.

The delay a match reports is the line's, and its unit is read from the rule that fires. So a
rule defined without the T switch beside one that gave the line a delay in microseconds
reports that delay in instructions, while the line's SHOW EXPECT report gives it in
microseconds (`halt_after_unit_of_firing_rule`).

* `expCheck_delay_in_unit_of_firing_rule`: output that fires a rule activates the expect unit
  after the line's delay, converted from microseconds exactly when the rule that fired has the
  T switch.
-/

namespace SimControl

namespace Expectations

/-! ## What a selection does -/

section Respond

variable {e : Expectations} {i : Nat} {r : ExpectRule}

/-- A selected rule with a count left counts down and stays where it is. -/
theorem respond_of_count_pos (hr : e.rules[i]? = some r) (hc : 0 < r.count) :
    e.respond (some i) =
      (none,
        { e with ins := 0, wrapped := false, rules := e.rules.set i { r with count := r.count - 1 } }) := by
  unfold respond
  simp only [hr]
  rw [if_pos hc]

/-- A selected rule with no count left fires: a clear-all rule leaves the line as new, a rule
that is not persistent removes itself, and a persistent one stays. -/
theorem respond_of_count_zero (hr : e.rules[i]? = some r) (hc : r.count = 0) :
    e.respond (some i) =
      (some ⟨r.pattern, r.action, e.after, r.switches.contains usecsSwitch⟩,
        if r.switches.contains clearAllSwitch then new e.line
        else if !r.switches.contains persistSwitch then
          releaseIfUnused { e with ins := 0, wrapped := false, rules := e.rules.eraseIdx i }
        else { e with ins := 0, wrapped := false }) := by
  unfold respond
  simp only [hr]
  rw [if_neg (by omega)]
  split
  · rfl
  · split <;> rfl

end Respond

/-- The rule a byte selects, if any. -/
def selectedRule? (e : Expectations) (b : UInt8) : Option ExpectRule :=
  (e.select? b).bind fun i => e.rules[i]?

/-- A byte that selects a rule is written, and the selection handed to the response. -/
theorem check_of_selectedRule? {e : Expectations} {b : UInt8} {r : ExpectRule}
    (hsel : e.selectedRule? b = some r) :
    ∃ i, e.select? b = some i ∧ e.rules[i]? = some r ∧
      e.check b = (e.write b).wrapCursor.respond (some i) := by
  obtain ⟨i, hi, hr⟩ := Option.bind_eq_some_iff.mp hsel
  refine ⟨i, hi, hr, ?_⟩
  have hne : e.rules.isEmpty = false := by
    cases h : e.rules with
    | nil => simp [h] at hr
    | cons _ _ => rfl
  unfold check
  rw [hne, hi]
  rfl

/-- A byte that selects no rule reports nothing and keeps the rules. -/
theorem check_of_selectedRule?_eq_none {e : Expectations} {b : UInt8}
    (hsel : e.selectedRule? b = none) : (e.check b).1 = none ∧ (e.check b).2.rules = e.rules := by
  have hi : e.select? b = none := by
    cases h : e.select? b with
    | none => rfl
    | some i =>
      have hlt := select?_lt_length h
      simp [selectedRule?, h, List.getElem?_eq_getElem hlt] at hsel
  unfold check
  split
  · exact ⟨rfl, rfl⟩
  · rw [hi]
    exact ⟨rfl, by simp [respond]⟩

/-! ## Output fed to a line -/

/-- The line after each byte of some output in turn. -/
def feed (e : Expectations) (bs : List UInt8) : Expectations :=
  bs.foldl (fun e b => (e.check b).2) e

@[simp] theorem feed_nil (e : Expectations) : e.feed [] = e := rfl

@[simp] theorem feed_cons (e : Expectations) (b : UInt8) (bs : List UInt8) :
    e.feed (b :: bs) = (e.check b).2.feed bs := rfl

/-- How many bytes of some output select the rule for a pattern, each in the line it meets. -/
def selections (p : String) : Expectations → List UInt8 → Nat
  | _, [] => 0
  | e, b :: bs =>
    (if (e.selectedRule? b).map (·.pattern) = some p then 1 else 0) + selections p (e.check b).2 bs

theorem Reach.feed {e : Expectations} {fed : List UInt8} (he : e.Reach fed) (bs : List UInt8) :
    ∃ fed', (e.feed bs).Reach fed' := by
  induction bs generalizing e fed with
  | nil => exact ⟨fed, he⟩
  | cons b bs ih => exact ih (.check b he)

/-! ## The rule for a pattern, selection by selection -/

/-- The rule for pattern `p`, whenever the line has one, is `r₀` after `k` selections: counted
down by as many as its count allows, and, once selected past its count, persistent and not
clearing, since otherwise it would have gone. -/
def Tracks (e : Expectations) (p : String) (r₀ : ExpectRule) (k : Nat) : Prop :=
  ∀ r ∈ e.rules, r.pattern = p →
    r = { r₀ with count := r₀.count - k } ∧
      (r₀.count < k → r₀.switches.contains persistSwitch = true ∧
        r₀.switches.contains clearAllSwitch = false)

section Tracks

variable {e : Expectations} {p : String} {r₀ : ExpectRule} {k : Nat}

/-- Rules for `p` taken from the line keep being tracked. -/
theorem Tracks.mono {e' : Expectations} (h : e.Tracks p r₀ k)
    (hsub : ∀ r ∈ e'.rules, r.pattern = p → r ∈ e.rules) : e'.Tracks p r₀ k :=
  fun r hr hp => h r (hsub r hr hp) hp

/-- A selection of another rule leaves the rule for `p` as it was. -/
theorem Tracks.respond_other (h : e.Tracks p r₀ k) {i : Nat} {r : ExpectRule}
    (hr : e.rules[i]? = some r) (hp : r.pattern ≠ p) : (e.respond (some i)).2.Tracks p r₀ k := by
  refine h.mono fun x hx hxp => ?_
  by_cases hc : 0 < r.count
  · rw [respond_of_count_pos hr hc] at hx
    rcases List.mem_or_eq_of_mem_set hx with hx | rfl
    · exact hx
    · exact absurd hxp hp
  · rw [respond_of_count_zero hr (by omega)] at hx
    split at hx
    · simp [Expectations.new] at hx
    · split at hx
      · simp only [releaseIfUnused_rules] at hx
        exact List.mem_of_mem_eraseIdx hx
      · exact hx

/-- A selection of the rule for `p` counts it down once more: while it has a count left it stays
where it is, and once it fires it goes or, persistent and not clearing, stays. -/
theorem Tracks.respond_self (hnd : (e.rules.map (·.pattern)).Nodup) (h : e.Tracks p r₀ k)
    {i : Nat} {r : ExpectRule} (hr : e.rules[i]? = some r) (hp : r.pattern = p) :
    (e.respond (some i)).2.Tracks p r₀ (k + 1) := by
  obtain ⟨hreq, hfired⟩ := h r (List.mem_of_getElem? hr) hp
  by_cases hc : 0 < r.count
  · -- the rule stays where it is with its count one lower; no other rule has its pattern
    rw [respond_of_count_pos hr hc]
    intro x hx hxp
    obtain ⟨j, hj⟩ := List.mem_iff_getElem?.mp hx
    rw [List.getElem?_set] at hj
    split at hj
    · rename_i hij
      have hlt : i < e.rules.length := (List.getElem?_eq_some_iff.mp hr).1
      rw [if_pos (hij ▸ hlt), Option.some.injEq] at hj
      subst hj hreq
      refine ⟨by simp [Nat.sub_sub], fun hlt' => ?_⟩
      simp only at hc
      omega
    · rename_i hij
      exact absurd (index_eq_of_pattern_eq hnd hr hj (hp.trans hxp.symm)) hij
  · have hk : r₀.count ≤ k := by
      rw [hreq] at hc
      simp only at hc
      omega
    rw [respond_of_count_zero hr (by omega)]
    split
    · simp [Tracks, Expectations.new]
    · split
      · -- it removed itself, and no other rule has its pattern
        intro x hx hxp
        simp only [releaseIfUnused_rules] at hx
        obtain ⟨j, hji, hj⟩ := List.mem_eraseIdx_iff_getElem?.mp hx
        exact absurd (index_eq_of_pattern_eq hnd hj hr (hxp.trans hp.symm)) hji
      · -- persistent and not clearing, it stays with no count
        rename_i hC hP
        have hP' : r₀.switches.contains persistSwitch = true := by
          rw [hreq] at hP
          simpa using hP
        have hC' : r₀.switches.contains clearAllSwitch = false := by
          rw [hreq] at hC
          simpa using hC
        intro x hx hxp
        obtain ⟨hxeq, -⟩ := h x hx hxp
        refine ⟨by rw [hxeq]; simp; omega, fun _ => ⟨hP', hC'⟩⟩

/-- A byte counts the rule for `p` down once if it selects it, and leaves it otherwise. -/
theorem Tracks.check (hnd : (e.rules.map (·.pattern)).Nodup) (h : e.Tracks p r₀ k) (b : UInt8) :
    (e.check b).2.Tracks p r₀
      (k + if (e.selectedRule? b).map (·.pattern) = some p then 1 else 0) := by
  cases hsel : e.selectedRule? b with
  | none =>
    rw [Option.map_none, if_neg (by simp), Nat.add_zero]
    exact h.mono fun r hr _ => (check_of_selectedRule?_eq_none hsel).2 ▸ hr
  | some r =>
    obtain ⟨i, -, hr, hcheck⟩ := check_of_selectedRule? hsel
    -- writing the byte and moving the cursor keep the rules
    have hw : (e.write b).wrapCursor.rules = e.rules := by simp
    have hr' : (e.write b).wrapCursor.rules[i]? = some r := by rw [hw]; exact hr
    have hw' : (e.write b).wrapCursor.Tracks p r₀ k := h.mono fun x hx _ => hw ▸ hx
    rw [hcheck, Option.map_some]
    by_cases hp : r.pattern = p
    · rw [if_pos (by rw [hp])]
      exact hw'.respond_self (hw ▸ hnd) hr' hp
    · rw [if_neg (fun h => hp (Option.some.inj h)), Nat.add_zero]
      exact hw'.respond_other hr' hp

/-- Through output fed to the line, the rule for `p` is counted down once per selection. -/
theorem Tracks.feed {fed : List UInt8} (he : e.Reach fed) (h : e.Tracks p r₀ k)
    (bs : List UInt8) : (e.feed bs).Tracks p r₀ (k + selections p e bs) := by
  -- induction on the output; the line stays reachable, so its patterns stay distinct
  induction bs generalizing e k fed with
  | nil => exact h
  | cons b bs ih =>
    have hstep := ih (.check b he) (h.check he.nodup b)
    rw [feed_cons, selections, ← Nat.add_assoc]
    exact hstep

end Tracks

/-- After a granted request, the rule for its pattern has the request's count, switches and
action. -/
theorem find?_define {e : Expectations} (hnd : (e.rules.map (·.pattern)).Nodup)
    (pattern : String) (bytes : List UInt8) (count after : Nat) (switches : Switches)
    (action : Option String) :
    ∃ r₀, (e.define pattern bytes count after switches action).find? pattern = some r₀ ∧
      r₀.count = count ∧ r₀.switches = switches ∧ r₀.action = givenAction action := by
  have hnd' := nodup_define hnd pattern bytes count after switches action
  by_cases hex : ∃ r ∈ e.rules, r.pattern = pattern
  · obtain ⟨r, hr, hp⟩ := hex
    obtain ⟨i, hi⟩ := List.mem_iff_getElem?.mp hr
    have hlt : i < e.rules.length := (List.getElem?_eq_some_iff.mp hi).1
    have hrules := rules_define_of_getElem? bytes count after switches action hnd hi hp
    refine ⟨{ r with count := count, switches := switches, action := givenAction action }, ?_,
      rfl, rfl, rfl⟩
    have hmem : { r with count := count, switches := switches, action := givenAction action } ∈
        (e.define pattern bytes count after switches action).rules := by
      rw [hrules]
      exact List.mem_of_getElem? (List.getElem?_set_self hlt)
    have hfind := find?_of_mem hnd' hmem
    rw [hp] at hfind ⊢
    exact hfind
  · have hne : ∀ r ∈ e.rules, r.pattern ≠ pattern := fun r hr hp => hex ⟨r, hr, hp⟩
    have hrules := rules_define_of_forall_ne bytes count after switches action hne
    have hmem : (⟨pattern, bytes, count, switches, givenAction action⟩ : ExpectRule) ∈
        (e.define pattern bytes count after switches action).rules := by
      rw [hrules]
      simp
    exact ⟨_, find?_of_mem hnd' hmem, rfl, rfl, rfl⟩

/-- Right after a granted request, the rule for its pattern is tracked from no selections. -/
theorem tracks_define {e : Expectations} (hnd : (e.rules.map (·.pattern)).Nodup)
    {pattern : String} {r₀ : ExpectRule} (bytes : List UInt8) (count after : Nat)
    (switches : Switches) (action : Option String)
    (hr₀ : (e.define pattern bytes count after switches action).find? pattern = some r₀) :
    (e.define pattern bytes count after switches action).Tracks pattern r₀ 0 := by
  have hnd' := nodup_define hnd pattern bytes count after switches action
  have hmem := List.mem_of_find?_eq_some hr₀
  have hp : r₀.pattern = pattern := by simpa using List.find?_some hr₀
  intro r hr hrp
  refine ⟨?_, fun h => absurd h (Nat.not_lt_zero _)⟩
  rw [eq_of_pattern_eq hnd' hr hmem (hrp.trans hp.symm)]
  rfl

/-- The rule for a pattern, from the request that last defined it with count `c`, switches `sw`
and an action, through any output fed to the line, in every state a line reaches. Each of its
first `c` selections reports nothing and counts it down, leaving it in its place whatever its
switches; every later selection fires it, reporting its pattern, its action, the line's delay
at that moment and its unit. A clear-all rule that fires leaves the line as new, with no rules
and its buffer released; otherwise a rule that is not persistent removes itself, the other
rules keeping their order; and a persistent rule stays with no count, so that it fires on
every later selection. -/
theorem rule_counts_down_then_fires {e₀ e : Expectations} {fed : List UInt8} (he : e₀.Reach fed)
    {p : String} {c after : Nat} {sw : Switches} {act : Option String}
    (hset : e₀.set p c after sw act = .ok e) (bs : List UInt8) (b : UInt8) {r : ExpectRule}
    (hsel : (e.feed bs).selectedRule? b = some r) (hp : r.pattern = p) :
    ∃ r₀ i, e.find? p = some r₀ ∧ r₀.count = c ∧ r₀.switches = sw ∧ r₀.action = givenAction act ∧
      (e.feed bs).select? b = some i ∧ (e.feed bs).rules[i]? = some r ∧
      r = { r₀ with count := c - selections p e bs } ∧
      (selections p e bs < c →
        ((e.feed bs).check b).1 = none ∧
        ((e.feed bs).check b).2.rules =
          (e.feed bs).rules.set i { r with count := c - (selections p e bs + 1) }) ∧
      (c ≤ selections p e bs →
        ((e.feed bs).check b).1 =
          some ⟨p, r₀.action, (e.feed bs).after, sw.contains usecsSwitch⟩ ∧
        (sw.contains clearAllSwitch = true →
          ((e.feed bs).check b).2 = Expectations.new (e.feed bs).line) ∧
        (sw.contains clearAllSwitch = false → sw.contains persistSwitch = false →
          ((e.feed bs).check b).2.rules = (e.feed bs).rules.eraseIdx i) ∧
        (sw.contains clearAllSwitch = false → sw.contains persistSwitch = true →
          ((e.feed bs).check b).2.rules = (e.feed bs).rules ∧ r.count = 0)) := by
  have he₁ : e.Reach fed := .set p c after sw act he hset
  obtain ⟨bytes, -, rfl⟩ := set_eq_ok hset
  obtain ⟨r₀, hr₀, hcount, hsw, hact⟩ := find?_define he.nodup p bytes c after sw act
  have htrack := (tracks_define he.nodup bytes c after sw act hr₀).feed he₁ bs
  rw [Nat.zero_add] at htrack
  generalize selections p _ bs = k at htrack ⊢
  generalize hE : (e₀.define p bytes c after sw act).feed bs = e' at htrack hsel ⊢
  obtain ⟨i, hi, hr, hcheck⟩ := check_of_selectedRule? hsel
  obtain ⟨hreq, hfired⟩ := htrack r (List.mem_of_getElem? hr) hp
  rw [hcount] at hreq hfired
  have hr' : (e'.write b).wrapCursor.rules[i]? = some r := by simpa using hr
  have hrc : r.count = c - k := by rw [hreq]
  refine ⟨r₀, i, hr₀, hcount, hsw, hact, hi, hr, hreq, fun hk => ?_, fun hk => ?_⟩
  · -- a count is left: the rule counts down in place
    have hcnt : r.count - 1 = c - (k + 1) := by omega
    rw [hcheck, respond_of_count_pos hr' (by omega)]
    exact ⟨rfl, by simp only [wrapCursor_rules, write_rules, hcnt]⟩
  · -- no count is left: the rule fires, and its switches say what becomes of it
    have hc : r.count = 0 := by omega
    have hsw' : r.switches = sw := by rw [hreq, ← hsw]
    have hact' : r.action = r₀.action := by rw [hreq]
    rw [hcheck, respond_of_count_zero hr' hc, hsw']
    refine ⟨by simp [hp, hact'], fun hC => ?_, fun hC hP => ?_, fun hC hP => ?_⟩
    · rw [if_pos hC]
      simp
    · rw [if_neg (by simp [hC]), if_pos (by simp [hP])]
      simp
    · rw [if_neg (by simp [hC]), if_neg (by simp [hP])]
      exact ⟨by simp, hc⟩

/-- A persistent rule `"ok"` with count one: fed `ok`, which counts it down, and `o`, the next
`k` fires it and leaves it in place. -/
theorem rule_counts_down_then_fires_of_persistent :
    let e : Expectations :=
      ⟨"CONSOLE", [⟨"\"ok\"", [111, 107], 1, persistSwitch, none⟩], [0, 0, 0, 0], 3, 0, false, 0⟩
    let r : ExpectRule := ⟨"\"ok\"", [111, 107], 0, persistSwitch, none⟩
    let bs : List UInt8 := [111, 107, 111]
    (Expectations.new "CONSOLE").Reach [] ∧
    (Expectations.new "CONSOLE").set "\"ok\"" 1 0 persistSwitch none = .ok e ∧
    (e.feed bs).selectedRule? 107 = some r ∧ r.pattern = "\"ok\"" ∧
    ∃ r₀ i, e.find? "\"ok\"" = some r₀ ∧ r₀.count = 1 ∧ r₀.switches = persistSwitch ∧
      r₀.action = givenAction none ∧
      (e.feed bs).select? 107 = some i ∧ (e.feed bs).rules[i]? = some r ∧
      r = { r₀ with count := 1 - selections "\"ok\"" e bs } ∧
      (selections "\"ok\"" e bs < 1 →
        ((e.feed bs).check 107).1 = none ∧
        ((e.feed bs).check 107).2.rules =
          (e.feed bs).rules.set i { r with count := 1 - (selections "\"ok\"" e bs + 1) }) ∧
      (1 ≤ selections "\"ok\"" e bs →
        ((e.feed bs).check 107).1 =
          some ⟨"\"ok\"", r₀.action, (e.feed bs).after, persistSwitch.contains usecsSwitch⟩ ∧
        (persistSwitch.contains clearAllSwitch = true →
          ((e.feed bs).check 107).2 = Expectations.new (e.feed bs).line) ∧
        (persistSwitch.contains clearAllSwitch = false →
          persistSwitch.contains persistSwitch = false →
          ((e.feed bs).check 107).2.rules = (e.feed bs).rules.eraseIdx i) ∧
        (persistSwitch.contains clearAllSwitch = false →
          persistSwitch.contains persistSwitch = true →
          ((e.feed bs).check 107).2.rules = (e.feed bs).rules ∧ r.count = 0)) := by
  intro e r bs
  have hset : (Expectations.new "CONSOLE").set "\"ok\"" 1 0 persistSwitch none = .ok e := by
    decide +kernel
  have hsel : (e.feed bs).selectedRule? 107 = some r := by decide +kernel
  exact ⟨.new "CONSOLE", hset, hsel, rfl,
    rule_counts_down_then_fires (.new "CONSOLE") hset bs 107 hsel rfl⟩

/-! ## The match a selection reports -/

/-- A byte reports a match exactly when it selects a rule with no count left; the match carries
that rule's pattern, action and T switch, and the line's delay. -/
theorem check_fst_eq_some_iff {e : Expectations} {b : UInt8} {m : ExpectMatch} :
    (e.check b).1 = some m ↔ ∃ r, e.selectedRule? b = some r ∧ r.count = 0 ∧
      m = ⟨r.pattern, r.action, e.after, r.switches.contains usecsSwitch⟩ := by
  cases hsel : e.selectedRule? b with
  | none => simp [(check_of_selectedRule?_eq_none hsel).1]
  | some r =>
    obtain ⟨i, -, hr, hcheck⟩ := check_of_selectedRule? hsel
    have hr' : (e.write b).wrapCursor.rules[i]? = some r := by simpa using hr
    rw [hcheck]
    by_cases hc : r.count = 0
    · rw [respond_of_count_zero hr' hc]
      simp only [wrapCursor_after, write_after, Option.some.injEq, hc, true_and, exists_eq_left']
      exact eq_comm
    · rw [respond_of_count_pos hr' (Nat.pos_of_ne_zero hc)]
      simp [hc]

end Expectations

namespace Context

/-- A byte that makes its line report a match queues the expect unit after the match's delay,
converted from microseconds exactly when the match says so. -/
theorem sched_expCheck_of_match {c : Context} {line : Nat} {byte : UInt8} {l : Line}
    {m : ExpectMatch} (hl : c.lines[line]? = some l) (hm : (l.expect.check byte).1 = some m) :
    (c.expCheck line byte).sched = c.sched.activate expectUnit
      (if m.afterInUsecs then c.config.usecsToInstructions m.after else min maxDelay m.after) := by
  unfold expCheck
  simp only [hl]
  rw [hm]
  dsimp only
  -- staging the rule's action leaves the scheduler and the settings alone
  split <;> rfl

/-- A delay the expect unit is queued after is never negative. -/
theorem expectDelay_nonneg (c : Context) (usecs : Bool) (after : Nat) :
    0 ≤ if usecs then c.config.usecsToInstructions after else min maxDelay (after : Int) := by
  split
  · exact Config.usecsToInstructions_nonneg _ _
  · exact le_min (by decide) (Int.natCast_nonneg _)

/-- Output that fires a rule of a line queues the expect unit after the line's halt-after delay,
read in microseconds exactly when the rule that fires has the T switch, whichever rule gave the
line that delay: the match reports the line's delay and the firing rule's switch. An idle expect
unit is then due after that delay; one already queued keeps its time. -/
theorem expCheck_delay_in_unit_of_firing_rule (c : Context) (line : Nat) (byte : UInt8)
    {l : Line} {m : ExpectMatch} (hl : c.lines[line]? = some l)
    (hm : (l.expect.check byte).1 = some m) :
    ∃ r, l.expect.selectedRule? byte = some r ∧ r.count = 0 ∧
      m = ⟨r.pattern, r.action, l.expect.after, r.switches.contains usecsSwitch⟩ ∧
      let delay := if r.switches.contains usecsSwitch then
          c.config.usecsToInstructions l.expect.after
        else min maxDelay l.expect.after
      (c.expCheck line byte).sched = c.sched.activate expectUnit delay ∧
      (c.sched.isActive expectUnit = false →
        (c.expCheck line byte).sched.activateTime expectUnit = delay + 1) := by
  obtain ⟨r, hsel, hc, rfl⟩ := Expectations.check_fst_eq_some_iff.mp hm
  have hsched := sched_expCheck_of_match hl hm
  refine ⟨r, hsel, hc, rfl, hsched, fun hidle => ?_⟩
  rw [hsched]
  exact Scheduler.activateTime_activate_of_not_isActive hidle (expectDelay_nonneg c _ _)

/-- Rule `"a"` with the T switch gave the console a delay of 5 and rule `"b"` without it fires
on `b`, at two instructions per microsecond: the delay is read in instructions. -/
theorem expCheck_delay_in_unit_of_firing_rule_of_console :
    let e : Expectations :=
      ⟨"CONSOLE", [⟨"\"a\"", [97], 0, usecsSwitch, none⟩, ⟨"\"b\"", [98], 0, Switches.empty, none⟩],
        [0, 0, 0], 2, 0, false, 5⟩
    let l : Line := ⟨"CONSOLE", e, SendQueue.new "CONSOLE" 1000⟩
    let c : Context :=
      { Context.new { instructionsPerSecond := 2000000 } BreakTypeTable.standard with lines := [l] }
    let m : ExpectMatch := ⟨"\"b\"", none, 5, false⟩
    c.lines[0]? = some l ∧ (l.expect.check 98).1 = some m ∧
    ∃ r, l.expect.selectedRule? 98 = some r ∧ r.count = 0 ∧
      m = ⟨r.pattern, r.action, l.expect.after, r.switches.contains usecsSwitch⟩ ∧
      let delay := if r.switches.contains usecsSwitch then
          c.config.usecsToInstructions l.expect.after
        else min maxDelay l.expect.after
      (c.expCheck 0 98).sched = c.sched.activate expectUnit delay ∧
      (c.sched.isActive expectUnit = false →
        (c.expCheck 0 98).sched.activateTime expectUnit = delay + 1) := by
  intro e l c m
  have hm : (l.expect.check 98).1 = some m := by decide +kernel
  exact ⟨rfl, hm, expCheck_delay_in_unit_of_firing_rule c 0 98 rfl hm⟩

/-- The unit of the delay is the firing rule's, not that of the rule that gave the line its
delay, although the line's own report reads the delay in microseconds. At two instructions per
microsecond, rule `"a"` with the T switch gives the console a delay of 5 microseconds, and rule
`"b"`, defined after it without the switch and with no delay of its own, leaves that delay.
SHOW EXPECT then reports `Halt After: 5 usecs`, which is 10 instruction times; but when `b`
fires `"b"`, the match reports the delay 5 in instructions, and the idle expect unit is due 5
instruction times on (an activate time of 6), not 10. -/
theorem halt_after_unit_of_firing_rule :
    (do
      let c := Context.new { instructionsPerSecond := 2000000 } BreakTypeTable.standard
      let c ← c.expSet 0 "\"a\"" 0 5 usecsSwitch none
      let c ← c.expSet 0 "\"b\"" 0 0 Switches.empty none
      pure (c.lines[0]?.map fun l => l.expect.report none,
        c.config.usecsToInstructions 5,
        c.lines[0]?.bind fun l => (l.expect.check 98).1,
        (c.expCheck 0 98).sched.activateTime expectUnit) : Except Fault _) =
      .ok (some ("CONSOLE expect rules:\n  Match Buffer Size: 2\n  Buffer Insert Offset: 0\n" ++
          "  Buffer Contents: \"\"\n  Halt After: 5 usecs\n  EXPECT -T \"a\"\n  EXPECT \"b\"\n"),
        10, some ⟨"\"b\"", none, 5, false⟩, 6) := by
  decide +kernel

end Context

end SimControl
