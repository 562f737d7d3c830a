import Mathlib
import SimControl.Proofs.ExpectBounds
/-!
# Defining an expect rule

A request to define a rule is checked before anything changes, in a fixed order: the switches
(regular expressions are refused, and case-independent matching needs one), the pattern (it
must read as a quoted string and stand for some bytes), a persistent rule for the same pattern,
and a halt-after delay while rules for other patterns exist. The first check that fails names
the refusal. A refusal carries no new rules, so the line keeps the rules, buffer, cursor and
delay it had.

A rule is known by its pattern text: no two rules of a line share one (`Reach.nodup`), so the
rule a request finds is the only rule for its pattern.

* `set_eq_error_iff`: a request is refused exactly for the reason `Refusal` names.
* `rules_define_of_getElem?`, `rules_define_of_forall_ne`: a redefined rule keeps its place
  among the rules, a new one goes last.
* `after_define`: a nonzero delay becomes the line's; a zero one does only when no rule for
  another pattern is left to keep the old one.
* `set_checks_then_defines`: all of it, for every state a line reaches.
-/

namespace SimControl

namespace Expectations

/-! ## Field lemmas -/

section Fields

variable (e : Expectations) (b : UInt8)

@[simp] theorem releaseIfUnused_rules : (releaseIfUnused e).rules = e.rules := by
  unfold releaseIfUnused; split <;> rfl
@[simp] theorem releaseIfUnused_line : (releaseIfUnused e).line = e.line := by
  unfold releaseIfUnused; split <;> rfl
@[simp] theorem fitBuffer_after : e.fitBuffer.after = e.after := by
  unfold fitBuffer; dsimp only; split <;> rfl
@[simp] theorem write_after : (e.write b).after = e.after := rfl
@[simp] theorem write_line : (e.write b).line = e.line := rfl
@[simp] theorem wrapCursor_after : e.wrapCursor.after = e.after := by
  unfold wrapCursor; split <;> rfl
@[simp] theorem wrapCursor_line : e.wrapCursor.line = e.line := by
  unfold wrapCursor; split <;> rfl

/-- Removing every rule leaves the line as a new one. -/
theorem clearAll_eq_new : e.clearAll = new e.line := rfl

end Fields

/-! ## One rule per pattern -/

section Patterns

variable {l : List ExpectRule} {e : Expectations}

/-- In rules of distinct patterns, two rules of the same pattern are one. -/
theorem eq_of_pattern_eq (hnd : (l.map (·.pattern)).Nodup) {r r' : ExpectRule} (hr : r ∈ l)
    (hr' : r' ∈ l) (h : r.pattern = r'.pattern) : r = r' :=
  List.inj_on_of_nodup_map hnd hr hr' h

/-- In rules of distinct patterns, two positions holding rules of the same pattern are one. -/
theorem index_eq_of_pattern_eq (hnd : (l.map (·.pattern)).Nodup) {i j : Nat} {r r' : ExpectRule}
    (hi : l[i]? = some r) (hj : l[j]? = some r') (h : r.pattern = r'.pattern) : i = j := by
  obtain ⟨hil, rfl⟩ := List.getElem?_eq_some_iff.mp hi
  obtain ⟨hjl, rfl⟩ := List.getElem?_eq_some_iff.mp hj
  have hil' : i < (l.map (·.pattern)).length := by simpa using hil
  have hjl' : j < (l.map (·.pattern)).length := by simpa using hjl
  have heq : (l.map (·.pattern))[i] = (l.map (·.pattern))[j] := by simpa using h
  exact hnd.getElem_inj_iff.mp heq

/-- In rules of distinct patterns, the rule found for a rule's pattern is that rule. -/
theorem find?_of_mem (hnd : (e.rules.map (·.pattern)).Nodup) {r : ExpectRule}
    (hr : r ∈ e.rules) : e.find? r.pattern = some r := by
  obtain ⟨r', hr'⟩ : ∃ r', e.find? r.pattern = some r' := by
    rw [← Option.isSome_iff_exists, find?, List.find?_isSome]
    exact ⟨r, hr, by simp⟩
  have hp : r'.pattern = r.pattern := by simpa using List.find?_some hr'
  rw [hr', eq_of_pattern_eq hnd (List.mem_of_find?_eq_some hr') hr hp]

/-- Whether the rule found for a pattern passes a test, in rules of distinct patterns: whether
some rule for the pattern does. -/
theorem any_find?_iff (hnd : (e.rules.map (·.pattern)).Nodup) (pattern : String)
    (q : ExpectRule → Bool) :
    (e.find? pattern).any q = true ↔ ∃ r ∈ e.rules, r.pattern = pattern ∧ q r = true := by
  constructor
  · intro h
    obtain ⟨r, hr, hq⟩ := (Option.any_eq_true _ _).mp h
    exact ⟨r, List.mem_of_find?_eq_some hr, by simpa using List.find?_some hr, hq⟩
  · rintro ⟨r, hr, rfl, hq⟩
    rw [find?_of_mem hnd hr]
    exact hq

/-- Changing the rules of one pattern, in rules of distinct patterns, changes the one rule at
its place. -/
theorem map_update_eq_set (hnd : (l.map (·.pattern)).Nodup) {i : Nat} {r : ExpectRule}
    (hr : l[i]? = some r) (g : ExpectRule → ExpectRule) :
    l.map (fun x => if x.pattern == r.pattern then g x else x) = l.set i (g r) := by
  obtain ⟨hil, hget⟩ := List.getElem?_eq_some_iff.mp hr
  apply List.ext_getElem (by simp)
  intro j hj _
  have hjl : j < l.length := by simpa using hj
  rw [List.getElem_map, List.getElem_set]
  by_cases hji : i = j
  · subst hji
    simp [hget]
  · -- another position holds another pattern
    have hne : l[j].pattern ≠ r.pattern := fun h =>
      hji (index_eq_of_pattern_eq hnd hr (List.getElem?_eq_getElem hjl) h.symm)
    simp [hne, hji]

theorem nodup_define (hnd : (e.rules.map (·.pattern)).Nodup) (pattern : String)
    (bytes : List UInt8) (count after : Nat) (switches : Switches) (action : Option String) :
    ((e.define pattern bytes count after switches action).rules.map (·.pattern)).Nodup := by
  unfold define
  rw [fitBuffer_rules]
  dsimp only
  split
  · -- the rule for the pattern is updated where it stands
    rw [List.map_map]
    convert hnd using 2
    funext r
    by_cases h : r.pattern = pattern <;> simp [h]
  · rename_i hnone
    rw [List.map_append, List.nodup_append]
    refine ⟨hnd, List.nodup_singleton _, ?_⟩
    intro x hx y hy hxy
    obtain ⟨r, hr, rfl⟩ := List.mem_map.mp hx
    simp only [List.map_cons, List.map_nil, List.mem_singleton] at hy
    subst hy
    exact hnone (List.any_eq_true.mpr ⟨r, hr, by simpa using hxy⟩)

/-- A byte keeps the rules' patterns or drops some of them. -/
theorem patterns_check_sublist (e : Expectations) (b : UInt8) :
    ((e.check b).2.rules.map (·.pattern)).Sublist (e.rules.map (·.pattern)) := by
  unfold check
  split
  · exact List.Sublist.refl _
  · cases e.select? b with
    | none => simp [respond]
    | some i =>
      simp only [respond]
      split
      · simp
      · rename_i r hr
        simp only [write_rules, wrapCursor_rules] at hr
        split
        · -- the rule counted down keeps its pattern
          have hi : (e.rules.map (·.pattern))[i]? = some r.pattern := by simp [hr]
          obtain ⟨hlt, hget⟩ := List.getElem?_eq_some_iff.mp hi
          simp only [List.map_set, wrapCursor_rules, write_rules]
          rw [← hget, List.set_getElem_self]
        · split
          · simp [clearAll_eq_new, Expectations.new]
          · split
            · simpa using (List.eraseIdx_sublist e.rules i).map fun r : ExpectRule => r.pattern
            · simp

/-- No two rules of a line share a pattern, in every state a line reaches. -/
theorem Reach.nodup {fed : List UInt8} (he : e.Reach fed) : (e.rules.map (·.pattern)).Nodup := by
  induction he with
  | new line => exact List.nodup_nil
  | set _ _ _ _ _ _ hset ih =>
    obtain ⟨bytes, -, rfl⟩ := set_eq_ok hset
    exact nodup_define ih _ _ _ _ _ _
  | clear pattern _ ih =>
    rw [Expectations.clear, releaseIfUnused_rules]
    exact ih.sublist (List.filter_sublist.map _)
  | clearAll _ _ => simp [clearAll_eq_new, Expectations.new]
  | check byte _ ih => exact ih.sublist (patterns_check_sublist _ byte)

end Patterns

/-! ## The checks, in order -/

/-- The action a request gives its rule: the text trimmed of blanks, none if nothing is left. -/
def givenAction (action : Option String) : Option String :=
  action.bind fun s => let s := Text.trimBlank s; if s.isEmpty then none else some s

/-- Why a request to define a rule for `pattern` is refused: each reason holds with every check
made before it passing. -/
def Refusal (e : Expectations) (pattern : String) (after : Nat) (switches : Switches) :
    Fault → Prop
  | .regexUnsupported => switches.contains regexSwitch = true
  | .caseInsensitiveNeedsRegex =>
    switches.contains regexSwitch = false ∧ switches.contains caseInsensitiveSwitch = true
  | .invalidQuotedString q =>
    switches.contains regexSwitch = false ∧ switches.contains caseInsensitiveSwitch = false ∧
      Text.Quoted.decode pattern = .error q
  | .badArgument arg =>
    switches.contains regexSwitch = false ∧ switches.contains caseInsensitiveSwitch = false ∧
      Text.Quoted.decode pattern = .ok [] ∧ arg = pattern
  | .duplicatePersistentRule p =>
    switches.contains regexSwitch = false ∧ switches.contains caseInsensitiveSwitch = false ∧
      (∃ bytes, Text.Quoted.decode pattern = .ok bytes ∧ bytes ≠ []) ∧ p = pattern ∧
      ∃ r ∈ e.rules, r.pattern = pattern ∧ r.switches.contains persistSwitch = true
  | .haltAfterConflict =>
    switches.contains regexSwitch = false ∧ switches.contains caseInsensitiveSwitch = false ∧
      (∃ bytes, Text.Quoted.decode pattern = .ok bytes ∧ bytes ≠ []) ∧
      (∀ r ∈ e.rules, r.pattern = pattern → r.switches.contains persistSwitch = false) ∧
      after ≠ 0 ∧ ∃ r ∈ e.rules, r.pattern ≠ pattern
  | _ => False

/-- The checks refuse a request exactly for the reason `Refusal` names, in rules of distinct
patterns: there the rule found for the pattern is the only one. -/
theorem validate_eq_error_iff {e : Expectations} (hnd : (e.rules.map (·.pattern)).Nodup)
    (pattern : String) (after : Nat) (switches : Switches) (f : Fault) :
    e.validate pattern after switches = .error f ↔ e.Refusal pattern after switches f := by
  -- the cases follow the checks: each either refuses, naming its reason, or passes to the next
  unfold validate
  by_cases hR : switches.contains regexSwitch = true
  · simp only [hR, if_true]
    cases f <;> simp [Refusal, hR, throw, throwThe, MonadExceptOf.throw, bind, Except.bind]
  by_cases hI : switches.contains caseInsensitiveSwitch = true
  · simp only [hR, hI, if_true, if_false, Bool.false_eq_true]
    cases f <;> simp [Refusal, hR, hI, throw, throwThe, MonadExceptOf.throw, bind, Except.bind]
  simp only [hR, hI, if_false, Bool.false_eq_true]
  cases hd : Text.Quoted.decode pattern with
  | error q =>
    cases f <;> simp [Refusal, hR, hI, hd, throw, throwThe, MonadExceptOf.throw, bind, Except.bind]
  | ok bytes =>
    simp only [bind, Except.bind, pure, Except.pure]
    have hP := any_find?_iff hnd pattern (·.switches.contains persistSwitch)
    have hC : (after != 0 && e.rules.any (·.pattern != pattern)) = true ↔
        after ≠ 0 ∧ ∃ r ∈ e.rules, r.pattern ≠ pattern := by
      simp
    by_cases hE : bytes = []
    · subst hE
      cases f <;> simp [Refusal, hR, hI, hd, throw, throwThe, MonadExceptOf.throw]
      exact eq_comm
    rw [if_neg (by simpa using hE)]
    by_cases hdup : ∃ r ∈ e.rules, r.pattern = pattern ∧ r.switches.contains persistSwitch = true
    · rw [if_pos (hP.mpr hdup)]
      cases f <;> simp [Refusal, hR, hI, hd, hE, throw, throwThe, MonadExceptOf.throw]
      · exact ⟨fun h => ⟨h.symm, hdup⟩, fun h => h.1.symm⟩
      · -- the persistent rule for the pattern is refused first
        obtain ⟨r, hr, hp, hpersist⟩ := hdup
        intro hkeep
        rw [hkeep r hr hp] at hpersist
        cases hpersist
    have hkeep : ∀ r ∈ e.rules, r.pattern = pattern → r.switches.contains persistSwitch = false := by
      simpa using hdup
    rw [if_neg (fun h => hdup (hP.mp h))]
    by_cases hconf : after ≠ 0 ∧ ∃ r ∈ e.rules, r.pattern ≠ pattern
    · rw [if_pos (hC.mpr hconf)]
      cases f <;> simp [Refusal, hR, hI, hd, hE, hconf, throw, throwThe, MonadExceptOf.throw]
      · exact fun _ => hkeep
      · exact hkeep
    · rw [if_neg (fun h => hconf (hC.mp h))]
      cases f <;> simp [Refusal, hR, hI, hd, hE, hconf]
      exact fun _ => hkeep

/-- A request that passes its checks reads its pattern as the bytes the rule stands for. -/
theorem decode_of_validate {e : Expectations} {pattern : String} {after : Nat}
    {switches : Switches} {bytes : List UInt8}
    (h : e.validate pattern after switches = .ok bytes) : Text.Quoted.decode pattern = .ok bytes := by
  unfold validate at h
  by_cases hR : switches.contains regexSwitch = true
  · simp [hR, throw, throwThe, MonadExceptOf.throw, bind, Except.bind] at h
  by_cases hI : switches.contains caseInsensitiveSwitch = true
  · simp [hR, hI, throw, throwThe, MonadExceptOf.throw, bind, Except.bind] at h
  cases hd : Text.Quoted.decode pattern with
  | error q => simp [hR, hI, hd, throw, throwThe, MonadExceptOf.throw, bind, Except.bind] at h
  | ok bytes' =>
    simp only [hR, hI, hd, Bool.false_eq_true, if_false, bind, Except.bind, pure, Except.pure] at h
    -- every check after the reading either refuses or hands the bytes on
    split at h <;> (try split at h) <;> (try split at h) <;> simp_all [throw, throwThe, MonadExceptOf.throw]

theorem set_eq_error_iff {e : Expectations} (hnd : (e.rules.map (·.pattern)).Nodup)
    (pattern : String) (count after : Nat) (switches : Switches) (action : Option String)
    (f : Fault) :
    e.set pattern count after switches action = .error f ↔ e.Refusal pattern after switches f := by
  rw [← validate_eq_error_iff hnd]
  unfold Expectations.set
  cases e.validate pattern after switches <;> simp [bind, Except.bind, pure, Except.pure]

/-! ## What a granted request does -/

section Define

variable {e : Expectations} {pattern : String} (bytes : List UInt8) (count after : Nat)
  (switches : Switches) (action : Option String)

/-- A redefined rule stays where it was among the rules, with the count, switches and action
of the request. -/
theorem rules_define_of_getElem? (hnd : (e.rules.map (·.pattern)).Nodup) {i : Nat}
    {r : ExpectRule} (hr : e.rules[i]? = some r) (hp : r.pattern = pattern) :
    (e.define pattern bytes count after switches action).rules =
      e.rules.set i { r with count := count, switches := switches, action := givenAction action } := by
  have hany : e.rules.any (·.pattern == pattern) = true :=
    List.any_eq_true.mpr ⟨r, List.mem_of_getElem? hr, by simp [hp]⟩
  unfold define
  rw [fitBuffer_rules]
  dsimp only
  rw [if_pos hany]
  subst hp
  exact map_update_eq_set hnd hr _

/-- A new rule goes after every rule there, with no count of its own before the request's. -/
theorem rules_define_of_forall_ne (h : ∀ r ∈ e.rules, r.pattern ≠ pattern) :
    (e.define pattern bytes count after switches action).rules =
      e.rules ++ [⟨pattern, bytes, count, switches, givenAction action⟩] := by
  have hnone : e.rules.any (·.pattern == pattern) = false := by
    rw [List.any_eq_false]
    intro r hr
    simpa using h r hr
  unfold define
  rw [fitBuffer_rules]
  dsimp only
  rw [if_neg (by simp [hnone])]
  rfl

/-- The line's delay after a granted request: the request's when it is nonzero or when no rule
for another pattern is there, the line's own otherwise. -/
theorem after_define :
    (e.define pattern bytes count after switches action).after =
      if after ≠ 0 ∨ ∀ r ∈ e.rules, r.pattern = pattern then after else e.after := by
  have hc : ((after != 0 || !e.rules.any (·.pattern != pattern)) = true) ↔
      (after ≠ 0 ∨ ∀ r ∈ e.rules, r.pattern = pattern) := by
    simp
  unfold define
  rw [fitBuffer_after]
  exact if_congr hc rfl rfl

end Define

/-- A request to define a rule, in every state a line reaches. It is refused exactly for the
reason `Refusal` names, the first of its checks that fails, and a refusal carries no new state,
so the line keeps its rules, buffer, cursor and delay. A granted request redefines the rule for
its pattern where it stands, or adds it after every rule there, and gives the line the
request's delay when that is nonzero or no rule for another pattern is there. -/
theorem set_checks_then_defines {e : Expectations} {fed : List UInt8} (he : e.Reach fed)
    (pattern : String) (count after : Nat) (switches : Switches) (action : Option String) :
    (∀ f, e.set pattern count after switches action = .error f ↔
      e.Refusal pattern after switches f) ∧
    ∀ e', e.set pattern count after switches action = .ok e' →
      (∀ i r, e.rules[i]? = some r → r.pattern = pattern →
        e'.rules = e.rules.set i
          { r with count := count, switches := switches, action := givenAction action }) ∧
      ((∀ r ∈ e.rules, r.pattern ≠ pattern) → ∃ bytes, Text.Quoted.decode pattern = .ok bytes ∧
        e'.rules = e.rules ++ [⟨pattern, bytes, count, switches, givenAction action⟩]) ∧
      e'.after = if after ≠ 0 ∨ ∀ r ∈ e.rules, r.pattern = pattern then after else e.after := by
  have hnd := he.nodup
  refine ⟨set_eq_error_iff hnd pattern count after switches action, fun e' hset => ?_⟩
  obtain ⟨bytes, hv, rfl⟩ := set_eq_ok hset
  exact ⟨fun i r hr hp => rules_define_of_getElem? bytes count after switches action hnd hr hp,
    fun h => ⟨bytes, decode_of_validate hv, rules_define_of_forall_ne bytes count after switches action h⟩,
    after_define bytes count after switches action⟩

/-- A redefinition and two refusals on a line that holds rules: `"ok"` with a delay of five,
then a persistent `"go"`. Asking for `"ok"` again with a count redefines the first rule where it
stands and keeps the line's delay, since `"go"` is there; a second persistent `"go"` is refused,
and so is a nonzero delay for a new pattern while other rules are there. -/
theorem set_checks_then_defines_of_redefinition :
    let e₀ := Expectations.new "CONSOLE"
    let e₁ := (e₀.set "\"ok\"" 0 5 Switches.empty none).toOption.getD e₀
    let e := (e₁.set "\"go\"" 0 0 persistSwitch none).toOption.getD e₁
    e.Reach [] ∧
      ((∀ f, e.set "\"ok\"" 2 0 persistSwitch none = .error f ↔
        e.Refusal "\"ok\"" 0 persistSwitch f) ∧
      ∀ e', e.set "\"ok\"" 2 0 persistSwitch none = .ok e' →
        (∀ i r, e.rules[i]? = some r → r.pattern = "\"ok\"" →
          e'.rules = e.rules.set i
            { r with count := 2, switches := persistSwitch, action := givenAction none }) ∧
        ((∀ r ∈ e.rules, r.pattern ≠ "\"ok\"") → ∃ bytes, Text.Quoted.decode "\"ok\"" = .ok bytes ∧
          e'.rules = e.rules ++ [⟨"\"ok\"", bytes, 2, persistSwitch, givenAction none⟩]) ∧
        e'.after = if 0 ≠ 0 ∨ ∀ r ∈ e.rules, r.pattern = "\"ok\"" then 0 else e.after) ∧
      e.rules.map (·.pattern) = ["\"ok\"", "\"go\""] ∧ e.after = 5 ∧
      (e.set "\"ok\"" 2 0 persistSwitch none).toBool = true ∧
      e.set "\"go\"" 1 0 persistSwitch none = .error (.duplicatePersistentRule "\"go\"") ∧
      e.set "\"hi\"" 0 3 Switches.empty none = .error .haltAfterConflict := by
  intro e₀ e₁ e
  have h₁ : e₀.set "\"ok\"" 0 5 Switches.empty none = .ok e₁ := by decide +kernel
  have h₂ : e₁.set "\"go\"" 0 0 persistSwitch none = .ok e := by decide +kernel
  have he : e.Reach [] := ((Reach.new "CONSOLE").set _ _ _ _ _ h₁).set _ _ _ _ _ h₂
  exact ⟨he, set_checks_then_defines he "\"ok\"" 2 0 persistSwitch none, by decide +kernel,
    by decide +kernel, by decide +kernel, by decide +kernel, by decide +kernel⟩

end Expectations

end SimControl
