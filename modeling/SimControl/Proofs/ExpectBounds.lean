import SimControl.Proofs.ExpectWindow
/-!
# The match buffer is read and written inside its bounds

Feeding a byte to a line's expect rules writes the byte at the cursor and a terminator after
it, then compares every rule with the bytes before the cursor, and, for a rule that straddles
the point where the cursor went back to the start, with the bytes at the end of the buffer.
The buffer is a plain list here, so reading past its end gives no error; `WritesInBounds` and
`ReadsInBounds` say which positions those steps take, and that they lie inside the buffer.

In every state a line reaches (`Expectations.Reach`):

* `Reach.after_eq_zero`: a line with no rules keeps no halt-after delay;
* `Good.writesInBounds`, `Good.readsInBounds`: with rules, every position a fed byte writes
  or reads lies inside the buffer, whatever the byte;
* `buffer_in_bounds`: the shape of the buffer in both cases, and so the bounds.
-/

namespace SimControl

namespace Expectations

/-! ## What feeding a byte takes from the buffer -/

/-- The byte written at the cursor and the terminator after it both lie inside the buffer. -/
def WritesInBounds (e : Expectations) : Prop := e.ins + 1 < e.buf.length

/-- The ranges of the buffer that comparing a pattern at the cursor reads lie inside it. A
pattern longer than what was written since the cursor went back to the start is compared, once
the cursor has gone round, with the bytes before the cursor and with the last bytes of the
buffer, as many as its head is long; any other pattern with the bytes just before the cursor. -/
def ReadsInBounds (e : Expectations) (pattern : List UInt8) : Prop :=
  if e.ins < pattern.length then
    e.wrapped = true →
      e.ins ≤ e.buf.length ∧ pattern.length - e.ins ≤ e.bufSize ∧ e.bufSize ≤ e.buf.length
  else e.ins ≤ e.buf.length

/-- With rules, the shape of the buffer keeps the write at the cursor inside it. -/
theorem Good.writesInBounds {e : Expectations} (hg : e.Good) (hne : e.rules ≠ []) :
    e.WritesInBounds := by
  have hlen := hg.length_buf hne
  have hins := hg.ins_lt hne
  unfold WritesInBounds
  omega

/-- With rules, the shape of the buffer keeps every comparison a fed byte makes inside it: the
cursor is at most the size once the byte is written, and every rule is shorter than the
buffer. -/
theorem Good.readsInBounds {e : Expectations} (hg : e.Good) (hne : e.rules ≠ []) (b : UInt8)
    {r : ExpectRule} (hr : r ∈ e.rules) : (e.write b).ReadsInBounds r.matchBytes := by
  have hlen := hg.length_buf hne
  have hins := hg.ins_lt hne
  have hfit := hg.fits r hr
  unfold ReadsInBounds
  simp only [write_ins, write_wrapped, write_bufSize, write_buf, List.length_set]
  split
  · intro _
    omega
  · omega

/-- The rule a byte selects is one of the rules. -/
theorem select?_lt_length {e : Expectations} {b : UInt8} {i : Nat} (h : e.select? b = some i) :
    i < e.rules.length := by
  unfold select? at h
  simpa using (List.findIdx?_eq_some_iff_getElem.mp h).1

/-! ## A line without rules keeps nothing -/

/-- Once no rule is left the halt-after delay goes with the buffer. -/
theorem after_releaseIfUnused {e : Expectations} (h : (releaseIfUnused e).rules = []) :
    (releaseIfUnused e).after = 0 := by
  unfold releaseIfUnused at h ⊢
  split
  · rfl
  · rename_i hne
    rw [if_neg hne] at h
    simp [h] at hne

/-- Growing the buffer keeps the rules. -/
theorem fitBuffer_rules (e : Expectations) : e.fitBuffer.rules = e.rules := by
  unfold fitBuffer
  dsimp only
  split <;> rfl

/-- Defining a rule leaves the line with rules. -/
theorem define_rules_ne_nil (e : Expectations) (pattern : String) (bytes : List UInt8)
    (count after : Nat) (switches : Switches) (action : Option String) :
    (e.define pattern bytes count after switches action).rules ≠ [] := by
  unfold define
  rw [fitBuffer_rules]
  dsimp only
  split
  · rename_i hany
    obtain ⟨r, hr, -⟩ := List.any_eq_true.mp hany
    exact List.ne_nil_of_mem (List.mem_map_of_mem hr)
  · simp

/-- A response that leaves no rule has released the buffer, unless there were none to start
with. -/
theorem respond_after_eq_zero {e : Expectations} (hne : e.rules ≠ []) (sel : Option Nat)
    (h : (e.respond sel).2.rules = []) : (e.respond sel).2.after = 0 := by
  cases sel with
  | none => exact absurd h hne
  | some i =>
    simp only [Expectations.respond] at h ⊢
    split at h
    · exact absurd h hne
    · rename_i r hget
      split at h
      · rw [List.set_eq_nil_iff] at h
        exact absurd h hne
      · split at h
        · rename_i hcount hclear
          simp only [hcount, hclear, if_false, if_true]
          exact after_releaseIfUnused h
        · split at h
          · rename_i hcount hclear hpersist
            simp only [hcount, hclear, hpersist, if_false, if_true]
            exact after_releaseIfUnused h
          · exact absurd h hne

/-- A line with no rules keeps no halt-after delay, in every state a line reaches. -/
theorem Reach.after_eq_zero {e : Expectations} {fed : List UInt8} (he : e.Reach fed)
    (h : e.rules = []) : e.after = 0 := by
  induction he with
  | new line => rfl
  | set _ _ _ _ _ _ hset _ =>
    obtain ⟨bytes, -, rfl⟩ := set_eq_ok hset
    exact absurd h (define_rules_ne_nil _ _ _ _ _ _ _)
  | clear pattern _ _ => exact after_releaseIfUnused h
  | clearAll _ _ => exact after_releaseIfUnused h
  | @check e fed b _ ih =>
    unfold Expectations.check at h ⊢
    split
    · rename_i hnil
      rw [if_pos hnil] at h
      exact ih h
    · rename_i hne
      rw [if_neg hne] at h
      have hne' : (e.write b).wrapCursor.rules ≠ [] := by simpa using hne
      exact respond_after_eq_zero hne' _ h

/-! ## The buffer in every reachable state -/

/-- In every state a line reaches: with rules, the buffer holds `bufSize` bytes and a
terminator, the cursor lies before its end, and every rule is shorter than the buffer; with no
rules, the buffer, the cursor, the wrap flag and the halt-after delay are all cleared. So a fed
byte, whatever it is, is written and compared inside the buffer, and selects one of the
rules. -/
theorem buffer_in_bounds {e : Expectations} {fed : List UInt8} (he : e.Reach fed) :
    (e.rules ≠ [] →
      e.buf.length = e.bufSize + 1 ∧ e.ins < e.bufSize ∧
        ∀ r ∈ e.rules, r.matchBytes.length ≤ e.bufSize - 1) ∧
    (e.rules = [] → e.bufSize = 0 ∧ e.ins = 0 ∧ e.wrapped = false ∧ e.after = 0) ∧
    (e.rules ≠ [] → ∀ b : UInt8,
      e.WritesInBounds ∧ (∀ r ∈ e.rules, (e.write b).ReadsInBounds r.matchBytes) ∧
        ∀ i, e.select? b = some i → i < e.rules.length) := by
  have hg := he.good
  refine ⟨fun hne => ⟨hg.length_buf hne, hg.ins_lt hne, fun r hr => ?_⟩, fun h => ?_,
    fun hne b => ⟨hg.writesInBounds hne, fun r hr => hg.readsInBounds hne b hr,
      fun i hi => select?_lt_length hi⟩⟩
  · have := hg.fits r hr
    omega
  · obtain ⟨-, hsize, hins, hw⟩ := hg.released h
    exact ⟨hsize, hins, hw, he.after_eq_zero h⟩

/-- Rule `"ab"` after the output `x`, `y`, `a`: a buffer of three bytes and a terminator
that the cursor has gone round, back at the start. -/
theorem buffer_in_bounds_of_wrapped :
    let e₀ := Expectations.new "CONSOLE"
    let e₁ := (e₀.set "\"ab\"" 0 0 Switches.empty none).toOption.getD e₀
    let e := (((e₁.check 120).2.check 121).2.check 97).2
    e.Reach [120, 121, 97] ∧ e.rules ≠ [] ∧ e.wrapped = true ∧ e.bufSize = 3 ∧
      (e.rules ≠ [] →
        e.buf.length = e.bufSize + 1 ∧ e.ins < e.bufSize ∧
          ∀ r ∈ e.rules, r.matchBytes.length ≤ e.bufSize - 1) ∧
      (e.rules = [] → e.bufSize = 0 ∧ e.ins = 0 ∧ e.wrapped = false ∧ e.after = 0) ∧
      (e.rules ≠ [] → ∀ b : UInt8,
        e.WritesInBounds ∧ (∀ r ∈ e.rules, (e.write b).ReadsInBounds r.matchBytes) ∧
          ∀ i, e.select? b = some i → i < e.rules.length) := by
  intro e₀ e₁ e
  have hset : e₀.set "\"ab\"" 0 0 Switches.empty none = .ok e₁ := by decide +kernel
  have he : e.Reach [120, 121, 97] :=
    ((((Reach.new "CONSOLE").set _ _ _ _ _ hset).check_of_select?_eq_none (by decide +kernel)
      ).check_of_select?_eq_none (by decide +kernel)).check_of_select?_eq_none (by decide +kernel)
  exact ⟨he, by decide +kernel, by decide +kernel, by decide +kernel, buffer_in_bounds he⟩

end Expectations

end SimControl
