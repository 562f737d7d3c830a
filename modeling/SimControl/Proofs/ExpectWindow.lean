import Mathlib.Data.List.DropRight
import SimControl.Expect
/-!
# The match buffer is a sliding window

The expect rules of a line keep the line's recent output in a linear buffer whose cursor goes
back to the start when it reaches the end. `Expectations.window` reads the buffer as the output
it stands for, oldest byte first: the bytes from the cursor to the end and then those before
the cursor once the cursor has gone round, only those before the cursor until then.

The statements hold in every state a line reaches (`Expectations.Reach`), a state that also
records the output fed to the line since a rule was last selected:

* `select?_eq_firstEnding`: a byte selects the first rule, in the order the rules were defined,
  whose bytes end the window followed by that byte, and no rule if none does.
* `window_check`: after a byte the window is empty if a rule was selected; otherwise it is the
  last `bufSize` bytes of the window followed by that byte, except that its oldest byte is the
  terminator while the cursor is inside a buffer it has gone round. No rule is long enough to
  reach that byte. The terminator does stand in the window (`window_holds_terminator_after_wrap`),
  so the window is not always the last `bufSize` bytes of the output.
* `window_set_of_bufSize_eq`, `window_set_of_bufSize_lt`, `window_clear`: defining or removing
  rules keeps the window, except that a buffer that grows keeps only what was written since the
  cursor last went back to the start.
* `matchBytes_suffix_fed`: the bytes of a selected rule were all fed since the previous
  selection.
-/

namespace SimControl

namespace Expectations

/-! ## The window and the rule it selects -/

/-- The output the match buffer holds, oldest byte first. -/
def window (e : Expectations) : List UInt8 :=
  if e.wrapped then slice e.buf e.ins e.bufSize ++ slice e.buf 0 e.ins else slice e.buf 0 e.ins

/-- The first rule, in the order the rules were defined, whose bytes end `w`. -/
def firstEnding (e : Expectations) (w : List UInt8) : Option Nat :=
  e.rules.findIdx? fun r => r.matchBytes.isSuffixOf w

/-! ## Field lemmas -/

section Fields

variable (e : Expectations) (b : UInt8)

@[simp] theorem write_rules : (e.write b).rules = e.rules := rfl
@[simp] theorem write_bufSize : (e.write b).bufSize = e.bufSize := rfl
@[simp] theorem write_ins : (e.write b).ins = e.ins + 1 := rfl
@[simp] theorem write_wrapped : (e.write b).wrapped = e.wrapped := rfl
@[simp] theorem write_buf : (e.write b).buf = (e.buf.set e.ins b).set (e.ins + 1) 0 := rfl

@[simp] theorem wrapCursor_rules : e.wrapCursor.rules = e.rules := by
  unfold wrapCursor; split <;> rfl
@[simp] theorem wrapCursor_buf : e.wrapCursor.buf = e.buf := by
  unfold wrapCursor; split <;> rfl
@[simp] theorem wrapCursor_bufSize : e.wrapCursor.bufSize = e.bufSize := by
  unfold wrapCursor; split <;> rfl

end Fields

/-! ## Slices of the buffer -/

theorem slice_zero (l : List UInt8) (n : Nat) : slice l 0 n = l.take n := by
  simp [slice]

theorem drop_slice (l : List UInt8) (a b k : Nat) : (slice l a b).drop k = slice l (a + k) b := by
  simp only [slice, List.drop_take, List.drop_drop]
  congr 1
  omega

theorem length_slice (l : List UInt8) (a b : Nat) :
    (slice l a b).length = min (b - a) (l.length - a) := by
  simp [slice]

/-- Writing at the cursor leaves the buffer beyond the terminator alone. -/
theorem slice_write_buf {e : Expectations} (b : UInt8) {a : Nat} (ha : e.ins + 2 ≤ a) (c : Nat) :
    slice (e.write b).buf a c = slice e.buf a c := by
  simp only [slice, write_buf]
  rw [List.drop_set_of_lt (by omega), List.drop_set_of_lt (by omega)]

/-- The bytes before the cursor after a write are those before it and the byte written. -/
theorem take_write_buf {e : Expectations} (b : UInt8) (h : e.ins < e.buf.length) :
    (e.write b).buf.take (e.ins + 1) = e.buf.take e.ins ++ [b] := by
  rw [write_buf, List.take_set_of_le (Nat.le_refl _), List.take_add_one]
  simp [List.take_set_of_le, List.getElem?_set_self h]

/-! ## Suffixes of a joined list -/

theorem suffix_iff_drop {p l : List UInt8} :
    p <:+ l ↔ p.length ≤ l.length ∧ l.drop (l.length - p.length) = p := by
  constructor
  · intro h
    exact ⟨h.length_le, (List.suffix_iff_eq_drop.mp h).symm⟩
  · rintro ⟨-, h⟩
    exact List.suffix_iff_eq_drop.mpr h.symm

/-- A list no longer than the second part ends the join exactly when it ends that part. -/
theorem suffix_append_iff_of_le {p x y : List UInt8} (h : p.length ≤ y.length) :
    p <:+ x ++ y ↔ p <:+ y := by
  rw [suffix_iff_drop, suffix_iff_drop, List.length_append]
  have hk : x.length + y.length - p.length = x.length + (y.length - p.length) := by omega
  rw [hk, List.drop_length_add_append]
  constructor <;> rintro ⟨-, hd⟩ <;> exact ⟨by omega, hd⟩

/-- A list longer than the second part ends the join when its head ends the first part and
its tail is the second part. -/
theorem suffix_append_iff_of_lt {p x y : List UInt8} (h : y.length < p.length) :
    p <:+ x ++ y ↔
      p.take (p.length - y.length) <:+ x ∧ p.drop (p.length - y.length) = y := by
  constructor
  · rintro ⟨t, ht⟩
    have hlen := congrArg List.length ht
    simp only [List.length_append] at hlen
    obtain ⟨t₁, ht₁, hp⟩ : ∃ t₁, t ++ t₁ = x ∧ t₁ ++ y = p := by
      obtain ⟨t₁, ht₁⟩ := List.append_eq_append_iff.mp ht |>.resolve_right (by
        rintro ⟨c, rfl, -⟩
        simp at hlen
        omega)
      exact ⟨t₁, ht₁.1.symm, ht₁.2.symm⟩
    subst hp
    have hk : (t₁ ++ y).length - y.length = t₁.length := by simp
    rw [hk, List.take_left, List.drop_left]
    exact ⟨⟨t, ht₁⟩, rfl⟩
  · rintro ⟨⟨t, ht⟩, hd⟩
    have hp := List.take_append_drop (p.length - y.length) p
    rw [hd] at hp
    exact ⟨t, by rw [← ht, List.append_assoc, hp]⟩

/-- A list ending with the last `p.length` bytes before position `n`. -/
theorem suffix_take_iff {p l : List UInt8} {n : Nat} (hn : n ≤ l.length) (hp : p.length ≤ n) :
    p <:+ l.take n ↔ slice l (n - p.length) n = p := by
  rw [suffix_iff_drop, List.length_take, Nat.min_eq_left hn, List.drop_take]
  simp only [slice]
  constructor
  · rintro ⟨-, h⟩
    exact h
  · intro h
    exact ⟨hp, h⟩

theorem findIdx?_congr_of_mem {α : Type} {l : List α} {p q : α → Bool}
    (h : ∀ x ∈ l, p x = q x) : l.findIdx? p = l.findIdx? q := by
  induction l with
  | nil => rfl
  | cons x xs ih =>
    rw [List.findIdx?_cons, List.findIdx?_cons, h x List.mem_cons_self,
      ih fun y hy => h y (List.mem_cons_of_mem _ hy)]

/-! ## The shape of the buffer -/

/-- The shape of the match buffer: released while there are no rules, and otherwise `bufSize`
bytes and a terminator, longer than every rule's bytes, with the cursor inside it and the
terminator written at the cursor. -/
structure Good (e : Expectations) : Prop where
  released : e.rules = [] → e.buf = [] ∧ e.bufSize = 0 ∧ e.ins = 0 ∧ e.wrapped = false
  length_buf : e.rules ≠ [] → e.buf.length = e.bufSize + 1
  ins_lt : e.rules ≠ [] → e.ins < e.bufSize
  fits : ∀ r ∈ e.rules, r.matchBytes.length < e.bufSize
  terminator : 0 < e.ins → e.buf[e.ins]? = some 0

theorem good_new (line : String) : (Expectations.new line).Good where
  released _ := ⟨rfl, rfl, rfl, rfl⟩
  length_buf h := absurd rfl h
  ins_lt h := absurd rfl h
  fits _ h := absurd h List.not_mem_nil
  terminator h := absurd h (Nat.lt_irrefl 0)

/-- The window of a line with no rules is empty. -/
theorem Good.window_eq_nil {e : Expectations} (hg : e.Good) (h : e.rules = []) : e.window = [] := by
  obtain ⟨hbuf, -, hins, hw⟩ := hg.released h
  simp [window, hw, hins, hbuf, slice]

/-- Rules that fit the buffer can replace the rules of a line. -/
theorem Good.withRules {e : Expectations} {rs : List ExpectRule} (hg : e.Good)
    (hfit : ∀ r ∈ rs, r.matchBytes.length < e.bufSize) (hne : rs ≠ []) :
    ({ e with rules := rs } : Expectations).Good := by
  have he : e.rules ≠ [] := by
    intro h
    obtain ⟨r, hr⟩ := List.exists_mem_of_ne_nil rs hne
    have := hfit r hr
    rw [(hg.released h).2.1] at this
    omega
  exact ⟨fun h => absurd h hne, fun _ => hg.length_buf he, fun _ => hg.ins_lt he, hfit,
    hg.terminator⟩

/-- Rules that fit the buffer can replace the rules of a line, which lets the buffer go once no
rule is left. -/
theorem Good.release {e : Expectations} {rs : List ExpectRule} (hg : e.Good)
    (hfit : ∀ r ∈ rs, r.matchBytes.length < e.bufSize) :
    (releaseIfUnused { e with rules := rs }).Good := by
  by_cases hrs : rs = []
  · subst hrs
    exact ⟨fun _ => ⟨rfl, rfl, rfl, rfl⟩, fun h => absurd rfl h, fun h => absurd rfl h,
      fun _ h => absurd h List.not_mem_nil, fun h => absurd h (Nat.lt_irrefl 0)⟩
  · have hne : ¬ rs.isEmpty := by simpa using hrs
    simp only [releaseIfUnused, hne]
    exact hg.withRules hfit hrs

/-- Sending the cursor back to the start keeps the shape. -/
theorem Good.rewind {e : Expectations} (hg : e.Good) :
    ({ e with ins := 0, wrapped := false } : Expectations).Good where
  released h := ⟨(hg.released h).1, (hg.released h).2.1, rfl, rfl⟩
  length_buf := hg.length_buf
  ins_lt h := by
    obtain ⟨r, hr⟩ := List.exists_mem_of_ne_nil _ h
    have := hg.fits r hr
    simp only
    omega
  fits := hg.fits
  terminator h := absurd h (Nat.lt_irrefl 0)

private theorem le_foldl_max (l : List Nat) (a : Nat) :
    a ≤ l.foldl max a ∧ ∀ x ∈ l, x ≤ l.foldl max a := by
  induction l generalizing a with
  | nil => exact ⟨Nat.le_refl a, fun _ h => absurd h List.not_mem_nil⟩
  | cons y ys ih =>
    obtain ⟨hle, hmem⟩ := ih (max a y)
    refine ⟨Nat.le_trans (Nat.le_max_left a y) hle, ?_⟩
    intro x hx
    rcases List.mem_cons.mp hx with rfl | hx
    · exact Nat.le_trans (Nat.le_max_right a x) hle
    · exact hmem x hx

/-- New rules, with the buffer grown to fit them, keep the shape. -/
theorem Good.fitBuffer {e : Expectations} {rs : List ExpectRule} {a : Nat} (hg : e.Good)
    (hne : rs ≠ []) : (fitBuffer { e with rules := rs, after := a }).Good := by
  have hneed := (le_foldl_max (rs.map (·.matchBytes.length + 1)) 0).2
  obtain ⟨r₀, hr₀⟩ := List.exists_mem_of_ne_nil rs hne
  have h₀ := hneed _ (List.mem_map_of_mem hr₀)
  unfold Expectations.fitBuffer
  dsimp only
  split
  · rename_i hgrow
    -- the old buffer is empty or one byte longer than its size, and both fit in the new one
    have hshape : e.buf.length ≤ e.bufSize + 1 ∧ e.ins ≤ e.bufSize ∧
        (e.rules = [] → e.buf = [] ∧ e.ins = 0) := by
      by_cases he : e.rules = []
      · obtain ⟨hb, hs, hi, -⟩ := hg.released he
        simp [hb, hs, hi, he]
      · exact ⟨Nat.le_of_eq (hg.length_buf he), Nat.le_of_lt (hg.ins_lt he), fun h => absurd h he⟩
    refine ⟨fun h => absurd h hne, fun _ => ?_, fun _ => ?_, ?_, ?_⟩
    · simp only [List.length_append, List.length_replicate]
      omega
    · by_cases he : e.rules = []
      · simp only [(hshape.2.2 he).2]
        omega
      · exact Nat.lt_trans (hg.ins_lt he) hgrow
    · intro r hr
      have := hneed _ (List.mem_map_of_mem hr)
      simp only at this ⊢
      omega
    · intro hi
      have ht := hg.terminator hi
      have hlt : e.ins < e.buf.length := by
        rcases List.getElem?_eq_some_iff.mp ht with ⟨h, -⟩
        exact h
      simpa [List.getElem?_append_left hlt] using ht
  · rename_i hkeep
    have he : e.rules ≠ [] := by
      intro he
      rw [(hg.released he).2.1] at hkeep
      omega
    refine ⟨fun h => absurd h hne, fun _ => hg.length_buf he, fun _ => hg.ins_lt he, ?_,
      hg.terminator⟩
    intro r hr
    have := hneed _ (List.mem_map_of_mem hr)
    simp only at this ⊢
    omega

/-- Defining a rule keeps the shape. -/
theorem Good.define {e : Expectations} (hg : e.Good) (pattern : String) (bytes : List UInt8)
    (count after : Nat) (switches : Switches) (action : Option String) :
    (e.define pattern bytes count after switches action).Good := by
  unfold Expectations.define
  refine hg.fitBuffer ?_
  split
  · rename_i hany
    obtain ⟨r, hr, -⟩ := List.any_eq_true.mp hany
    exact List.ne_nil_of_mem (List.mem_map_of_mem hr)
  · simp

/-- A request to define a rule that succeeds defines it with the bytes its pattern stands for. -/
theorem set_eq_ok {e e' : Expectations} {pattern : String} {count after : Nat}
    {switches : Switches} {action : Option String}
    (h : e.set pattern count after switches action = .ok e') :
    ∃ bytes, e.validate pattern after switches = .ok bytes ∧
      e' = e.define pattern bytes count after switches action := by
  unfold Expectations.set at h
  cases hv : e.validate pattern after switches with
  | error f =>
    rw [hv] at h
    cases h
  | ok bytes =>
    rw [hv] at h
    exact ⟨bytes, rfl, (Except.ok.inj h).symm⟩

theorem Good.set {e e' : Expectations} (hg : e.Good) {pattern : String} {count after : Nat}
    {switches : Switches} {action : Option String}
    (h : e.set pattern count after switches action = .ok e') : e'.Good := by
  obtain ⟨bytes, -, rfl⟩ := set_eq_ok h
  exact hg.define pattern bytes count after switches action

theorem Good.clear {e : Expectations} (hg : e.Good) (pattern : String) : (e.clear pattern).Good :=
  hg.release fun r hr => hg.fits r (List.mem_filter.mp hr).1

theorem Good.clearAll {e : Expectations} (hg : e.Good) : e.clearAll.Good :=
  hg.release fun _ hr => absurd hr List.not_mem_nil

/-- Writing a byte and moving the cursor on, round to the start at the end, keeps the shape. -/
theorem Good.wrapCursor_write {e : Expectations} (hg : e.Good) (hne : e.rules ≠ []) (b : UInt8) :
    (e.write b).wrapCursor.Good := by
  have hlen := hg.length_buf hne
  have hins := hg.ins_lt hne
  unfold wrapCursor
  split
  · exact ⟨fun h => absurd h hne, fun _ => by simp [hlen], fun _ => by simp; omega, hg.fits,
      fun h => absurd h (Nat.lt_irrefl 0)⟩
  · rename_i hwrap
    refine ⟨fun h => absurd h hne, fun _ => by simp [hlen], fun _ => ?_, hg.fits, fun _ => ?_⟩
    · simp only [write_ins, write_bufSize] at hwrap ⊢
      omega
    · simp only [write_buf, write_ins]
      exact List.getElem?_set_self (by simp; omega)

/-- Whatever the selection, the response keeps the shape. -/
theorem Good.respond {e : Expectations} (hg : e.Good) (sel : Option Nat) :
    (e.respond sel).2.Good := by
  cases sel with
  | none => exact hg
  | some i =>
    have hr := hg.rewind
    simp only [Expectations.respond]
    split
    · exact hr
    · rename_i r hget
      have hmem : r ∈ e.rules := List.mem_of_getElem? hget
      split
      · refine hr.withRules (fun x hx => ?_) ?_
        · rcases List.mem_or_eq_of_mem_set hx with hx | rfl
          · exact hg.fits x hx
          · exact hg.fits r hmem
        · simpa using List.ne_nil_of_mem hmem
      · split
        · exact hr.release fun _ hx => absurd hx List.not_mem_nil
        · split
          · exact hr.release fun x hx => hg.fits x (List.mem_of_mem_eraseIdx hx)
          · exact hr

theorem Good.check {e : Expectations} (hg : e.Good) (b : UInt8) : (e.check b).2.Good := by
  unfold Expectations.check
  split
  · exact hg
  · rename_i hne
    exact (hg.wrapCursor_write (by simpa using hne) b).respond _

/-! ## Matching at the cursor is matching the end of the window -/

/-- A rule shorter than the buffer matches at the cursor, once a byte is written there, exactly
when its bytes end the window followed by that byte. Straddling the point where the cursor went
back to the start is the case of a rule longer than what was written since. -/
theorem matchesAtCursor_write {e : Expectations} (hg : e.Good) (hne : e.rules ≠ [])
    {p : List UInt8} (hp : p.length < e.bufSize) (b : UInt8) :
    (e.write b).matchesAtCursor p = p.isSuffixOf (e.window ++ [b]) := by
  have hlen := hg.length_buf hne
  have hins := hg.ins_lt hne
  have htake := take_write_buf (e := e) b (by omega)
  have hlenw : ((e.write b).buf).length = e.bufSize + 1 := by simp [hlen]
  -- the bytes written since the cursor went back to the start, with the new byte
  have hrecent : slice e.buf 0 e.ins ++ [b] = (e.write b).buf.take (e.ins + 1) := by
    rw [slice_zero, htake]
  rw [Bool.eq_iff_iff, List.isSuffixOf_iff_suffix]
  unfold matchesAtCursor
  dsimp only
  split
  · rename_i hshort
    simp only [write_ins] at hshort
    simp only [write_ins, write_wrapped, write_bufSize]
    cases hw : e.wrapped
    · simp only [Bool.false_and, window, hw, Bool.false_eq_true, if_false, false_iff]
      intro hs
      have := hs.length_le
      simp [length_slice] at this
      omega
    · simp only [Bool.true_and, Bool.and_eq_true, beq_iff_eq, window, hw, if_true]
      -- the head of the rule must end the part from the cursor to the end of the buffer
      have hY : ((e.write b).buf.take (e.ins + 1)).length = e.ins + 1 := by simp; omega
      have hX : (slice e.buf e.ins e.bufSize).length = e.bufSize - e.ins := by
        rw [length_slice]
        omega
      have hhead : p.take (p.length - (e.ins + 1)) <:+ slice e.buf e.ins e.bufSize ↔
          slice e.buf (e.bufSize - (p.length - (e.ins + 1))) e.bufSize =
            p.take (p.length - (e.ins + 1)) := by
        rw [suffix_iff_drop, drop_slice, hX, List.length_take,
          Nat.min_eq_left (Nat.sub_le _ _)]
        have hk : e.ins + (e.bufSize - e.ins - (p.length - (e.ins + 1))) =
            e.bufSize - (p.length - (e.ins + 1)) := by omega
        rw [hk]
        exact ⟨fun h => h.2, fun h => ⟨by omega, h⟩⟩
      rw [List.append_assoc, hrecent, suffix_append_iff_of_lt (by rw [hY]; omega), hY, hhead,
        slice_zero, slice_write_buf b (by omega)]
      exact ⟨fun ⟨h₁, h₂⟩ => ⟨h₂, h₁.symm⟩, fun ⟨h₂, h₁⟩ => ⟨h₁.symm, h₂⟩⟩
  · rename_i hshort
    simp only [write_ins] at hshort
    simp only [write_ins, beq_iff_eq]
    have hsuffix : p <:+ e.window ++ [b] ↔ p <:+ (e.write b).buf.take (e.ins + 1) := by
      unfold window
      split
      · rw [List.append_assoc, hrecent, suffix_append_iff_of_le (by simp; omega)]
      · rw [hrecent]
    rw [hsuffix, suffix_take_iff (by omega) (by omega)]

/-- A byte selects the first rule, in the order the rules were defined, whose bytes end the
window followed by that byte. -/
theorem select?_eq_firstEnding {e : Expectations} (hg : e.Good) (b : UInt8) :
    e.select? b = e.firstEnding (e.window ++ [b]) := by
  unfold select? firstEnding
  by_cases hne : e.rules = []
  · simp [hne]
  · exact findIdx?_congr_of_mem fun r hr => matchesAtCursor_write hg hne (hg.fits r hr) b

/-! ## How each operation moves the window -/

/-- A selection sends the cursor back to the start, whatever becomes of the rule. -/
theorem window_respond_some (e : Expectations) (i : Nat) : (e.respond (some i)).2.window = [] := by
  have hcursor : (e.respond (some i)).2.ins = 0 ∧ (e.respond (some i)).2.wrapped = false := by
    simp only [Expectations.respond]
    split
    · exact ⟨rfl, rfl⟩
    · split
      · exact ⟨rfl, rfl⟩
      · simp only [Expectations.clearAll, releaseIfUnused]
        split
        · exact ⟨rfl, rfl⟩
        · split
          · split <;> exact ⟨rfl, rfl⟩
          · exact ⟨rfl, rfl⟩
  simp [window, hcursor.1, hcursor.2, slice]

theorem slice_cons {l : List UInt8} {a c : Nat} (hac : a < c) (hl : a < l.length) :
    slice l a c = l[a] :: slice l (a + 1) c := by
  simp only [slice, List.drop_eq_getElem_cons hl]
  rw [show c - a = c - (a + 1) + 1 by omega, List.take_succ_cons]

/-- After a byte that selects nothing, the window is the last `bufSize` bytes of the window
followed by that byte, except that its oldest byte is the terminator while the cursor is inside
a buffer it has gone round. -/
theorem window_wrapCursor_write {e : Expectations} (hg : e.Good) (hne : e.rules ≠ []) (b : UInt8) :
    (e.write b).wrapCursor.window =
      if (e.write b).wrapCursor.wrapped ∧ 0 < (e.write b).wrapCursor.ins then
        0 :: ((e.window ++ [b]).rtake e.bufSize).tail
      else (e.window ++ [b]).rtake e.bufSize := by
  have hlen := hg.length_buf hne
  have hins := hg.ins_lt hne
  have hlen₁ : (e.write b).buf.length = e.bufSize + 1 := by simp [hlen]
  -- the bytes written since the cursor last went back to the start, with the new byte
  have hrecent : slice e.buf 0 e.ins ++ [b] = (e.write b).buf.take (e.ins + 1) := by
    rw [slice_zero, take_write_buf b (by omega)]
  have hYlen : ((e.write b).buf.take (e.ins + 1)).length = e.ins + 1 := by simp; omega
  -- the last `bufSize` bytes drop the oldest byte of a buffer the cursor went round
  have hlast : (e.window ++ [b]).rtake e.bufSize =
      (if e.wrapped then slice e.buf (e.ins + 1) e.bufSize else []) ++
        (e.write b).buf.take (e.ins + 1) := by
    unfold window
    split
    · have hXlen : (slice e.buf e.ins e.bufSize).length = e.bufSize - e.ins := by
        rw [length_slice]
        omega
      rw [List.append_assoc, hrecent, List.rtake, List.length_append, hXlen, hYlen,
        show e.bufSize - e.ins + (e.ins + 1) - e.bufSize = 1 by omega,
        List.drop_append_of_le_length (by omega), drop_slice]
    · rw [hrecent, List.rtake, hYlen, show e.ins + 1 - e.bufSize = 0 by omega, List.drop_zero,
        List.nil_append]
  -- after the write, the window is the part of the buffer the cursor has gone round, if any,
  -- and the bytes up to the cursor
  have hpost : (e.write b).wrapCursor.window =
      (if e.wrapped ∧ e.ins + 1 < e.bufSize then slice (e.write b).buf (e.ins + 1) e.bufSize
        else []) ++ (e.write b).buf.take (e.ins + 1) := by
    unfold wrapCursor window
    by_cases hS : e.ins + 1 = e.bufSize
    · simp only [write_ins, write_bufSize, hS, if_true, Nat.lt_irrefl, and_false, if_false,
        slice_zero, List.take_zero, List.append_nil, List.nil_append]
    · have hlt : e.ins + 1 < e.bufSize := by omega
      simp only [write_ins, write_bufSize, hS, if_false, write_wrapped, hlt, and_true, slice_zero]
      split <;> rfl
  have hcond : ((e.write b).wrapCursor.wrapped ∧ 0 < (e.write b).wrapCursor.ins) ↔
      (e.wrapped ∧ e.ins + 1 < e.bufSize) := by
    unfold wrapCursor
    split
    · rename_i hS
      simp only [write_ins, write_bufSize] at hS
      simp [hS]
    · rename_i hS
      simp only [write_ins, write_bufSize] at hS
      simp only [write_wrapped, write_ins]
      exact ⟨fun h => ⟨h.1, by omega⟩, fun h => ⟨h.1, by omega⟩⟩
  rw [hpost, hlast]
  by_cases hw : e.wrapped ∧ e.ins + 1 < e.bufSize
  · -- the oldest byte is the terminator just written after the cursor
    have hbound : e.ins + 1 < (e.write b).buf.length := by omega
    have hbyte : (e.write b).buf[e.ins + 1] = 0 := by
      simp [write_buf]
    rw [if_pos hw, if_pos (hcond.mpr hw), if_pos hw.1, slice_cons hw.2 (by omega), hbyte,
      slice_write_buf b (Nat.le_refl _), slice_cons hw.2 (by omega)]
    rfl
  · rw [if_neg hw, if_neg (mt hcond.mp hw)]
    by_cases hw' : e.wrapped
    · have hS : e.ins + 1 = e.bufSize := by
        by_contra h
        exact hw ⟨hw', by omega⟩
      rw [if_pos hw', hS]
      simp [slice]
    · rw [if_neg hw']

/-- A fed byte leaves the window empty if it selects a rule, and otherwise slides it on. -/
theorem window_check {e : Expectations} (hg : e.Good) (b : UInt8) :
    (e.check b).2.window =
      if (e.select? b).isSome then []
      else if (e.check b).2.wrapped ∧ 0 < (e.check b).2.ins then
        0 :: ((e.window ++ [b]).rtake e.bufSize).tail
      else (e.window ++ [b]).rtake e.bufSize := by
  unfold Expectations.check
  by_cases hne : e.rules = []
  · obtain ⟨-, hS, -, hw⟩ := hg.released hne
    have hsel : e.select? b = none := by simp [select?, hne]
    simp [hne, hsel, hw, hS, hg.window_eq_nil hne]
  · have hne' : e.rules.isEmpty = false := by simpa using hne
    simp only [hne', Bool.false_eq_true, if_false]
    cases hsel : e.select? b with
    | some i => simp [window_respond_some]
    | none => exact window_wrapCursor_write hg hne b

/-- Growing the buffer keeps what is in it, and nothing else changes when it does not grow. -/
theorem fitBuffer_cases (e : Expectations) :
    e.fitBuffer = e ∨
      (e.bufSize < e.fitBuffer.bufSize ∧ e.fitBuffer.ins = e.ins ∧ e.fitBuffer.wrapped = false ∧
        ∃ pad, e.fitBuffer.buf = e.buf ++ pad) := by
  unfold fitBuffer
  dsimp only
  split
  · rename_i hgrow
    exact .inr ⟨hgrow, rfl, rfl, _, rfl⟩
  · exact .inl rfl

/-- Defining a rule keeps the window while the buffer keeps its size. -/
theorem window_set_of_bufSize_eq {e e' : Expectations} {pattern : String} {count after : Nat}
    {switches : Switches} {action : Option String}
    (h : e.set pattern count after switches action = .ok e') (hs : e'.bufSize = e.bufSize) :
    e'.window = e.window := by
  obtain ⟨bytes, -, rfl⟩ := set_eq_ok h
  unfold Expectations.define at hs ⊢
  rcases fitBuffer_cases { e with rules := _, after := _ } with heq | ⟨hgrow, -⟩
  · rw [heq]
    rfl
  · rw [hs] at hgrow
    exact absurd hgrow (Nat.lt_irrefl _)

/-- A buffer that grows to fit a new rule keeps only the bytes written since the cursor last
went back to the start. -/
theorem window_set_of_bufSize_lt {e e' : Expectations} (hg : e.Good) {pattern : String}
    {count after : Nat} {switches : Switches} {action : Option String}
    (h : e.set pattern count after switches action = .ok e') (hs : e.bufSize < e'.bufSize) :
    e'.window = slice e.buf 0 e.ins := by
  obtain ⟨bytes, -, rfl⟩ := set_eq_ok h
  unfold Expectations.define at hs ⊢
  rcases fitBuffer_cases { e with rules := _, after := _ } with heq | ⟨-, hins, hw, pad, hbuf⟩
  · rw [heq] at hs
    exact absurd hs (Nat.lt_irrefl _)
  · have hle : e.ins ≤ e.buf.length := by
      by_cases he : e.rules = []
      · simp [(hg.released he).2.2.1]
      · have := hg.length_buf he
        have := hg.ins_lt he
        omega
    simp only [window, hw, Bool.false_eq_true, if_false, hins, hbuf, slice_zero]
    exact List.take_append_of_le_length hle

/-- Removing rules changes nothing else while rules are left. -/
theorem clear_eq_of_rules_ne_nil {e : Expectations} {pattern : String}
    (h : (e.clear pattern).rules ≠ []) :
    e.clear pattern = { e with rules := e.rules.filter (·.pattern != pattern) } := by
  have hr : (e.clear pattern).rules = e.rules.filter (·.pattern != pattern) := by
    unfold Expectations.clear releaseIfUnused
    split <;> rfl
  rw [hr] at h
  simp only [Expectations.clear, releaseIfUnused, List.isEmpty_iff, h, if_false]

/-- Removing a rule keeps the window while rules are left. -/
theorem window_clear {e : Expectations} {pattern : String} (h : (e.clear pattern).rules ≠ []) :
    (e.clear pattern).window = e.window := by
  rw [clear_eq_of_rules_ne_nil h]
  rfl

theorem window_clearAll (e : Expectations) : e.clearAll.window = [] := by
  simp [window, Expectations.clearAll, releaseIfUnused, slice]

/-! ## The output the window holds -/

/-- The states a line's expectations reach from a line with no rules, each with the output fed
to the line since a rule was last selected. -/
inductive Reach : Expectations → List UInt8 → Prop
  | new (line : String) : Reach (Expectations.new line) []
  | set {e e' : Expectations} {fed : List UInt8} (pattern : String) (count after : Nat)
      (switches : Switches) (action : Option String) :
      Reach e fed → e.set pattern count after switches action = .ok e' → Reach e' fed
  | clear {e : Expectations} {fed : List UInt8} (pattern : String) :
      Reach e fed → Reach (e.clear pattern) fed
  | clearAll {e : Expectations} {fed : List UInt8} : Reach e fed → Reach e.clearAll fed
  | check {e : Expectations} {fed : List UInt8} (byte : UInt8) :
      Reach e fed →
        Reach (e.check byte).2 (if (e.select? byte).isSome then [] else fed ++ [byte])

theorem Reach.good {e : Expectations} {fed : List UInt8} (he : e.Reach fed) : e.Good := by
  induction he with
  | new line => exact good_new line
  | set _ _ _ _ _ _ h ih => exact ih.set h
  | clear pattern _ ih => exact ih.clear pattern
  | clearAll _ ih => exact ih.clearAll
  | check byte _ ih => exact ih.check byte

/-- A byte that selects no rule adds itself to the output fed since the last selection. -/
theorem Reach.check_of_select?_eq_none {e : Expectations} {fed : List UInt8} (he : e.Reach fed)
    {b : UInt8} (h : e.select? b = none) : (e.check b).2.Reach (fed ++ [b]) := by
  simpa [h] using he.check b

/-- A buffer the cursor has gone round holds `bufSize` bytes of output. -/
theorem Good.length_window {e : Expectations} (hg : e.Good) (hw : e.wrapped = true) :
    e.window.length = e.bufSize := by
  have hne : e.rules ≠ [] := fun h => by simp [(hg.released h).2.2.2] at hw
  have hlen := hg.length_buf hne
  have hins := hg.ins_lt hne
  simp only [window, hw, if_true, List.length_append, length_slice]
  omega

/-- The window is output fed since the last selection, all but its oldest byte once the cursor
has gone round: that byte may be the terminator. -/
def Holds (e : Expectations) (fed : List UInt8) : Prop :=
  e.window.tail <:+ fed ∧ (e.wrapped = false → e.window <:+ fed)

/-- Whatever of the window and the next byte a rule or the buffer can take in was fed since the
last selection. -/
theorem Holds.suffix {e : Expectations} {fed : List UInt8} (hg : e.Good) (hh : e.Holds fed)
    {p : List UInt8} (hp : p.length ≤ e.bufSize) {b : UInt8} (hs : p <:+ e.window ++ [b]) :
    p <:+ fed ++ [b] := by
  cases hw : e.wrapped
  · exact hs.trans (List.suffix_append_self_iff.mpr (hh.2 hw))
  · have hlen := hg.length_window hw
    obtain ⟨w, ws, hW⟩ : ∃ w ws, e.window = w :: ws := by
      cases h : e.window with
      | nil =>
        rw [h] at hlen
        simp at hlen
        have hne : e.rules ≠ [] := fun h' => by simp [(hg.released h').2.2.2] at hw
        obtain ⟨r, hr⟩ := List.exists_mem_of_ne_nil _ hne
        have := hg.fits r hr
        omega
      | cons w ws => exact ⟨w, ws, rfl⟩
    rw [hW] at hs hlen
    have htail : ws = e.window.tail := by rw [hW]; rfl
    rw [List.cons_append, ← List.singleton_append,
      suffix_append_iff_of_le (by simp at hlen ⊢; omega), htail] at hs
    exact hs.trans (List.suffix_append_self_iff.mpr hh.1)

theorem Holds.of_window_eq_nil {e : Expectations} {fed : List UInt8} (h : e.window = []) :
    e.Holds fed := by
  simp [Holds, h]

/-- The window holds only output fed since the last selection, in every state a line reaches. -/
theorem Reach.holds {e : Expectations} {fed : List UInt8} (he : e.Reach fed) : e.Holds fed := by
  induction he with
  | new line => exact Holds.of_window_eq_nil rfl
  | @set e e' fed _ _ _ _ _ hr h ih =>
    have hg := hr.good
    rcases Nat.lt_or_ge e.bufSize e'.bufSize with hlt | hge
    · -- the buffer grew: what is left is the end of the old window
      have hwin := window_set_of_bufSize_lt hg h hlt
      have hsuf : slice e.buf 0 e.ins <:+ fed := by
        cases hw : e.wrapped
        · simpa [window, hw] using ih.2 hw
        · have hne : e.rules ≠ [] := fun h' => by simp [(hg.released h').2.2.2] at hw
          have hX : (slice e.buf e.ins e.bufSize).length = e.bufSize - e.ins := by
            rw [length_slice, hg.length_buf hne]
            omega
          have hX₀ : slice e.buf e.ins e.bufSize ≠ [] := by
            intro h0
            have := hg.ins_lt hne
            rw [h0] at hX
            simp at hX
            omega
          have htail : e.window.tail = (slice e.buf e.ins e.bufSize).tail ++ slice e.buf 0 e.ins := by
            simp only [window, hw, if_true]
            exact List.tail_append_of_ne_nil hX₀
          exact (List.suffix_append _ _).trans (htail ▸ ih.1)
      exact ⟨hwin ▸ (List.tail_suffix _).trans hsuf, fun _ => hwin ▸ hsuf⟩
    · -- the buffer kept its size: so did the window, and the cursor has not moved
      have hs : e'.bufSize = e.bufSize := by
        obtain ⟨bytes, -, rfl⟩ := set_eq_ok h
        unfold Expectations.define at hge ⊢
        rcases fitBuffer_cases { e with rules := _, after := _ } with heq | ⟨hgrow, -⟩
        · rw [heq]
        · exact absurd hge (Nat.not_le.mpr hgrow)
      have hwr : e'.wrapped = e.wrapped := by
        obtain ⟨bytes, -, rfl⟩ := set_eq_ok h
        unfold Expectations.define at hs ⊢
        rcases fitBuffer_cases { e with rules := _, after := _ } with heq | ⟨hgrow, -⟩
        · rw [heq]
        · rw [hs] at hgrow
          exact absurd hgrow (Nat.lt_irrefl _)
      rw [Holds, window_set_of_bufSize_eq h hs, hwr]
      exact ih
  | @clear e fed pattern hr ih =>
    by_cases h : (e.clear pattern).rules = []
    · exact Holds.of_window_eq_nil ((hr.good.clear pattern).window_eq_nil h)
    · have hwr : (e.clear pattern).wrapped = e.wrapped := by
        rw [clear_eq_of_rules_ne_nil h]
      rw [Holds, window_clear h, hwr]
      exact ih
  | clearAll _ _ => exact Holds.of_window_eq_nil (window_clearAll _)
  | @check e fed b hr ih =>
    have hg := hr.good
    rw [select?_eq_firstEnding hg b]
    split
    · rename_i hsel
      have : (e.check b).2.window = [] := by
        rw [window_check hg b, select?_eq_firstEnding hg b, if_pos hsel]
      exact Holds.of_window_eq_nil this
    · rename_i hsel
      -- the window slides on: its last `bufSize` bytes with the new one were all fed
      have hlast : (e.window ++ [b]).rtake e.bufSize <:+ fed ++ [b] :=
        ih.suffix hg (by simp [List.rtake]; omega) (List.drop_suffix _ _)
      have hwin := window_check hg b
      rw [select?_eq_firstEnding hg b, if_neg hsel] at hwin
      constructor
      · rw [hwin]
        split
        · exact (List.tail_suffix ((e.window ++ [b]).rtake e.bufSize)).trans hlast
        · exact (List.tail_suffix _).trans hlast
      · intro hw
        rw [hwin, if_neg (by simp [hw])]
        exact hlast

/-- The bytes of a selected rule were all fed since the previous selection: nothing fed at or
before a selection takes part in a later one. -/
theorem matchBytes_suffix_fed {e : Expectations} {fed : List UInt8} (he : e.Reach fed) {b : UInt8}
    {i : Nat} (hsel : e.firstEnding (e.window ++ [b]) = some i) :
    ∃ r, e.rules[i]? = some r ∧ r.matchBytes <:+ fed ++ [b] := by
  have hg := he.good
  have hspec := List.of_findIdx?_eq_some hsel
  cases hr : e.rules[i]? with
  | none => simp [hr] at hspec
  | some r =>
    simp only [hr, List.isSuffixOf_iff_suffix] at hspec
    exact ⟨r, rfl, he.holds.suffix hg
      (Nat.le_of_lt (hg.fits r (List.mem_of_getElem? hr))) hspec⟩

/-! ## The buffer is a sliding window -/

/-- In every state a line reaches, its match buffer acts as a sliding window over the output fed
since the last selection. A byte makes the first rule whose bytes end the window followed by that
byte count down or fire, and no rule if none does. Afterwards the window is empty if a rule was
selected; otherwise it slides on by that byte and keeps `bufSize` bytes, the oldest of which is
the terminator while the cursor is inside a buffer it has gone round. The bytes of a selected
rule were all fed since the previous selection. Defining and removing rules keeps the window,
except that a buffer that grows keeps only what was written since the cursor last went back to
the start, and a line without rules has an empty window. -/
theorem check_selects_first_rule_ending_window {e : Expectations} {fed : List UInt8}
    (he : e.Reach fed) (b : UInt8) :
    e.check b = (if e.rules.isEmpty then (none, e)
      else (e.write b).wrapCursor.respond (e.firstEnding (e.window ++ [b]))) ∧
    (e.check b).2.window =
      (if (e.firstEnding (e.window ++ [b])).isSome then []
      else if (e.check b).2.wrapped ∧ 0 < (e.check b).2.ins then
        0 :: ((e.window ++ [b]).rtake e.bufSize).tail
      else (e.window ++ [b]).rtake e.bufSize) ∧
    (∀ i, e.firstEnding (e.window ++ [b]) = some i →
      ∃ r, e.rules[i]? = some r ∧ r.matchBytes <:+ fed ++ [b]) ∧
    (e.rules = [] → e.window = []) ∧
    (∀ pattern count after switches action e',
      e.set pattern count after switches action = .ok e' →
        (e'.bufSize = e.bufSize → e'.window = e.window) ∧
        (e.bufSize < e'.bufSize → e'.window = slice e.buf 0 e.ins)) ∧
    (∀ pattern, (e.clear pattern).rules ≠ [] → (e.clear pattern).window = e.window) ∧
    e.clearAll.window = [] := by
  have hg := he.good
  refine ⟨?_, ?_, fun i hsel => matchBytes_suffix_fed he hsel, hg.window_eq_nil,
    fun _ _ _ _ _ _ h => ⟨window_set_of_bufSize_eq h, window_set_of_bufSize_lt hg h⟩,
    fun _ h => window_clear h, window_clearAll e⟩
  · rw [← select?_eq_firstEnding hg b]
    rfl
  · rw [← select?_eq_firstEnding hg b]
    exact window_check hg b

/-- Rule `"ab"` after the output `x`, `y`, `a`: the cursor has gone round a buffer of three
bytes, and `b` selects the rule across the point where it went back to the start. -/
theorem check_selects_first_rule_ending_window_of_straddle :
    let e₀ := Expectations.new "CONSOLE"
    let e₁ := (e₀.set "\"ab\"" 0 0 Switches.empty none).toOption.getD e₀
    let e := (((e₁.check 120).2.check 121).2.check 97).2
    e.Reach [120, 121, 97] ∧ e.wrapped = true ∧ e.firstEnding (e.window ++ [98]) = some 0 ∧
      (e.check 98 = (if e.rules.isEmpty then (none, e)
        else (e.write 98).wrapCursor.respond (e.firstEnding (e.window ++ [98]))) ∧
      (e.check 98).2.window =
        (if (e.firstEnding (e.window ++ [98])).isSome then []
        else if (e.check 98).2.wrapped ∧ 0 < (e.check 98).2.ins then
          0 :: ((e.window ++ [98]).rtake e.bufSize).tail
        else (e.window ++ [98]).rtake e.bufSize) ∧
      (∀ i, e.firstEnding (e.window ++ [98]) = some i →
        ∃ r, e.rules[i]? = some r ∧ r.matchBytes <:+ [120, 121, 97] ++ [98]) ∧
      (e.rules = [] → e.window = []) ∧
      (∀ pattern count after switches action e',
        e.set pattern count after switches action = .ok e' →
          (e'.bufSize = e.bufSize → e'.window = e.window) ∧
          (e.bufSize < e'.bufSize → e'.window = slice e.buf 0 e.ins)) ∧
      (∀ pattern, (e.clear pattern).rules ≠ [] → (e.clear pattern).window = e.window) ∧
      e.clearAll.window = []) := by
  intro e₀ e₁ e
  have hset : e₀.set "\"ab\"" 0 0 Switches.empty none = .ok e₁ := by decide +kernel
  have he : e.Reach [120, 121, 97] :=
    ((((Reach.new "CONSOLE").set _ _ _ _ _ hset).check_of_select?_eq_none (by decide +kernel)
      ).check_of_select?_eq_none (by decide +kernel)).check_of_select?_eq_none (by decide +kernel)
  exact ⟨he, by decide +kernel, by decide +kernel, check_selects_first_rule_ending_window he 98⟩

/-- The window is not always the last `bufSize` bytes of the output: with rule `"ab"`, after
`x`, `y`, `z` the cursor has gone round a buffer of three bytes, and after `w` the window holds
the terminator written behind `w` in place of `y`. -/
theorem window_holds_terminator_after_wrap :
    let e₀ := Expectations.new "CONSOLE"
    let e₁ := (e₀.set "\"ab\"" 0 0 Switches.empty none).toOption.getD e₀
    let e := (((e₁.check 120).2.check 121).2.check 122).2
    e.Reach [120, 121, 122] ∧ e.rules.map (·.matchBytes) = [[97, 98]] ∧ e.bufSize = 3 ∧
      e.window = [120, 121, 122] ∧ e.select? 119 = none ∧
      (e.check 119).2.window = [0, 122, 119] ∧
      (e.window ++ [119]).rtake e.bufSize = [121, 122, 119] := by
  intro e₀ e₁ e
  have hset : e₀.set "\"ab\"" 0 0 Switches.empty none = .ok e₁ := by decide +kernel
  have he : e.Reach [120, 121, 122] :=
    ((((Reach.new "CONSOLE").set _ _ _ _ _ hset).check_of_select?_eq_none (by decide +kernel)
      ).check_of_select?_eq_none (by decide +kernel)).check_of_select?_eq_none (by decide +kernel)
  exact ⟨he, by decide +kernel, by decide +kernel, by decide +kernel, by decide +kernel,
    by decide +kernel, by decide +kernel⟩

end Expectations

end SimControl
