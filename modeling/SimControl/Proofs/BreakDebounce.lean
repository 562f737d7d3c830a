import Mathlib.Data.List.Nodup
import SimControl.Proofs.BreakTableShape
/-!
# A breakpoint matches once per instant

Each breakpoint record remembers, for each of the eight debounce spaces, the instant at which a
test last selected it, and a test passes over a record already selected in its space at its
instant. Within one table a record is known by its address and its types (`shape_invariants`),
so `find?` follows it from one table to the next.

* `find?_test`: a test that selects a record stamps it in the test's space with the test's
  instant, counts it down or removes it, and changes no other record.
* `firedAt_apply`, `firedAt_run`: a record's stamp in a space changes only when the space is
  forgotten (`clearSpace` with types that cover the record, or `newPc` over the space) or a
  test in that space selects the record.
* `refreshed_of_selected_again`: a record stamped at an instant and kept through a run is
  selected again in that space at that instant only if the run refreshed it: reset the space
  for it, or selected it there at another instant.
* `test_debounces`: so two tests in one space at one instant select one record twice only if
  such a refresh came between them; when the instants of tests never go back, only a reset
  can.

The stamp holds one instant, so the last selection overwrites it: a record selected at 10 and
then at 11 is selected again at 10 (`reselected_at_earlier_instant`). Simulated time never goes
back, which is what makes this stamp enough.
-/

namespace SimControl

/-! ## Match times -/

namespace BreakRecord

theorem firedAt_stamp_self (r : BreakRecord) {s : Nat} (hs : s < 8) (t : Option Int) :
    (r.stamp s t).firedAt s = t := by
  simp [firedAt, stamp, hs]

theorem firedAt_stamp_ne (r : BreakRecord) {i s : Nat} (h : i ≠ s) (t : Option Int) :
    (r.stamp i t).firedAt s = r.firedAt s := by
  simp [firedAt, stamp, Vector.getElem?_setIfInBounds_ne h]

/-- Forgetting the match times of a list of spaces. -/
theorem firedAt_foldl_stamp_none (spaces : List Nat) (r : BreakRecord) (s : Nat) :
    (spaces.foldl (fun r i => r.stamp i none) r).firedAt s =
      if s ∈ spaces then none else r.firedAt s := by
  induction spaces generalizing r with
  | nil => rfl
  | cons i rest ih =>
    rw [List.foldl_cons, ih]
    by_cases hs : s ∈ rest
    · simp [hs]
    · by_cases hi : i = s
      · subst hi
        by_cases h8 : i < 8
        · simp [hs, firedAt_stamp_self _ h8]
        · -- there is no such space: nothing was ever stamped there
          simp [hs, firedAt, Nat.le_of_not_lt h8]
      · simp [hs, Ne.symm hi, firedAt_stamp_ne _ hi]

end BreakRecord

/-- The space of a set of types is one of the eight, being its top three bits. -/
theorem BreakTypes.space_lt (types : BreakTypes) : types.space < 8 := by
  have h := types.bits.toNat_lt
  have h29 : (29 : UInt32).toNat % 32 = 29 := rfl
  simp only [BreakTypes.space, UInt32.toNat_shiftRight, h29, Nat.shiftRight_eq_div_pow]
  omega

namespace BreakTable

/-! ## Runs of table operations -/

/-- An operation on the breakpoint table, as the machine and the command loop issue them. -/
inductive Op where
  | set (a : Address) (types : BreakTypes) (count : Nat) (action : Option String)
  | clear (a : Address) (types : BreakTypes)
  | clearAll (types : BreakTypes)
  | test (a : Address) (types : BreakTypes) (now : Int)
  | clearSpace (space : Nat) (types : BreakTypes)
  | newPc (spaces : Nat)
  | init

/-- The table after an operation; a refused set leaves it as it was. -/
def apply (b : BreakTable) : Op → BreakTable
  | .set a types count action => (b.set a types count action).toOption.getD b
  | .clear a types => b.clear a types
  | .clearAll types => b.clearAll types
  | .test a types now => (b.test a types now).2
  | .clearSpace space types => b.clearSpace space types
  | .newPc spaces => b.newPc spaces
  | .init => b.init

/-- The table after a run of operations. -/
def run (b : BreakTable) (ops : List Op) : BreakTable := ops.foldl apply b

@[simp] theorem run_nil (b : BreakTable) : b.run [] = b := rfl

@[simp] theorem run_cons (b : BreakTable) (op : Op) (ops : List Op) :
    b.run (op :: ops) = (b.apply op).run ops := rfl

theorem Reach.apply {b : BreakTable} (hb : b.Reach) (op : Op) : (b.apply op).Reach := by
  cases op with
  | set a types count action => exact .set a types count action hb
  | clear a types => exact .clear a types hb
  | clearAll types => exact .clearAll types hb
  | test a types now => exact .test a types now hb
  | clearSpace space types => exact .clearSpace space types hb
  | newPc spaces => exact .newPc spaces hb
  | init => exact .init hb

theorem Reach.run {b : BreakTable} (hb : b.Reach) (ops : List Op) : (b.run ops).Reach := by
  induction ops generalizing b with
  | nil => exact hb
  | cons op ops ih => exact ih (hb.apply op)

/-! ## What a test selects -/

/-- The types a test looks for: those asked for without their space, and the dynamic types
while the table holds any. -/
def testedTypes (b : BreakTable) (types : BreakTypes) : BreakTypes :=
  if b.summary.intersects BreakTypes.dynamic then types.withoutSpace.union BreakTypes.dynamic
  else types.withoutSpace

/-- The record a test selects: the first at the address with some of the tested types that has
not matched in the test's space at the test's instant. -/
def selected? (b : BreakTable) (a : Address) (types : BreakTypes) (now : Int) :
    Option BreakRecord :=
  (b.at? a).find? (selects (b.testedTypes types) true types.space now)

/-- How many spaces a new program counter forgets. -/
def newPcSpaces (spaces : Nat) : Nat := if spaces = 0 ∨ 8 < spaces then 8 else spaces

/-- An operation that forgets when records of types `T` matched in a space: `clearSpace` for
that space with no types or some of `T`, or `newPc` over that space. -/
def Op.Resets (T : BreakTypes) (space : Nat) : Op → Prop
  | .clearSpace s types => s = space ∧ (types.isEmpty = true ∨ types.intersects T = true)
  | .newPc spaces => space < newPcSpaces spaces
  | _ => False

/-- An operation after which the record of types `T` at `a` may be selected again in a space at
instant `now`: one that resets the space, or a test in that space at another instant that
selects the record. -/
def Op.Refreshes (b : BreakTable) (a : Address) (T : BreakTypes) (space : Nat) (now : Int)
    (op : Op) : Prop :=
  op.Resets T space ∨
    ∃ types now', op = .test a types now' ∧ types.space = space ∧ now' ≠ now ∧
      (b.selected? a types now').map (·.types) = some T

/-- Some operation of a run refreshes the record of types `T` at `a`, in the table it meets. -/
def RefreshedIn (b : BreakTable) (a : Address) (T : BreakTypes) (space : Nat) (now : Int) :
    List Op → Prop
  | [] => False
  | op :: ops => op.Refreshes b a T space now ∨ RefreshedIn (b.apply op) a T space now ops

/-- The record of types `T` at `a` is in the table before and after every operation of a run. -/
def KeptIn (b : BreakTable) (a : Address) (T : BreakTypes) : List Op → Prop
  | [] => (b.find? a T).isSome
  | op :: ops => (b.find? a T).isSome ∧ KeptIn (b.apply op) a T ops

/-- A record kept through a run is there before the run. -/
theorem KeptIn.isSome {b : BreakTable} {a : Address} {T : BreakTypes} :
    {ops : List Op} → KeptIn b a T ops → (b.find? a T).isSome
  | [], h => h
  | _ :: _, h => h.1

/-! ## The record of given types in a chain -/

section Chain

variable {l : List BreakRecord} {T : BreakTypes}

/-- Changing records without touching their types keeps which one has given types. -/
theorem find?_types_map {g : BreakRecord → BreakRecord} (hg : ∀ r, (g r).types = r.types)
    (l : List BreakRecord) (T : BreakTypes) :
    (l.map g).find? (·.types == T) = (l.find? (·.types == T)).map g := by
  rw [List.find?_map]
  congr 2
  funext r
  simp [hg]

/-- Dropping the records whose types fail a test keeps the record of types `T` exactly when
`T` passes it. -/
theorem find?_types_filter (q : BreakTypes → Bool) (l : List BreakRecord) (T : BreakTypes) :
    (l.filter fun r => q r.types).find? (·.types == T) =
      if q T then l.find? (·.types == T) else none := by
  rw [List.find?_filter]
  split
  · rename_i hq
    congr 1
    funext r
    by_cases hr : r.types = T <;> simp [hr, hq]
  · rename_i hq
    rw [List.find?_eq_none]
    intro r _ h
    simp only [decide_eq_true_eq, beq_iff_eq] at h
    rw [h.2] at h
    exact hq h.1

/-- Updating the first record that passes a test, keeping types and match times, keeps the
match times of the record of types `T`. -/
theorem timeFired_find?_updateFirst {p : BreakRecord → Bool} {f : BreakRecord → BreakRecord}
    (hf : ∀ r, (f r).types = r.types ∧ (f r).timeFired = r.timeFired) (l : List BreakRecord)
    (T : BreakTypes) :
    ((updateFirst p f l).find? (·.types == T)).map (·.timeFired) =
      (l.find? (·.types == T)).map (·.timeFired) := by
  induction l with
  | nil => rfl
  | cons x rest ih =>
    rw [updateFirst]
    split
    · by_cases hx : x.types = T
      · simp [hx, (hf x).1, (hf x).2]
      · simp [hx, (hf x).1]
    · by_cases hx : x.types = T
      · simp [hx]
      · simp [hx, ih]

/-- In a chain of distinct types, two positions holding records of the same types are one. -/
theorem eq_of_types_eq (hnd : (l.map (·.types)).Nodup) {i j : Nat} {x y : BreakRecord}
    (hi : l[i]? = some x) (hj : l[j]? = some y) (h : x.types = y.types) : i = j := by
  obtain ⟨hil, rfl⟩ := List.getElem?_eq_some_iff.mp hi
  obtain ⟨hjl, rfl⟩ := List.getElem?_eq_some_iff.mp hj
  have hil' : i < (l.map (·.types)).length := by simpa using hil
  have hjl' : j < (l.map (·.types)).length := by simpa using hjl
  have heq : (l.map (·.types))[i] = (l.map (·.types))[j] := by simpa using h
  exact hnd.getElem_inj_iff.mp heq

/-- In a chain of distinct types, the record of types `T` is the one at any position with
those types. -/
theorem find?_types_of_nodup (hnd : (l.map (·.types)).Nodup) {i : Nat} {r : BreakRecord}
    (hi : l[i]? = some r) (hT : r.types = T) : l.find? (·.types == T) = some r := by
  rw [List.find?_eq_some_iff_getElem]
  obtain ⟨hlt, rfl⟩ := List.getElem?_eq_some_iff.mp hi
  refine ⟨by simp [hT], i, hlt, rfl, fun j hj => ?_⟩
  -- an earlier record with the same types would repeat them
  have hne : l[j].types ≠ T := by
    intro hjT
    have := eq_of_types_eq hnd (List.getElem?_eq_getElem (by omega)) hi (hjT.trans hT.symm)
    omega
  simpa using hne

/-- A position whose record has other types than `T`, before and after it is replaced, does
not change which record has types `T`. -/
theorem find?_types_set_of_ne {i : Nat} {y x : BreakRecord} (hi : l[i]? = some y)
    (hy : y.types ≠ T) (hx : x.types = y.types) :
    (l.set i x).find? (·.types == T) = l.find? (·.types == T) := by
  induction l generalizing i with
  | nil => simp at hi
  | cons z rest ih =>
    cases i with
    | zero =>
      simp only [List.getElem?_cons_zero, Option.some.injEq] at hi
      subst hi
      simp [hy, hx]
    | succ i =>
      simp only [List.getElem?_cons_succ] at hi
      simp only [List.set_cons_succ, List.find?_cons, ih hi]

/-- Removing a record with other types than `T` does not change which record has types `T`. -/
theorem find?_types_eraseIdx_of_ne {i : Nat} {y : BreakRecord} (hi : l[i]? = some y)
    (hy : y.types ≠ T) : (l.eraseIdx i).find? (·.types == T) = l.find? (·.types == T) := by
  induction l generalizing i with
  | nil => simp at hi
  | cons z rest ih =>
    cases i with
    | zero =>
      simp only [List.getElem?_cons_zero, Option.some.injEq] at hi
      subst hi
      simp [hy]
    | succ i =>
      simp only [List.getElem?_cons_succ] at hi
      simp only [List.eraseIdx_cons_succ, List.find?_cons, ih hi]

/-- In a chain of distinct types, removing the record of types `T` leaves none. -/
theorem find?_types_eraseIdx_of_nodup (hnd : (l.map (·.types)).Nodup) {i : Nat}
    {y : BreakRecord} (hi : l[i]? = some y) (hy : y.types = T) :
    (l.eraseIdx i).find? (·.types == T) = none := by
  rw [List.find?_eq_none]
  intro r hr hrT
  simp only [beq_iff_eq] at hrT
  obtain ⟨j, hji, hj⟩ := List.mem_eraseIdx_iff_getElem?.mp hr
  exact hji (eq_of_types_eq hnd hj hi (hrT.trans hy.symm))

/-- In a chain of distinct types, replacing the record of types `T` by one of the same types
makes it the one found. -/
theorem find?_types_set_self (hnd : (l.map (·.types)).Nodup) {i : Nat} {y x : BreakRecord}
    (hi : l[i]? = some y) (hy : y.types = T) (hx : x.types = y.types) :
    (l.set i x).find? (·.types == T) = some x := by
  have hnd' : ((l.set i x).map (·.types)).Nodup := by
    rw [map_set_of_getElem? (·.types) hi hx]
    exact hnd
  have hlt : i < l.length := (List.getElem?_eq_some_iff.mp hi).1
  exact find?_types_of_nodup hnd' (List.getElem?_set_self hlt) (hx.trans hy)

end Chain

/-! ## Following a record of given types through each operation -/

section Follow

variable {b : BreakTable} {a a' : Address} {T : BreakTypes}

theorem find?_eq (b : BreakTable) (a : Address) (T : BreakTypes) :
    b.find? a T = (b.at? a).find? (·.types == T.withoutSpace) := rfl

theorem at?_withChain (b : BreakTable) (a a' : Address) (rs : List BreakRecord) :
    (b.withChain a rs).at? a' = if a = a' then rs else b.at? a' := by
  rw [at?_eq, at?_eq, getElem?_withChain]
  split
  · split
    · rename_i h
      cases rs with
      | nil => rfl
      | cons _ _ => simp at h
    · rfl
  · rfl

/-- Replacing the records of an address changes only what is found there. -/
theorem find?_withChain (b : BreakTable) (a a' : Address) (rs : List BreakRecord) (T : BreakTypes) :
    (b.withChain a rs).find? a' T =
      if a = a' then rs.find? (·.types == T.withoutSpace) else b.find? a' T := by
  rw [find?_eq, at?_withChain]
  split <;> rfl

/-- Changing every record without touching its types keeps which record is found, changed. -/
theorem find?_mapRecords (b : BreakTable) {g : BreakRecord → BreakRecord}
    (hg : ∀ r, (g r).types = r.types) (a : Address) (T : BreakTypes) :
    ({ b with chains := b.chains.map fun _ (rs : List BreakRecord) => rs.map g } : BreakTable).find? a T =
      (b.find? a T).map g := by
  rw [find?_eq, find?_eq, at?_eq, at?_eq]
  show (((b.chains.map fun _ (rs : List BreakRecord) => rs.map g)[a]?).getD []).find? _ = _
  rw [Std.TreeMap.getElem?_map]
  cases b.chains[a]? with
  | none => rfl
  | some rs => exact find?_types_map hg rs _

theorem at?_clear (b : BreakTable) (a a' : Address) (types : BreakTypes) :
    (b.clear a types).at? a' =
      if a = a' then (b.at? a).filter fun r => !r.types.intersects (clearMask types)
      else b.at? a' := by
  unfold clear
  dsimp only
  split
  · exact at?_withChain _ _ _ _
  · rename_i hc
    -- an address without records has none to filter
    have hnone : b.at? a = [] :=
      Std.TreeMap.getD_eq_fallback_of_contains_eq_false (Bool.eq_false_iff.mpr hc)
    split
    · rename_i h
      subst h
      show b.at? a = _
      rw [hnone]
      rfl
    · rfl

theorem at?_clearAll (b : BreakTable) (a : Address) (types : BreakTypes) :
    (b.clearAll types).at? a = (b.at? a).filter fun r => !r.types.intersects (clearMask types) := by
  unfold clearAll
  dsimp only
  show (({ b with chains := _ } : BreakTable).at? a) = _
  rw [at?_eq, at?_eq]
  show ((b.chains.filterMap _)[a]?).getD [] = _
  rw [Std.TreeMap.getElem?_filterMap']
  cases b.chains[a]? with
  | none => rfl
  | some rs =>
    simp only [Option.bind_some, Option.getD_some]
    split
    · rename_i h
      simp only [Option.getD_none]
      exact (List.isEmpty_iff.mp h).symm
    · rfl

theorem find?_clear (b : BreakTable) (a a' : Address) (types T : BreakTypes) :
    (b.clear a types).find? a' T =
      if a = a' ∧ T.withoutSpace.intersects (clearMask types) = true then none
      else b.find? a' T := by
  rw [find?_eq, at?_clear]
  by_cases ha : a = a'
  · subst ha
    rw [if_pos rfl, find?_types_filter (fun ty => !ty.intersects (clearMask types))]
    by_cases h : T.withoutSpace.intersects (clearMask types) = true <;> simp [h, find?_eq]
  · rw [if_neg ha, if_neg fun h => ha h.1]
    rfl

theorem find?_clearAll (b : BreakTable) (a : Address) (types T : BreakTypes) :
    (b.clearAll types).find? a T =
      if T.withoutSpace.intersects (clearMask types) = true then none else b.find? a T := by
  rw [find?_eq, at?_clearAll, find?_types_filter (fun ty => !ty.intersects (clearMask types))]
  by_cases h : T.withoutSpace.intersects (clearMask types) = true <;> simp [h, find?_eq]

theorem find?_clearSpace (b : BreakTable) (space : Nat) (types : BreakTypes) (a : Address)
    (T : BreakTypes) :
    (b.clearSpace space types).find? a T = (b.find? a T).map fun r =>
      if r.types.intersects (clearMask types) then r.stamp space none else r :=
  find?_mapRecords b (fun r => by split <;> rfl) a T

theorem find?_newPc (b : BreakTable) (spaces : Nat) (a : Address) (T : BreakTypes) :
    (b.newPc spaces).find? a T = (b.find? a T).map fun r =>
      (List.range (newPcSpaces spaces)).foldl (fun r i => r.stamp i none) r := by
  have hn : (if (decide (spaces = 0) || decide (spaces > 8)) = true then 8 else spaces) =
      newPcSpaces spaces := by
    unfold newPcSpaces
    by_cases h : spaces = 0 ∨ 8 < spaces <;> simp [h]
  unfold newPc
  dsimp only
  rw [hn]
  exact find?_mapRecords b (fun r => (foldl_stamp_none _ r).1) a T

/-- The types a clear names cover a record's types only if they are none or share one with
them. -/
theorem intersects_clearMask {T types : BreakTypes} (h : T.intersects (clearMask types) = true) :
    types.isEmpty = true ∨ types.intersects T = true := by
  unfold clearMask at h
  dsimp only at h
  split at h
  · rename_i he
    left
    simpa [BreakTypes.isEmpty, BreakTypes.withoutSpace, UInt32.and_assoc] using he
  · right
    have heq : T.bits &&& (types.bits &&& BreakTypes.typeMask) &&& BreakTypes.typeMask =
        types.bits &&& T.bits &&& BreakTypes.typeMask := by
      rw [UInt32.and_assoc, UInt32.and_assoc, UInt32.and_self]
      ac_rfl
    simpa [BreakTypes.intersects, BreakTypes.withoutSpace, heq] using h

/-- A test that selects nothing reports nothing and leaves the table as it was. -/
theorem test_eq_of_selected?_eq_none {types : BreakTypes} {now : Int}
    (hsel : b.selected? a types now = none) : b.test a types now = (none, b) := by
  unfold test
  dsimp only
  split
  · rfl
  · rename_i j hj
    obtain ⟨hj, hp, -⟩ := List.findIdx?_eq_some_iff_getElem.mp hj
    exact absurd hp (List.find?_eq_none.mp hsel _ (List.getElem_mem hj))

theorem test_of_selected?_eq_none {types : BreakTypes} {now : Int}
    (hsel : b.selected? a types now = none) : (b.test a types now).2 = b := by
  rw [test_eq_of_selected?_eq_none hsel]

/-- A test that selects a record changes only the records of its address: the selected one is
stamped with the test's instant in the test's space and counted down, or removed if it fires
and is temporary. -/
theorem at?_test {types : BreakTypes} {now : Int} {r : BreakRecord}
    (hsel : b.selected? a types now = some r) :
    ∃ i, (b.at? a)[i]? = some r ∧ ∀ a',
      (b.test a types now).2.at? a' =
        if a = a' then
          if r.count ≤ 1 ∧ r.types.intersects BreakTypes.temp = true then (b.at? a).eraseIdx i
          else (b.at? a).set i { r.stamp types.space (some now) with count := r.count - 1 }
        else b.at? a' := by
  obtain ⟨hp, i, hlt, hget, hbefore⟩ := List.find?_eq_some_iff_getElem.mp hsel
  have hidx : (b.at? a).findIdx? (selects (b.testedTypes types) true types.space now) = some i :=
    List.findIdx?_eq_some_iff_getElem.mpr ⟨hlt, hget ▸ hp, fun j hj => by simpa using hbefore j hj⟩
  have hi : (b.at? a)[i]? = some r := by rw [List.getElem?_eq_getElem hlt, hget]
  refine ⟨i, hi, fun a' => ?_⟩
  unfold testedTypes at hidx
  unfold test
  dsimp only
  rw [hidx]
  dsimp only
  rw [hi]
  dsimp only
  -- the stamped record keeps the count and the types the branches look at
  by_cases hc : 1 < r.count
  · have hc' : ¬(r.count ≤ 1 ∧ r.types.intersects BreakTypes.temp = true) := fun h => by omega
    rw [if_pos (show (r.stamp types.space (some now)).count > 1 from hc), if_neg hc']
    exact at?_withChain _ _ _ _
  · rw [if_neg (show ¬(r.stamp types.space (some now)).count > 1 from hc)]
    by_cases ht : r.types.intersects BreakTypes.temp = true
    · have hf : r.count ≤ 1 ∧ r.types.intersects BreakTypes.temp = true := ⟨by omega, ht⟩
      rw [if_pos (show (r.stamp types.space (some now)).types.intersects BreakTypes.temp = true
        from ht), if_pos hf]
      exact at?_withChain _ _ _ _
    · have hf : ¬(r.count ≤ 1 ∧ r.types.intersects BreakTypes.temp = true) := fun h => ht h.2
      have h0 : r.count - 1 = 0 := by omega
      rw [if_neg (show ¬(r.stamp types.space (some now)).types.intersects BreakTypes.temp = true
        from ht), if_neg hf, h0]
      exact at?_withChain _ _ _ _

/-- A test that selects a record stamps it, and counts it down or removes it; every other
record stays as it was. -/
theorem find?_test (hs : b.Shaped) {types : BreakTypes} {now : Int} {r : BreakRecord}
    (hsel : b.selected? a types now = some r) (a' : Address) (T : BreakTypes) :
    (b.test a types now).2.find? a' T =
      if a = a' ∧ r.types = T.withoutSpace then
        if r.count ≤ 1 ∧ r.types.intersects BreakTypes.temp = true then none
        else some { r.stamp types.space (some now) with count := r.count - 1 }
      else b.find? a' T := by
  obtain ⟨i, hi, hat⟩ := at?_test hsel
  have hnd := (hs.at? a).nodup
  rw [find?_eq, hat]
  by_cases ha : a = a'
  · rw [if_pos ha]
    subst ha
    by_cases hT : r.types = T.withoutSpace
    · rw [if_pos (show a = a ∧ r.types = T.withoutSpace from ⟨rfl, hT⟩)]
      by_cases hc : r.count ≤ 1 ∧ r.types.intersects BreakTypes.temp = true
      · rw [if_pos hc, if_pos hc]
        exact find?_types_eraseIdx_of_nodup hnd hi hT
      · rw [if_neg hc, if_neg hc]
        exact find?_types_set_self hnd hi hT rfl
    · rw [if_neg (show ¬(a = a ∧ r.types = T.withoutSpace) from fun h => hT h.2)]
      split
      · exact find?_types_eraseIdx_of_ne hi hT
      · exact find?_types_set_of_ne hi hT rfl
  · rw [if_neg ha, if_neg fun h => ha h.1]
    rfl

/-- Setting a breakpoint keeps when every record already there matched. -/
theorem timeFired_find?_of_set {b' : BreakTable} {a₀ : Address} {types : BreakTypes}
    {count : Nat} {action : Option String} (h : b.set a₀ types count action = .ok b')
    {r : BreakRecord} (hr : b.find? a T = some r) :
    (b'.find? a T).map (·.timeFired) = some r.timeFired := by
  unfold set at h
  dsimp only at h
  generalize (if types.withoutSpace.isEmpty || types.withoutSpace == BreakTypes.stepOver then
    types.withoutSpace.union b.typeTable.defaultTypes else types.withoutSpace) = t at h
  split at h
  · cases h
  · split at h
    · cases h
    · cases h
      change ((b.withChain a₀ _).find? a T).map _ = _
      rw [find?_withChain]
      split
      · rename_i ha
        subst ha
        split
        · rw [timeFired_find?_updateFirst ?keep, ← find?_eq, hr]
          · rfl
          · exact fun _ => ⟨rfl, rfl⟩
        · rw [List.find?_append, ← find?_eq, hr]
          rfl
      · rw [hr]
        rfl

theorem find?_init (b : BreakTable) (a : Address) (T : BreakTypes) : b.init.find? a T = none := by
  rw [find?_eq, at?_eq]
  rfl

/-- The record a find returns has the types looked for. -/
theorem types_of_find? {r : BreakRecord} (h : b.find? a T = some r) : r.types = T.withoutSpace := by
  simpa using List.find?_some h

/-- The record a test selects is at its address, has some of the tested types, and has not
matched in the test's space at the test's instant. -/
theorem selected?_spec {types : BreakTypes} {now : Int} {r : BreakRecord}
    (hsel : b.selected? a types now = some r) :
    r ∈ b.at? a ∧ r.types.intersects (b.testedTypes types) = true ∧
      r.firedAt types.space ≠ some now := by
  have hp := List.find?_some hsel
  simp only [selects, if_true, Bool.and_eq_true, bne_iff_ne, ne_eq] at hp
  exact ⟨List.mem_of_find?_eq_some hsel, hp.1, hp.2⟩

/-- In a table in shape, the record a test selects is the one of its types. -/
theorem find?_of_selected? (hs : b.Shaped) {types : BreakTypes} {now : Int} {r : BreakRecord}
    (hsel : b.selected? a types now = some r) : b.find? a r.types = some r := by
  have hmem := (selected?_spec hsel).1
  obtain ⟨i, hi⟩ := List.mem_iff_getElem?.mp hmem
  exact find?_types_of_nodup (hs.at? a).nodup hi ((hs.at? a).types r hmem).noSpace.symm

end Follow

/-! ## One operation, then a run -/

section Step

variable {b : BreakTable} {a : Address} {T : BreakTypes} {r r' : BreakRecord}

theorem firedAt_eq_of_timeFired_eq (h : r'.timeFired = r.timeFired) (s : Nat) :
    r'.firedAt s = r.firedAt s := by
  simp only [BreakRecord.firedAt, h]

/-- A set, granted or refused, keeps when each record already there matched. -/
theorem firedAt_apply_set {a₀ : Address} {types : BreakTypes} {count : Nat}
    {action : Option String} (hr : b.find? a T = some r)
    (hr' : (b.apply (.set a₀ types count action)).find? a T = some r') (s : Nat) :
    r'.firedAt s = r.firedAt s := by
  cases hset : b.set a₀ types count action with
  | error e =>
    rw [apply, hset] at hr'
    change b.find? a T = some r' at hr'
    rw [hr] at hr'
    cases hr'
    rfl
  | ok b' =>
    have hkeep := timeFired_find?_of_set hset hr
    rw [apply, hset] at hr'
    change b'.find? a T = some r' at hr'
    rw [hr', Option.map_some, Option.some.injEq] at hkeep
    exact firedAt_eq_of_timeFired_eq hkeep s

/-- A clear only takes records away. -/
theorem find?_of_find?_clear {a₀ : Address} {types : BreakTypes}
    (h : (b.clear a₀ types).find? a T = some r') : b.find? a T = some r' := by
  rw [find?_clear] at h
  split at h
  · cases h
  · exact h

theorem find?_of_find?_clearAll {types : BreakTypes}
    (h : (b.clearAll types).find? a T = some r') : b.find? a T = some r' := by
  rw [find?_clearAll] at h
  split at h
  · cases h
  · exact h

/-- A test stamps the record it selects, in its space, and keeps the match times of every
other record. -/
theorem firedAt_test (hs : b.Shaped) (hT : T.withoutSpace = T) {a₀ : Address}
    {types : BreakTypes} {now : Int} (hr : b.find? a T = some r)
    (hr' : (b.test a₀ types now).2.find? a T = some r') (s : Nat) :
    r'.firedAt s = r.firedAt s ∨
      (a₀ = a ∧ types.space = s ∧ (b.selected? a₀ types now).map (·.types) = some T ∧
        r'.firedAt s = some now) := by
  cases hsel : b.selected? a₀ types now with
  | none =>
    rw [test_of_selected?_eq_none hsel, hr] at hr'
    cases hr'
    exact Or.inl rfl
  | some r₀ =>
    rw [find?_test hs hsel] at hr'
    split at hr'
    · -- the test selected this very record
      rename_i hsame
      obtain ⟨rfl, h₀⟩ := hsame
      have hr₀ : r = r₀ := by
        have h := find?_of_selected? hs hsel
        rw [h₀, hT, hr] at h
        exact Option.some.inj h
      subst hr₀
      split at hr'
      · cases hr'
      · cases hr'
        by_cases hsp : types.space = s
        · subst hsp
          have hsel' : (some r).map (·.types) = some T := by
            rw [Option.map_some, (types_of_find? hr).trans hT]
          exact Or.inr ⟨rfl, rfl, hsel', BreakRecord.firedAt_stamp_self r types.space_lt _⟩
        · exact Or.inl (BreakRecord.firedAt_stamp_ne r hsp _)
    · rw [hr] at hr'
      cases hr'
      exact Or.inl rfl

/-- Forgetting the match times in a space touches the records the clear covers, in that space
only. -/
theorem firedAt_clearSpace {sp : Nat} {types : BreakTypes} (hr : b.find? a T = some r)
    (hr' : (b.clearSpace sp types).find? a T = some r') (s : Nat) :
    r'.firedAt s = r.firedAt s ∨ (sp = s ∧ r.types.intersects (clearMask types) = true) := by
  rw [find?_clearSpace, hr, Option.map_some, Option.some.injEq] at hr'
  subst hr'
  split
  · rename_i hint
    by_cases hsp : sp = s
    · exact Or.inr ⟨hsp, hint⟩
    · exact Or.inl (BreakRecord.firedAt_stamp_ne r hsp none)
  · exact Or.inl rfl

/-- A new program counter forgets the match times in the spaces it covers, and only there. -/
theorem firedAt_newPc {n : Nat} (hr : b.find? a T = some r)
    (hr' : (b.newPc n).find? a T = some r') (s : Nat) :
    r'.firedAt s = r.firedAt s ∨ s < newPcSpaces n := by
  rw [find?_newPc, hr, Option.map_some, Option.some.injEq] at hr'
  subst hr'
  rw [BreakRecord.firedAt_foldl_stamp_none]
  split
  · rename_i hmem
    exact Or.inr (List.mem_range.mp hmem)
  · exact Or.inl rfl

/-- What one operation does to when the record of types `T` at `a` last matched in a space,
if the record stays: nothing, unless the operation resets that space for it, or is a test in
that space that selects it, which stamps the test's instant. -/
theorem firedAt_apply (hs : b.Shaped) (hT : T.withoutSpace = T)
    (hr : b.find? a T = some r) (op : Op) (hr' : (b.apply op).find? a T = some r') (s : Nat) :
    r'.firedAt s = r.firedAt s ∨ op.Resets T s ∨
      ∃ types now', op = .test a types now' ∧ types.space = s ∧
        (b.selected? a types now').map (·.types) = some T ∧ r'.firedAt s = some now' := by
  have hrT : r.types = T := (types_of_find? hr).trans hT
  cases op with
  | set a₀ types count action => exact Or.inl (firedAt_apply_set hr hr' s)
  | clear a₀ types =>
    obtain rfl : r = r' := Option.some.inj (hr.symm.trans (find?_of_find?_clear hr'))
    exact Or.inl rfl
  | clearAll types =>
    obtain rfl : r = r' := Option.some.inj (hr.symm.trans (find?_of_find?_clearAll hr'))
    exact Or.inl rfl
  | test a₀ types now' =>
    rcases firedAt_test hs hT hr hr' s with h | ⟨rfl, hsp, hsel, h⟩
    · exact Or.inl h
    · exact Or.inr (Or.inr ⟨types, now', rfl, hsp, hsel, h⟩)
  | clearSpace sp types =>
    rcases firedAt_clearSpace hr hr' s with h | ⟨hsp, hint⟩
    · exact Or.inl h
    · exact Or.inr (Or.inl ⟨hsp, hrT ▸ intersects_clearMask hint⟩)
  | newPc n =>
    rcases firedAt_newPc hr hr' s with h | h
    · exact Or.inl h
    · exact Or.inr (Or.inl h)
  | init =>
    rw [apply, find?_init] at hr'
    cases hr'

/-- A run keeps the record of types `T` at `a` and refreshes it nowhere: the instant at which
it last matched in a space is still there at the end. -/
theorem firedAt_run (hb : b.Reach) (hT : T.withoutSpace = T) {space : Nat} {now : Int}
    {ops : List Op} (hk : KeptIn b a T ops) (hnr : ¬RefreshedIn b a T space now ops)
    {r : BreakRecord} (hr : b.find? a T = some r) (hfired : r.firedAt space = some now) :
    ∃ r', (b.run ops).find? a T = some r' ∧ r'.firedAt space = some now := by
  -- induction on the run; the stamp of the record met at each step carries it
  induction ops generalizing b r with
  | nil => exact ⟨r, hr, hfired⟩
  | cons op ops ih =>
    simp only [KeptIn, RefreshedIn, not_or] at hk hnr
    obtain ⟨-, hk⟩ := hk
    obtain ⟨hop, hnr⟩ := hnr
    obtain ⟨r', hr'⟩ := Option.isSome_iff_exists.mp hk.isSome
    refine ih (hb.apply op) hk hnr hr' ?_
    rcases firedAt_apply hb.shaped hT hr op hr' space with h | h | ⟨types, now', rfl, hsp, hsel, h⟩
    · exact h.trans hfired
    · exact absurd (Or.inl h) hop
    · -- a selection at another instant would refresh the record
      by_cases hnow : now' = now
      · exact hnow ▸ h
      · exact absurd (Or.inr ⟨types, now', rfl, hsp, hnow, hsel⟩) hop

/-- When every test of a run is at instant `now`, only a reset can refresh a record for `now`. -/
theorem RefreshedIn.resets {space : Nat} {now : Int} {ops : List Op}
    (h : RefreshedIn b a T space now ops)
    (hnow : ∀ op ∈ ops, ∀ a' types now', op = .test a' types now' → now' = now) :
    ∃ op ∈ ops, op.Resets T space := by
  induction ops generalizing b with
  | nil => exact h.elim
  | cons op ops ih =>
    rcases h with hop | hrest
    · rcases hop with hres | ⟨types, now', rfl, -, hne, -⟩
      · exact ⟨op, List.mem_cons_self, hres⟩
      · exact absurd (hnow _ List.mem_cons_self _ _ _ rfl) hne
    · obtain ⟨op', hmem, hres⟩ :=
        ih hrest fun op' hop' => hnow op' (List.mem_cons_of_mem _ hop')
      exact ⟨op', List.mem_cons_of_mem _ hmem, hres⟩

/-- After a test that selects a record, the record, if it stays, holds the test's instant in
the test's space and its other spaces as they were. -/
theorem firedAt_after_test (hs : b.Shaped) {types : BreakTypes} {now : Int}
    (hsel : b.selected? a types now = some r) {r₁ : BreakRecord}
    (hr₁ : (b.test a types now).2.find? a r.types = some r₁) :
    r₁.firedAt types.space = some now ∧ ∀ s ≠ types.space, r₁.firedAt s = r.firedAt s := by
  have hnoSpace : r.types.withoutSpace = r.types :=
    ((hs.at? a).types r (selected?_spec hsel).1).noSpace
  rw [find?_test hs hsel, if_pos ⟨rfl, hnoSpace.symm⟩] at hr₁
  split at hr₁
  · cases hr₁
  · cases hr₁
    exact ⟨BreakRecord.firedAt_stamp_self r types.space_lt _,
      fun s hs => BreakRecord.firedAt_stamp_ne r (Ne.symm hs) _⟩

/-- A record that holds instant `now` in a space and stays through a run is selected there at
`now` again only if the run refreshed it. -/
theorem refreshed_of_selected_again (hb : b.Reach) (hT : T.withoutSpace = T) {space : Nat}
    {now : Int} {ops : List Op} (hk : KeptIn b a T ops) (hr : b.find? a T = some r)
    (hfired : r.firedAt space = some now) {types : BreakTypes} (hsp : types.space = space)
    (hsel : (b.run ops).selected? a types now = some r') (hT' : r'.types = T) :
    RefreshedIn b a T space now ops := by
  by_contra hnr
  obtain ⟨r₂, hr₂, hfired₂⟩ := firedAt_run hb hT hk hnr hr hfired
  -- the record selected again is the one of those types, which still holds the stamp
  have hr' := find?_of_selected? (hb.run ops).shaped hsel
  rw [hT', hr₂] at hr'
  cases hr'
  exact (selected?_spec hsel).2.2 (hsp ▸ hfired₂)

end Step

/-! ## A record matches once per space and instant -/

/-- A test that selects a record stamps it with the test's instant in the test's space and
leaves its other spaces, and every other record, as they were. Afterwards, while the record
stays, a test in that space at that instant selects it again only if a run in between reset
the space for it or selected it there at another instant; so, when no test in between is at
another instant, only if the space was reset for it in between. -/
theorem test_debounces {b : BreakTable} (hb : b.Reach) {a : Address} {types : BreakTypes}
    {now : Int} {r : BreakRecord} (hsel : b.selected? a types now = some r) :
    (∀ r₁, (b.test a types now).2.find? a r.types = some r₁ →
      r₁.firedAt types.space = some now ∧ ∀ s ≠ types.space, r₁.firedAt s = r.firedAt s) ∧
    (∀ a' T, (a' ≠ a ∨ T.withoutSpace ≠ r.types) →
      (b.test a types now).2.find? a' T = b.find? a' T) ∧
    (∀ (mid : List Op) (types' : BreakTypes) (r' : BreakRecord), types'.space = types.space →
      KeptIn (b.test a types now).2 a r.types mid →
      (((b.test a types now).2.run mid).selected? a types' now = some r' ∧ r'.types = r.types) →
      RefreshedIn (b.test a types now).2 a r.types types.space now mid ∧
      ((∀ op ∈ mid, ∀ a' types'' now', op = .test a' types'' now' → now' = now) →
        ∃ op ∈ mid, op.Resets r.types types.space)) := by
  have hs := hb.shaped
  have hnoSpace : r.types.withoutSpace = r.types :=
    ((hs.at? a).types r (selected?_spec hsel).1).noSpace
  refine ⟨fun r₁ hr₁ => firedAt_after_test hs hsel hr₁, fun a' T hne => ?_,
    fun mid types' r' hsp hk ⟨hsel', hT'⟩ => ?_⟩
  · rw [find?_test hs hsel, if_neg]
    rintro ⟨rfl, hT⟩
    rcases hne with hne | hne
    · exact hne rfl
    · exact hne hT.symm
  · obtain ⟨r₁, hr₁⟩ := Option.isSome_iff_exists.mp hk.isSome
    have h := refreshed_of_selected_again (.test a types now hb) hnoSpace hk hr₁
      (firedAt_after_test hs hsel hr₁).1 hsp hsel' hT'
    exact ⟨h, h.resets⟩

/-- In the table of a machine with only execution breakpoints, with one set at address 128, a
test there at instant 10 selects it. -/
theorem test_debounces_of_standard :
    let a := Address.ofNat 128
    let E := BreakTypeTable.standard.defaultTypes
    let b := ((BreakTable.new BreakTypeTable.standard).set a E 0 none).toOption.getD
      (BreakTable.new BreakTypeTable.standard)
    let r := BreakRecord.fresh a E
    b.Reach ∧ b.selected? a E 10 = some r ∧
      ((∀ r₁, (b.test a E 10).2.find? a r.types = some r₁ →
        r₁.firedAt E.space = some 10 ∧ ∀ s ≠ E.space, r₁.firedAt s = r.firedAt s) ∧
      (∀ a' T, (a' ≠ a ∨ T.withoutSpace ≠ r.types) →
        (b.test a E 10).2.find? a' T = b.find? a' T) ∧
      (∀ (mid : List Op) (types' : BreakTypes) (r' : BreakRecord), types'.space = E.space →
        KeptIn (b.test a E 10).2 a r.types mid →
        (((b.test a E 10).2.run mid).selected? a types' 10 = some r' ∧ r'.types = r.types) →
        RefreshedIn (b.test a E 10).2 a r.types E.space 10 mid ∧
        ((∀ op ∈ mid, ∀ a' types'' now', op = .test a' types'' now' → now' = 10) →
          ∃ op ∈ mid, op.Resets r.types E.space))) := by
  intro a E b r
  have hb : b.Reach := .set _ _ _ _ (.new _ (by decide) (by decide))
  have hsel : b.selected? a E 10 = some r := by decide
  exact ⟨hb, hsel, test_debounces hb hsel⟩

/-- The stamp keeps only the last instant: a record selected at 10 and then at 11 is selected
at 10 again, though nothing between the two tests at 10 resets its space. -/
theorem reselected_at_earlier_instant :
    let a := Address.ofNat 128
    let E := BreakTypeTable.standard.defaultTypes
    let b := ((BreakTable.new BreakTypeTable.standard).set a E 0 none).toOption.getD
      (BreakTable.new BreakTypeTable.standard)
    let mid := [Op.test a E 11]
    b.Reach ∧ (b.selected? a E 10).map (·.types) = some E ∧
      KeptIn (b.test a E 10).2 a E mid ∧
      (((b.test a E 10).2.run mid).selected? a E 10).map (·.types) = some E ∧
      ∀ op ∈ mid, ¬op.Resets E E.space := by
  intro a E b mid
  refine ⟨.set _ _ _ _ (.new _ (by decide) (by decide)), by decide, ⟨by decide, by rw [KeptIn]; decide⟩,
    by decide, ?_⟩
  intro op hop hres
  rw [List.mem_singleton] at hop
  subst hop
  exact hres

end BreakTable

end SimControl
