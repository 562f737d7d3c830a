import SimControl.Proofs.GoUntilShadow
/-!
# Counting down and firing breakpoints

A breakpoint set with count `c` counts down on each of its selections while its count is above
one, and fires on the next: on its `c`-th selection, or on its first when `c` is zero or one.
After that it has no count and fires on every selection. A selection that counts down reports
nothing and keeps the record; one that fires reports the address, the tested types the record
has and the record's action, and deletes the record if it is temporary. Every operation other
than a set of the same types at the same address leaves the record's count, types and action
alone, whatever it does to the other records.

A test selects the first record of its address that has some of the tested types and has not
matched in the test's space at the test's instant, and the records of an address stay in the
order they were created.

* `Counts`, `Counts.apply`, `Counts.run`: the record of given types at an address through a run
  of operations, counted down once per selection.
* `types_at?_run_sublist`: the records of an address keep their order, and a set adds its
  record behind them.
* `test_counts_down_then_fires`: the record a set defines, through any run that does not set it
  again, at the test that selects it.
-/

namespace SimControl

namespace BreakRecord

@[simp] theorem stamp_types (r : BreakRecord) (s : Nat) (t : Option Int) :
    (r.stamp s t).types = r.types := rfl

@[simp] theorem stamp_count (r : BreakRecord) (s : Nat) (t : Option Int) :
    (r.stamp s t).count = r.count := rfl

@[simp] theorem stamp_action (r : BreakRecord) (s : Nat) (t : Option Int) :
    (r.stamp s t).action = r.action := rfl

/-- Forgetting match times keeps a record's count and action. -/
theorem foldl_stamp_none_count (spaces : List Nat) (r : BreakRecord) :
    (spaces.foldl (fun r i => r.stamp i none) r).count = r.count ∧
      (spaces.foldl (fun r i => r.stamp i none) r).action = r.action := by
  induction spaces generalizing r with
  | nil => exact ⟨rfl, rfl⟩
  | cons i rest ih => exact ih (r.stamp i none)

end BreakRecord

namespace BreakTable

/-! ## Runs that leave a record's definition alone -/

/-- A set at `a` that grants the types `T`: the one operation that defines the record of types
`T` at `a` anew. -/
def Op.Redefines (tt : BreakTypeTable) (a : Address) (T : BreakTypes) : Op → Prop
  | .set a' types _ _ => a' = a ∧ grantedTypes tt types = T
  | _ => False

/-- The operation is a test at `a` that selects the record of types `T` there. -/
def Op.selects (b : BreakTable) (a : Address) (T : BreakTypes) : Op → Bool
  | .test a' types now => decide (a' = a ∧ (b.selected? a' types now).map (·.types) = some T)
  | _ => false

/-- How many tests of a run select the record of types `T` at `a`, each in the table it meets. -/
def selectionsIn (b : BreakTable) (a : Address) (T : BreakTypes) : List Op → Nat
  | [] => 0
  | op :: ops => (if op.selects b a T then 1 else 0) + selectionsIn (b.apply op) a T ops

/-- The types of the records the sets of a run at `a` create or update, in order. -/
def createdIn (tt : BreakTypeTable) (a : Address) : List Op → List BreakTypes
  | [] => []
  | .set a' types _ _ :: ops =>
    (if a' = a then [grantedTypes tt types] else []) ++ createdIn tt a ops
  | _ :: ops => createdIn tt a ops

theorem createdIn_cons (tt : BreakTypeTable) (a : Address) (op : Op) (ops : List Op) :
    createdIn tt a (op :: ops) = createdIn tt a [op] ++ createdIn tt a ops := by
  cases op <;> simp [createdIn]

@[simp] theorem typeTable_apply (b : BreakTable) (op : Op) : (b.apply op).typeTable = b.typeTable := by
  cases op with
  | set a types count action =>
    cases h : b.set a types count action with
    | error e =>
      rw [apply, h]
      rfl
    | ok b' =>
      rw [apply, h]
      exact typeTable_of_set h
  | clear a types => exact typeTable_clear b a types
  | test a types now => exact typeTable_test b a types now
  | clearAll | clearSpace | newPc | init => rfl

/-! ## What a set does to the records of its address -/

section Set

variable {b b' : BreakTable} {a : Address} {types T : BreakTypes} {count : Nat}
  {action : Option String}

@[simp] theorem find?_with_summary (b : BreakTable) (s : BreakTypes) (a : Address) (T : BreakTypes) :
    ({ b with summary := s } : BreakTable).find? a T = b.find? a T := rfl

@[simp] theorem at?_with_summary (b : BreakTable) (s : BreakTypes) (a : Address) :
    ({ b with summary := s } : BreakTable).at? a = b.at? a := rfl

/-- A granted set updates the record of the granted types at its address, or adds one behind
the others, with the count asked for. -/
theorem set_eq_ok_count (h : b.set a types count action = .ok b') :
    ∃ upd : BreakRecord → BreakRecord, (∀ r, (upd r).types = r.types ∧ (upd r).count = count) ∧
      b' = { b.withChain a
          (if (b.at? a).any (·.types == grantedTypes b.typeTable types) then
            updateFirst (·.types == grantedTypes b.typeTable types) upd (b.at? a)
          else b.at? a ++ [upd (BreakRecord.fresh a (grantedTypes b.typeTable types))]) with
        summary := b.summary.union ((grantedTypes b.typeTable types).inter BreakTypes.temp.compl) } := by
  unfold BreakTable.set at h
  dsimp only at h
  generalize ht : (if types.withoutSpace.isEmpty || types.withoutSpace == BreakTypes.stepOver then
    types.withoutSpace.union b.typeTable.defaultTypes else types.withoutSpace) = t at h
  rw [show grantedTypes b.typeTable types = t from ht]
  split at h
  · cases h
  · split at h
    · cases h
    · refine ⟨_, ?_, (Except.ok.inj h).symm⟩
      exact fun r => ⟨rfl, rfl⟩

/-- The granted types carry no space. -/
theorem grantedTypes_noSpace (hs : b.Shaped) (h : b.set a types count action = .ok b') :
    (grantedTypes b.typeTable types).withoutSpace = grantedTypes b.typeTable types := by
  obtain ⟨t, upd, ht, hsupp, -, -⟩ := set_eq_ok h
  rw [show grantedTypes b.typeTable types = t from ht.symm]
  exact (typesOk_of_set hs.default_nonempty hs.default_noSpace types ht hsupp).noSpace

/-- Updating the first record that passes a test, in a way that keeps whether it passes, makes
the updated record the first that passes. -/
theorem find?_updateFirst_self {p : BreakRecord → Bool} {f : BreakRecord → BreakRecord}
    (hf : ∀ r, p (f r) = p r) (l : List BreakRecord) :
    (updateFirst p f l).find? p = (l.find? p).map f := by
  induction l with
  | nil => rfl
  | cons x rest ih =>
    rw [updateFirst]
    by_cases hx : p x = true
    · rw [if_pos hx]
      simp [hx, hf]
    · rw [if_neg hx]
      simp [hx, ih]

/-- Updating the record of types `t`, keeping its types, leaves which record has other types. -/
theorem find?_types_updateFirst_of_ne {t : BreakTypes} {f : BreakRecord → BreakRecord}
    (hf : ∀ r, (f r).types = r.types) (hne : t ≠ T) (l : List BreakRecord) :
    (updateFirst (·.types == t) f l).find? (·.types == T) = l.find? (·.types == T) := by
  induction l with
  | nil => rfl
  | cons x rest ih =>
    rw [updateFirst]
    by_cases hx : x.types = t
    · have hxT : x.types ≠ T := hx ▸ hne
      rw [if_pos (by simpa using hx)]
      simp [hf, hxT]
    · rw [if_neg (by simpa using hx)]
      simp [List.find?_cons, ih]

/-- A granted set leaves a record of the granted types at its address, with the count asked
for. -/
theorem find?_set_self (hs : b.Shaped) (h : b.set a types count action = .ok b') :
    ∃ r₀, b'.find? a (grantedTypes b.typeTable types) = some r₀ ∧ r₀.count = count ∧
      r₀.types = grantedTypes b.typeTable types := by
  have hnoSpace := grantedTypes_noSpace hs h
  obtain ⟨upd, hupd, rfl⟩ := set_eq_ok_count h
  generalize grantedTypes b.typeTable types = t at hnoSpace ⊢
  rw [find?_with_summary, find?_withChain, if_pos rfl, hnoSpace]
  split
  · -- the record of those types is updated in place
    rename_i hany
    obtain ⟨x, hx⟩ := Option.isSome_iff_exists.mp (List.find?_isSome.mpr (List.any_eq_true.mp hany))
    rw [find?_updateFirst_self (fun r => by simp [(hupd r).1]), hx]
    exact ⟨upd x, rfl, (hupd x).2, (hupd x).1.trans (by simpa using List.find?_some hx)⟩
  · -- a fresh record of those types goes behind the others
    rename_i hany
    have hnone : (b.at? a).find? (·.types == t) = none :=
      List.find?_eq_none.mpr fun x hx hp => hany (List.any_eq_true.mpr ⟨x, hx, hp⟩)
    rw [List.find?_append, hnone]
    exact ⟨upd (BreakRecord.fresh a t), by simp [(hupd _).1, BreakRecord.fresh], (hupd _).2,
      (hupd _).1⟩

/-- A granted set leaves every record of other types, or at another address, as it was. -/
theorem find?_set_of_ne {a₀ : Address} (h : b.set a₀ types count action = .ok b')
    (hne : a₀ ≠ a ∨ grantedTypes b.typeTable types ≠ T.withoutSpace) :
    b'.find? a T = b.find? a T := by
  obtain ⟨upd, hupd, rfl⟩ := set_eq_ok_count h
  rw [find?_with_summary, find?_withChain]
  split
  · rename_i ha
    subst ha
    have ht : grantedTypes b.typeTable types ≠ T.withoutSpace := hne.resolve_left (· rfl)
    split
    · rw [find?_types_updateFirst_of_ne (fun r => (hupd r).1) ht, ← find?_eq]
    · rw [List.find?_append, ← find?_eq]
      cases b.find? a₀ T with
      | some r => rfl
      | none => simp [(hupd _).1, BreakRecord.fresh, ht]
  · rfl

end Set

/-! ## What a test does to the record it selects -/

section Test

variable {b : BreakTable} {a : Address} {types : BreakTypes} {now : Int} {r : BreakRecord}

/-- A test that selects a record with a count above one reports nothing, and the record stays,
stamped, with its count one lower. Any other record it selects fires: the test reports the
tested types the record has and its action, and the record goes if it is temporary and stays,
stamped and with no count, otherwise. -/
theorem test_selected (hs : b.Shaped) (hsel : b.selected? a types now = some r) :
    (1 < r.count → (b.test a types now).1 = none ∧
      (b.test a types now).2.find? a r.types =
        some { r.stamp types.space (some now) with count := r.count - 1 }) ∧
    (r.count ≤ 1 → (b.test a types now).1 = some ⟨a, (b.testedTypes types).inter r.types, r.action⟩ ∧
      (b.test a types now).2.find? a r.types =
        if r.types.intersects BreakTypes.temp then none
        else some { r.stamp types.space (some now) with count := 0 }) := by
  have hnoSpace : r.types = r.types.withoutSpace :=
    ((hs.at? a).types r (selected?_spec hsel).1).noSpace.symm
  have hsame : a = a ∧ r.types = r.types.withoutSpace := ⟨rfl, hnoSpace⟩
  rw [test_fst_of_selected? hsel, find?_test hs hsel, if_pos hsame]
  refine ⟨fun hc => ?_, fun hc => ?_⟩
  · rw [if_pos hc, if_neg (fun h : r.count ≤ 1 ∧ _ => by omega)]
    exact ⟨rfl, rfl⟩
  · rw [if_neg (show ¬1 < r.count by omega), Nat.sub_eq_zero_of_le hc]
    refine ⟨rfl, ?_⟩
    by_cases ht : r.types.intersects BreakTypes.temp = true
    · rw [if_pos ⟨hc, ht⟩, if_pos ht]
    · rw [if_neg fun h => ht h.2, if_neg ht]

end Test

/-! ## The record of given types through a run -/

/-- The record of types `T` at `a`, whenever the table has one, is `r₀` after `k` selections:
its count down by `k`, with its types and its action; and once selected as often as its count
asks, and at least once, it is not temporary, since a temporary record that fires goes. -/
def Counts (b : BreakTable) (a : Address) (T : BreakTypes) (r₀ : BreakRecord) (k : Nat) : Prop :=
  ∀ r, b.find? a T = some r →
    r.count = r₀.count - k ∧ r.types = r₀.types ∧ r.action = r₀.action ∧
      (max r₀.count 1 ≤ k → r₀.types.intersects BreakTypes.temp = false)

section Counts

variable {b b' : BreakTable} {a : Address} {T : BreakTypes} {r₀ : BreakRecord} {k : Nat}

/-- An operation that only takes records away, or leaves the one of types `T` alone, keeps the
count. -/
theorem Counts.of_find? (h : b.Counts a T r₀ k)
    (h' : ∀ r, b'.find? a T = some r → b.find? a T = some r) : b'.Counts a T r₀ k :=
  fun r hr => h r (h' r hr)

/-- Changing records without touching their count, types or action keeps the count. -/
theorem Counts.map (h : b.Counts a T r₀ k) {g : BreakRecord → BreakRecord}
    (hg : ∀ r, (g r).count = r.count ∧ (g r).types = r.types ∧ (g r).action = r.action)
    (h' : b'.find? a T = (b.find? a T).map g) : b'.Counts a T r₀ k := by
  intro r hr
  rw [h'] at hr
  obtain ⟨r₁, hr₁, rfl⟩ := Option.map_eq_some_iff.mp hr
  obtain ⟨hc, ht, ha, hf⟩ := h r₁ hr₁
  obtain ⟨hgc, hgt, hga⟩ := hg r₁
  exact ⟨hgc.trans hc, hgt.trans ht, hga.trans ha, hf⟩

/-- A test that selects the record counts it once more. -/
theorem Counts.test_self (hs : b.Shaped) (h : b.Counts a T r₀ k)
    {types : BreakTypes} {now : Int} {r : BreakRecord} (hsel : b.selected? a types now = some r)
    (hr : r.types = T) : (b.test a types now).2.Counts a T r₀ (k + 1) := by
  have hfind : b.find? a T = some r := hr ▸ find?_of_selected? hs hsel
  obtain ⟨hc, ht, ha, hf⟩ := h r hfind
  obtain ⟨hdown, hfire⟩ := test_selected hs hsel
  intro r' hr'
  rw [← hr] at hr'
  by_cases hgt : 1 < r.count
  · -- it counts down and stays
    rw [(hdown hgt).2, Option.some.injEq] at hr'
    subst hr'
    refine ⟨by simp [hc, Nat.sub_sub], by simp [ht], by simp [ha], fun hk => ?_⟩
    omega
  · -- it fires, and stays only if it is not temporary
    rw [(hfire (by omega)).2] at hr'
    split at hr'
    · cases hr'
    · rename_i htemp
      cases hr'
      refine ⟨by simp; omega, by simp [ht], by simp [ha], fun _ => ?_⟩
      rw [← ht]
      simpa using htemp

/-- A test that selects another record, or at another address, leaves the count. -/
theorem Counts.test_other (hs : b.Shaped) (h : b.Counts a T r₀ k) {a₀ : Address}
    {types : BreakTypes} {now : Int} {r : BreakRecord} (hsel : b.selected? a₀ types now = some r)
    (hne : ¬(a₀ = a ∧ r.types = T.withoutSpace)) : (b.test a₀ types now).2.Counts a T r₀ k :=
  h.of_find? fun r' hr' => by rwa [find?_test hs hsel, if_neg hne] at hr'

/-- A test counts the record once more exactly when it selects it. -/
theorem Counts.test (hs : b.Shaped) (hT : T.withoutSpace = T) (h : b.Counts a T r₀ k)
    (a₀ : Address) (types : BreakTypes) (now : Int) :
    (b.test a₀ types now).2.Counts a T r₀
      (k + if (Op.test a₀ types now).selects b a T then 1 else 0) := by
  cases hsel : b.selected? a₀ types now with
  | none =>
    rw [test_of_selected?_eq_none hsel]
    simpa [Op.selects, hsel] using h
  | some r =>
    by_cases hself : a₀ = a ∧ r.types = T
    · obtain ⟨rfl, hr⟩ := hself
      have hsel' : (Op.test a₀ types now).selects b a₀ T = true := by simp [Op.selects, hsel, hr]
      rw [hsel', if_pos rfl]
      exact h.test_self hs hsel hr
    · have hsel' : (Op.test a₀ types now).selects b a T = false := by
        simpa [Op.selects, hsel] using hself
      rw [hsel', if_neg Bool.false_ne_true, Nat.add_zero]
      exact h.test_other hs hsel (by rwa [hT])

/-- One operation, other than a set that defines the record again, counts it once more exactly
when it is a test that selects it. -/
theorem Counts.apply (hs : b.Shaped) (hT : T.withoutSpace = T) (h : b.Counts a T r₀ k) (op : Op)
    (hop : ¬op.Redefines b.typeTable a T) :
    (b.apply op).Counts a T r₀ (k + if op.selects b a T then 1 else 0) := by
  -- only a test selects: for every other operation the count to reach is `k + 0`, that is `k`
  cases op with
  | test a₀ types now => exact h.test hs hT a₀ types now
  | set a₀ types count action =>
    cases hset : b.set a₀ types count action with
    | error e =>
      rw [BreakTable.apply, hset]
      exact h
    | ok b' =>
      rw [BreakTable.apply, hset]
      -- a set of other types, or at another address, leaves the record as it was
      refine h.of_find? fun r hr => ?_
      change b'.find? a T = some r at hr
      rwa [find?_set_of_ne hset] at hr
      by_cases ha : a₀ = a
      · exact Or.inr fun hg => hop ⟨ha, hg.trans hT⟩
      · exact Or.inl ha
  | clear a₀ types => exact h.of_find? fun r hr => find?_of_find?_clear hr
  | clearAll types => exact h.of_find? fun r hr => find?_of_find?_clearAll hr
  | clearSpace sp types =>
    exact h.map (fun r => by split <;> simp) (find?_clearSpace b sp types a T)
  | newPc n =>
    refine h.map (fun r => ?_) (find?_newPc b n a T)
    obtain ⟨hc, ha⟩ := BreakRecord.foldl_stamp_none_count (List.range (newPcSpaces n)) r
    exact ⟨hc, (foldl_stamp_none _ r).1, ha⟩
  | init =>
    intro r hr
    rw [BreakTable.apply, find?_init] at hr
    cases hr

/-- A run that never defines the record again counts it once per test that selects it. -/
theorem Counts.run (hb : b.Reach) (hT : T.withoutSpace = T) (h : b.Counts a T r₀ k) (ops : List Op)
    (hops : ∀ op ∈ ops, ¬op.Redefines b.typeTable a T) :
    (b.run ops).Counts a T r₀ (k + selectionsIn b a T ops) := by
  induction ops generalizing b k with
  | nil => exact h
  | cons op ops ih =>
    have hstep := h.apply hb.shaped hT op (hops op List.mem_cons_self)
    have hrest := ih (hb.apply op) hstep fun op' hop' => by
      rw [typeTable_apply]
      exact hops op' (List.mem_cons_of_mem _ hop')
    rw [run_cons, selectionsIn, ← Nat.add_assoc]
    exact hrest

/-- A granted set leaves the record of the granted types with the count asked for, counted by
no selection yet. -/
theorem counts_set (hs : b.Shaped) {types : BreakTypes} {count : Nat} {action : Option String}
    (h : b.set a types count action = .ok b') :
    ∃ r₀, b'.find? a (grantedTypes b.typeTable types) = some r₀ ∧ r₀.count = count ∧
      r₀.types = grantedTypes b.typeTable types ∧ b'.Counts a (grantedTypes b.typeTable types) r₀ 0 := by
  obtain ⟨r₀, hr₀, hc, ht⟩ := find?_set_self hs h
  refine ⟨r₀, hr₀, hc, ht, fun r hr => ?_⟩
  rw [hr₀, Option.some.injEq] at hr
  subst hr
  exact ⟨rfl, rfl, rfl, fun h => absurd h (by omega)⟩

end Counts

/-! ## The records of an address stay in the order they were created -/

section Order

/-- Changing every record without touching its types keeps the types of each address. -/
theorem types_at?_mapRecords (b : BreakTable) {g : BreakRecord → BreakRecord}
    (hg : ∀ r, (g r).types = r.types) (a : Address) :
    (({ b with chains := b.chains.map fun _ (rs : List BreakRecord) => rs.map g } : BreakTable).at?
      a).map (·.types) = (b.at? a).map (·.types) := by
  rw [at?_eq, at?_eq]
  show (((b.chains.map fun _ (rs : List BreakRecord) => rs.map g)[a]?).getD []).map _ = _
  rw [Std.TreeMap.getElem?_map]
  cases b.chains[a]? with
  | none => rfl
  | some rs =>
    simp only [Option.map_some, Option.getD_some, List.map_map]
    exact List.map_congr_left fun r _ => hg r

/-- The types of the records at `a` after an operation, in order: those before it, less some,
and behind them the types of the record a set at `a` adds. -/
theorem types_at?_apply_sublist (b : BreakTable) (op : Op) (a : Address) :
    (((b.apply op).at? a).map (·.types)).Sublist
      ((b.at? a).map (·.types) ++ createdIn b.typeTable a [op]) := by
  cases op with
  | set a₀ types count action =>
    cases hset : b.set a₀ types count action with
    | error e =>
      rw [BreakTable.apply, hset]
      exact List.sublist_append_left _ _
    | ok b' =>
      rw [BreakTable.apply, hset]
      change ((b'.at? a).map _).Sublist _
      obtain ⟨upd, hupd, rfl⟩ := set_eq_ok_count hset
      rw [at?_with_summary, at?_withChain]
      simp only [createdIn, List.append_nil]
      split
      · -- the record of the granted types is updated in place, or added behind the others
        rename_i ha
        subst ha
        split
        · rw [map_updateFirst _ (fun r => (hupd r).1)]
          exact List.sublist_append_left _ _
        · simp [(hupd _).1, BreakRecord.fresh]
      · exact List.sublist_append_left _ _
  | clear a₀ types =>
    rw [BreakTable.apply, at?_clear]
    simp only [createdIn, List.append_nil]
    split
    · rename_i ha
      subst ha
      exact List.filter_sublist.map _
    · exact List.Sublist.refl _
  | clearAll types =>
    rw [BreakTable.apply, at?_clearAll]
    simp only [createdIn, List.append_nil]
    exact List.filter_sublist.map _
  | test a₀ types now =>
    simp only [createdIn, List.append_nil]
    cases hsel : b.selected? a₀ types now with
    | none =>
      rw [BreakTable.apply, test_of_selected?_eq_none hsel]
    | some r =>
      -- the selected record is counted down in place, or removed
      obtain ⟨i, hi, hat⟩ := at?_test hsel
      rw [BreakTable.apply, hat a]
      split
      · rename_i ha
        subst ha
        split
        · exact (List.eraseIdx_sublist _ i).map _
        · rw [map_set_of_getElem? (·.types) hi (show ({ r.stamp types.space (some now) with
            count := r.count - 1 } : BreakRecord).types = r.types from rfl)]
      · exact List.Sublist.refl _
  | clearSpace sp types =>
    simp only [createdIn, List.append_nil]
    rw [BreakTable.apply]
    unfold clearSpace
    dsimp only
    rw [types_at?_mapRecords b (fun r => by split <;> rfl)]
  | newPc n =>
    simp only [createdIn, List.append_nil]
    rw [BreakTable.apply]
    unfold newPc
    dsimp only
    rw [types_at?_mapRecords b (fun r => (foldl_stamp_none _ r).1)]
  | init =>
    rw [BreakTable.apply, at?_eq]
    exact List.nil_sublist _

/-- Through a run, the types of the records at `a`, in order, are those before it, less some,
followed by the types the run's sets at `a` add, in the order of those sets. -/
theorem types_at?_run_sublist (b : BreakTable) (ops : List Op) (a : Address) :
    (((b.run ops).at? a).map (·.types)).Sublist
      ((b.at? a).map (·.types) ++ createdIn b.typeTable a ops) := by
  induction ops generalizing b with
  | nil => simp [createdIn]
  | cons op ops ih =>
    have hrest := ih (b.apply op)
    rw [typeTable_apply] at hrest
    -- the operation's own sublist, followed by the rest of the run's sets
    have hstep := (types_at?_apply_sublist b op a).append_right (createdIn b.typeTable a ops)
    rw [List.append_assoc, ← createdIn_cons] at hstep
    exact hrest.trans hstep

end Order

/-! ## A breakpoint counts down, then fires -/

/-- The record a set defines at `a` with count `c`, in every table a machine reaches, through
any run of operations that does not set it again, at a test that selects it after `k` earlier
selections. It has count `c - k` and the action the set left it. The test takes it as the first
record at `a`, in the order the records were created, that has some of the tested types and has
not matched in the test's space at the test's instant. While the selection leaves a count
(`k + 1 < c`), the test reports nothing and the record stays, stamped, with count
`c - (k + 1)`. From the `max c 1`-th selection on, the test fires, reporting the address, the
tested types the record has and its action; the record then goes if it is temporary, and stays
with no count otherwise. -/
theorem test_counts_down_then_fires {b₀ b : BreakTable} (hb : b₀.Reach) {a : Address}
    {T : BreakTypes} {c : Nat} {act : Option String} (hset : b₀.set a T c act = .ok b)
    (ops : List Op) (hops : ∀ op ∈ ops, ¬op.Redefines b₀.typeTable a (grantedTypes b₀.typeTable T))
    {types : BreakTypes} {now : Int} {r : BreakRecord}
    (hsel : (b.run ops).selected? a types now = some r)
    (hr : r.types = grantedTypes b₀.typeTable T) :
    ∃ r₀, b.find? a (grantedTypes b₀.typeTable T) = some r₀ ∧ r₀.count = c ∧
      r.count = c - selectionsIn b a (grantedTypes b₀.typeTable T) ops ∧ r.action = r₀.action ∧
      r.types.intersects ((b.run ops).testedTypes types) = true ∧
      r.firedAt types.space ≠ some now ∧
      (∃ pre post, (b.run ops).at? a = pre ++ r :: post ∧
        ∀ r' ∈ pre, selects ((b.run ops).testedTypes types) true types.space now r' = false) ∧
      (((b.run ops).at? a).map (·.types)).Sublist
        ((b.at? a).map (·.types) ++ createdIn b₀.typeTable a ops) ∧
      (selectionsIn b a (grantedTypes b₀.typeTable T) ops + 1 < c →
        ((b.run ops).test a types now).1 = none ∧
        ((b.run ops).test a types now).2.find? a (grantedTypes b₀.typeTable T) =
          some { r.stamp types.space (some now) with
            count := c - (selectionsIn b a (grantedTypes b₀.typeTable T) ops + 1) }) ∧
      (max c 1 ≤ selectionsIn b a (grantedTypes b₀.typeTable T) ops + 1 →
        ((b.run ops).test a types now).1 =
          some ⟨a, ((b.run ops).testedTypes types).inter r.types, r₀.action⟩ ∧
        ((b.run ops).test a types now).2.find? a (grantedTypes b₀.typeTable T) =
          if r.types.intersects BreakTypes.temp then none
          else some { r.stamp types.space (some now) with count := 0 }) := by
  have hb₁ : b.Reach := by
    have h := Reach.set a T c act hb
    rwa [hset] at h
  have htt : b.typeTable = b₀.typeTable := typeTable_of_set hset
  have hT := grantedTypes_noSpace hb.shaped hset
  obtain ⟨r₀, hr₀, hc, -, hcounts⟩ := counts_set hb.shaped hset
  generalize grantedTypes b₀.typeTable T = Tg at hops hr hr₀ hcounts hT ⊢
  -- the record met by the test is `r₀` counted down once per earlier selection
  have hrun := hcounts.run hb₁ hT ops (by rw [htt]; exact hops)
  rw [Nat.zero_add] at hrun
  have hs := (hb₁.run ops).shaped
  obtain ⟨hcount, -, haction, -⟩ := hrun r (hr ▸ find?_of_selected? hs hsel)
  rw [hc] at hcount
  obtain ⟨-, pre, post, heq, hpre⟩ := List.find?_eq_some_iff_append.mp hsel
  obtain ⟨-, hint, hfired⟩ := selected?_spec hsel
  obtain ⟨hdown, hfire⟩ := test_selected hs hsel
  refine ⟨r₀, hr₀, hc, hcount, haction, hint, hfired,
    ⟨pre, post, heq, fun r' h' => by simpa using hpre r' h'⟩,
    htt ▸ types_at?_run_sublist b ops a, fun hk => ?_, fun hk => ?_⟩
  · -- a count is left after this selection
    obtain ⟨hnone, hfind⟩ := hdown (by omega)
    rw [hr, hcount, Nat.sub_sub] at hfind
    exact ⟨hnone, hfind⟩
  · -- this selection fires it
    obtain ⟨hhit, hfind⟩ := hfire (by omega)
    rw [haction] at hhit
    exact ⟨hhit, hr ▸ hfind⟩

/-- In the table of a machine with only execution breakpoints, a breakpoint set at address 128
with count 2 counts down on a test at instant 10, and fires on the next test, at 11. -/
theorem test_counts_down_then_fires_of_standard :
    let a := Address.ofNat 128
    let E := BreakTypeTable.standard.defaultTypes
    let b₀ := BreakTable.new BreakTypeTable.standard
    let b := (b₀.set a E 2 none).toOption.getD b₀
    let ops := [Op.test a E 10]
    let r := ((b.run ops).selected? a E 11).getD (BreakRecord.fresh a E)
    b₀.Reach ∧ b₀.set a E 2 none = .ok b ∧
      (∀ op ∈ ops, ¬op.Redefines b₀.typeTable a (grantedTypes b₀.typeTable E)) ∧
      (b.run ops).selected? a E 11 = some r ∧ r.types = grantedTypes b₀.typeTable E ∧
      ∃ r₀, b.find? a (grantedTypes b₀.typeTable E) = some r₀ ∧ r₀.count = 2 ∧
        r.count = 2 - selectionsIn b a (grantedTypes b₀.typeTable E) ops ∧ r.action = r₀.action ∧
        r.types.intersects ((b.run ops).testedTypes E) = true ∧
        r.firedAt E.space ≠ some 11 ∧
        (∃ pre post, (b.run ops).at? a = pre ++ r :: post ∧
          ∀ r' ∈ pre, selects ((b.run ops).testedTypes E) true E.space 11 r' = false) ∧
        (((b.run ops).at? a).map (·.types)).Sublist
          ((b.at? a).map (·.types) ++ createdIn b₀.typeTable a ops) ∧
        (selectionsIn b a (grantedTypes b₀.typeTable E) ops + 1 < 2 →
          ((b.run ops).test a E 11).1 = none ∧
          ((b.run ops).test a E 11).2.find? a (grantedTypes b₀.typeTable E) =
            some { r.stamp E.space (some 11) with
              count := 2 - (selectionsIn b a (grantedTypes b₀.typeTable E) ops + 1) }) ∧
        (max 2 1 ≤ selectionsIn b a (grantedTypes b₀.typeTable E) ops + 1 →
          ((b.run ops).test a E 11).1 =
            some ⟨a, ((b.run ops).testedTypes E).inter r.types, r₀.action⟩ ∧
          ((b.run ops).test a E 11).2.find? a (grantedTypes b₀.typeTable E) =
            if r.types.intersects BreakTypes.temp then none
            else some { r.stamp E.space (some 11) with count := 0 }) := by
  intro a E b₀ b ops r
  have hb : b₀.Reach := .new _ (by decide) (by decide)
  have hset : b₀.set a E 2 none = .ok b := by
    have hok : (b₀.set a E 2 none).toOption.isSome = true := by decide
    show b₀.set a E 2 none = .ok ((b₀.set a E 2 none).toOption.getD b₀)
    generalize b₀.set a E 2 none = x at hok ⊢
    cases x with
    | error e => cases hok
    | ok b' => rfl
  have hops : ∀ op ∈ ops, ¬op.Redefines b₀.typeTable a (grantedTypes b₀.typeTable E) := by
    intro op hop
    rw [List.mem_singleton] at hop
    subst hop
    exact id
  have hsel : (b.run ops).selected? a E 11 = some r := by decide
  have hr : r.types = grantedTypes b₀.typeTable E := by decide
  exact ⟨hb, hset, hops, hsel, hr, test_counts_down_then_fires hb hset ops hops hsel hr⟩

end BreakTable

end SimControl
