import SimControl.Proofs.BreakTableShape
import SimControl.Bench.Machine
/-!
# Skipping tests by the summary

The summary of a table holds every type of every record, the temporary flag left out
(`shape_invariants`). A test for types without that flag which miss the summary, while the
table holds no dynamic record, therefore selects no record: it reports nothing and leaves the
table as it was (`test_eq_of_summary_disjoint`). The test bench skips its breakpoint tests while
the summary is empty, and in every reachable table that is the same as testing
(`summary_shortcut_exact`).

* `intersects_eq_true_iff`: types meet exactly when they share a bit below the debounce space;
  every fact here is read off single bits through it.
-/

namespace SimControl

namespace BreakTypes

/-- Two sets of types meet exactly when some bit below the debounce space is in both. -/
theorem intersects_eq_true_iff {a b : BreakTypes} :
    a.intersects b = true ↔ ∃ i, a.bits.toBitVec.getLsbD i = true ∧
      b.bits.toBitVec.getLsbD i = true ∧ typeMask.toBitVec.getLsbD i = true := by
  simp only [intersects, bne_iff_ne, ne_eq]
  constructor
  · intro h
    refine Classical.byContradiction fun hnone => h ?_
    apply UInt32.toBitVec_inj.mp
    apply BitVec.eq_of_getLsbD_eq
    intro i _
    have hi : ¬(a.bits.toBitVec.getLsbD i = true ∧ b.bits.toBitVec.getLsbD i = true ∧
        typeMask.toBitVec.getLsbD i = true) := fun hall => hnone ⟨i, hall⟩
    simp only [UInt32.toBitVec_and, BitVec.getLsbD_and, UInt32.toBitVec_zero,
      BitVec.getLsbD_zero]
    revert hi
    cases a.bits.toBitVec.getLsbD i <;> cases b.bits.toBitVec.getLsbD i <;>
      cases typeMask.toBitVec.getLsbD i <;> simp
  · rintro ⟨i, ha, hb, hm⟩ h
    have hbit := congrArg (fun v : UInt32 => v.toBitVec.getLsbD i) h
    simp [ha, hb, hm] at hbit

/-- Types that meet nothing below the debounce space meet no other types. -/
theorem intersects_eq_false_of_isEmpty {a : BreakTypes} (h : a.isEmpty = true) (b : BreakTypes) :
    a.intersects b = false := by
  simp only [isEmpty, beq_iff_eq] at h
  simp only [intersects, bne_eq_false_iff_eq]
  calc a.bits &&& b.bits &&& typeMask = (a.bits &&& typeMask) &&& b.bits := by ac_rfl
    _ = 0 := by rw [h, UInt32.zero_and]

/-- Whether types meet does not depend on their debounce space. -/
theorem withoutSpace_intersects (a b : BreakTypes) : a.withoutSpace.intersects b = a.intersects b := by
  simp only [withoutSpace, intersects]
  congr 1
  ac_nf

private theorem space_bits_and_typeMask :
    ∀ n : Nat, n < 8 → (n.toUInt32 <<< (29 : UInt32)) &&& typeMask = 0 := by
  decide

/-- Putting types in a debounce space keeps the types. -/
theorem withoutSpace_inSpace (a : BreakTypes) (n : Nat) : (a.inSpace n).withoutSpace = a.withoutSpace := by
  have hspace := space_bits_and_typeMask (n % 8) (Nat.mod_lt n (by decide))
  apply ext_bits
  show ((a.bits &&& typeMask) ||| ((n % 8).toUInt32 <<< 29)) &&& typeMask = a.bits &&& typeMask
  apply UInt32.toBitVec_inj.mp
  apply BitVec.eq_of_getLsbD_eq
  intro i _
  have hbit := congrArg (fun v : UInt32 => v.toBitVec.getLsbD i) hspace
  simp only [UInt32.toBitVec_and, UInt32.toBitVec_or, BitVec.getLsbD_and, BitVec.getLsbD_or,
    UInt32.toBitVec_zero, BitVec.getLsbD_zero] at hbit ⊢
  revert hbit
  cases a.bits.toBitVec.getLsbD i <;> cases typeMask.toBitVec.getLsbD i <;>
    cases ((n % 8).toUInt32 <<< 29).toBitVec.getLsbD i <;> simp

theorem inSpace_intersects (a : BreakTypes) (n : Nat) (b : BreakTypes) :
    (a.inSpace n).intersects b = a.intersects b := by
  rw [← withoutSpace_intersects, withoutSpace_inSpace, withoutSpace_intersects]

/-- A type of a record that meets types without the temporary flag is a type the record gives
to the summary. -/
theorem inter_temp_compl_intersects {r t : BreakTypes} (ht : t.intersects temp = false)
    (h : r.intersects t = true) : (r.inter temp.compl).intersects t = true := by
  obtain ⟨i, hr, hti, hm⟩ := intersects_eq_true_iff.mp h
  -- bit `i` is a type of `t`, so it is not the temporary flag
  have htemp : temp.bits.toBitVec.getLsbD i = false := by
    cases hbit : temp.bits.toBitVec.getLsbD i
    · rfl
    · have : t.intersects temp = true := intersects_eq_true_iff.mpr ⟨i, hti, hbit, hm⟩
      rw [ht] at this
      cases this
  refine intersects_eq_true_iff.mpr ⟨i, ?_, hti, hm⟩
  simp only [inter, compl, UInt32.toBitVec_and, UInt32.toBitVec_not, BitVec.getLsbD_and,
    BitVec.getLsbD_not, hr, htemp, hm]
  simp [BitVec.lt_of_getLsbD hm]

end BreakTypes

namespace BreakTable

variable {b : BreakTable}

/-- Types without the temporary flag that some record meets meet the summary of the records. -/
theorem summaryOf_intersects {rs : List BreakRecord} {r : BreakRecord} (hr : r ∈ rs)
    {t : BreakTypes} (ht : t.intersects BreakTypes.temp = false) (h : r.types.intersects t = true) :
    (summaryOf rs).intersects t = true := by
  obtain ⟨i, hri, hti, hm⟩ :=
    BreakTypes.intersects_eq_true_iff.mp (BreakTypes.inter_temp_compl_intersects ht h)
  have hsum : (summaryOf rs).bits.toBitVec.getLsbD i = true := by
    rw [getLsbD_summaryOf, List.any_eq_true]
    exact ⟨r, hr, hri⟩
  exact BreakTypes.intersects_eq_true_iff.mpr ⟨i, hsum, hti, hm⟩

/-- A test for types without the temporary flag that miss an exact summary, while the summary
has no dynamic type, selects nothing: it reports no hit and leaves the table as it was. -/
theorem test_eq_of_summary_disjoint (hs : b.summary = summaryOf b.records) (a : Address)
    {types : BreakTypes} (now : Int) (htemp : types.intersects BreakTypes.temp = false)
    (hdyn : b.summary.intersects BreakTypes.dynamic = false)
    (hdisj : b.summary.intersects types.withoutSpace = false) : b.test a types now = (none, b) := by
  have htemp' : types.withoutSpace.intersects BreakTypes.temp = false := by
    rw [BreakTypes.withoutSpace_intersects]
    exact htemp
  -- no record at the address meets the tested types, for its types are in the summary
  have hnone : (b.at? a).findIdx? (selects types.withoutSpace true types.space now) = none := by
    rw [List.findIdx?_eq_none_iff]
    intro r hr
    have hmiss : r.types.intersects types.withoutSpace = false := by
      cases hmeet : r.types.intersects types.withoutSpace
      · rfl
      · have := summaryOf_intersects (mem_records_iff_at.mpr (Or.inl hr)) htemp' hmeet
        rw [← hs, hdisj] at this
        cases this
    simp [selects, hmiss]
  unfold test
  simp only [hdyn, Bool.false_eq_true, if_false, hnone]

end BreakTable

namespace Context

/-- With an exact, empty summary, testing for types without the temporary flag does nothing. -/
theorem brkTest_of_summary_isEmpty {c : Context}
    (hs : c.breaks.summary = BreakTable.summaryOf c.breaks.records)
    (hempty : c.breaks.summary.isEmpty = true) (a : Address) {types : BreakTypes}
    (htemp : types.intersects BreakTypes.temp = false) : c.brkTest a types = (none, c) := by
  have htest := BreakTable.test_eq_of_summary_disjoint hs a c.gtime htemp
    (BreakTypes.intersects_eq_false_of_isEmpty hempty _)
    (BreakTypes.intersects_eq_false_of_isEmpty hempty _)
  simp only [brkTest, htest]

end Context

/-- The summary shortcut is exact: in every reachable table, a test for types without the
temporary flag that miss the summary, while the summary has no dynamic type, reports nothing
and leaves the table as it was; so the test bench, which skips its tests while the summary is
empty, behaves in every debounce space exactly as if it always tested. -/
theorem summary_shortcut_exact {c : Context} (hb : c.breaks.Reach) (a : Address)
    {types : BreakTypes} (htemp : types.intersects BreakTypes.temp = false) (now : Int) :
    (c.breaks.summary.intersects types.withoutSpace = false →
      c.breaks.summary.intersects BreakTypes.dynamic = false →
        c.breaks.test a types now = (none, c.breaks)) ∧
    ∀ space, Bench.Machine.checkBreak c a types space = c.brkTest a (types.inSpace space) := by
  have hs := hb.shaped.summary_eq
  refine ⟨fun hdisj hdyn => BreakTable.test_eq_of_summary_disjoint hs a now htemp hdyn hdisj, ?_⟩
  intro space
  unfold Bench.Machine.checkBreak
  split
  · next hempty =>
    have htemp' : (types.inSpace space).intersects BreakTypes.temp = false := by
      rw [BreakTypes.inSpace_intersects]
      exact htemp
    exact (Context.brkTest_of_summary_isEmpty hs hempty a htemp').symm
  · rfl

/-- Two bench contexts, each tested for execution at address 8. In the first, a read breakpoint
there puts R in the summary: the test misses the summary, and it reports nothing without the
shortcut. In the second, a breakpoint there with the temporary flag alone leaves the summary
empty, so the bench skips the test, and skipping it is the same as testing. -/
theorem summary_shortcut_exact_of_read_and_temporary :
    let b₀ := BreakTable.new Bench.breakTypeTable
    let a := Address.ofNat 8
    let cR := { Context.new {} Bench.breakTypeTable with
      breaks := (b₀.set a Bench.readTypes 0 none).toOption.getD b₀ }
    let cT := { Context.new {} Bench.breakTypeTable with
      breaks := (b₀.set a BreakTypes.temp 0 none).toOption.getD b₀ }
    cR.breaks.Reach ∧ cT.breaks.Reach ∧ Bench.executeTypes.intersects BreakTypes.temp = false ∧
      (cR.breaks.at? a).length = 1 ∧ cR.breaks.summary.isEmpty = false ∧
      cR.breaks.summary.intersects Bench.executeTypes.withoutSpace = false ∧
      cR.breaks.summary.intersects BreakTypes.dynamic = false ∧
      (cT.breaks.at? a).length = 1 ∧ cT.breaks.summary.isEmpty = true ∧
      ((cR.breaks.summary.intersects Bench.executeTypes.withoutSpace = false →
        cR.breaks.summary.intersects BreakTypes.dynamic = false →
          cR.breaks.test a Bench.executeTypes 0 = (none, cR.breaks)) ∧
        ∀ space, Bench.Machine.checkBreak cR a Bench.executeTypes space =
          cR.brkTest a (Bench.executeTypes.inSpace space)) ∧
      ((cT.breaks.summary.intersects Bench.executeTypes.withoutSpace = false →
        cT.breaks.summary.intersects BreakTypes.dynamic = false →
          cT.breaks.test a Bench.executeTypes 0 = (none, cT.breaks)) ∧
        ∀ space, Bench.Machine.checkBreak cT a Bench.executeTypes space =
          cT.brkTest a (Bench.executeTypes.inSpace space)) := by
  intro b₀ a cR cT
  have hR : cR.breaks.Reach := .set _ _ _ _ (.new _ (by decide) (by decide))
  have hT : cT.breaks.Reach := .set _ _ _ _ (.new _ (by decide) (by decide))
  have htemp : Bench.executeTypes.intersects BreakTypes.temp = false := by decide
  exact ⟨hR, hT, htemp, by decide +kernel, by decide +kernel, by decide +kernel, by decide +kernel,
    by decide +kernel, by decide +kernel, summary_shortcut_exact hR a htemp 0,
    summary_shortcut_exact hT a htemp 0⟩

end SimControl
