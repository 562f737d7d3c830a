import SimControl.Proofs.PlantedRecords
/-!
# A record that counts down hides the records behind it

A test selects the first record at its address that has some of the tested types and has not
matched in the test's space at the test's instant. It fires exactly when that record's count is
at most one (`test_fires_iff`), and it consults no record behind it. GO UNTIL an address plants
its temporary record behind the records already there (`at?_set_planted`). So a breakpoint of
the operator's at the address that still counts down takes GO's execution test, and the run
goes past the address (`go_until_halts_past_counting_record`). NEXT's step-over record at the
return address is hidden the same way by a record of the operator's there that counts down and
takes both the execution and the fetch test (`next_runs_past_counting_record`).
-/

namespace SimControl

namespace BreakTable

variable {b b' : BreakTable} {a : Address} {types : BreakTypes} {now : Int} {r : BreakRecord}

/-- What a test that selects a record reports: nothing while the record counts down, else the
tested types the record has, with its action. -/
theorem test_fst_of_selected? (hsel : b.selected? a types now = some r) :
    (b.test a types now).1 =
      if 1 < r.count then none else some ⟨a, (b.testedTypes types).inter r.types, r.action⟩ := by
  obtain ⟨hp, i, hlt, hget, hbefore⟩ := List.find?_eq_some_iff_getElem.mp hsel
  have hidx : (b.at? a).findIdx? (selects (b.testedTypes types) true types.space now) = some i :=
    List.findIdx?_eq_some_iff_getElem.mpr ⟨hlt, hget ▸ hp, fun j hj => by simpa using hbefore j hj⟩
  have hi : (b.at? a)[i]? = some r := by rw [List.getElem?_eq_getElem hlt, hget]
  unfold testedTypes at hidx ⊢
  unfold test
  dsimp only
  rw [hidx]
  dsimp only
  rw [hi]
  dsimp only
  -- stamping the record keeps its count, types and action
  by_cases hc : 1 < r.count
  · rw [if_pos (show (r.stamp types.space (some now)).count > 1 from hc), if_pos hc]
  · rw [if_neg (show ¬(r.stamp types.space (some now)).count > 1 from hc), if_neg hc]
    rfl

/-- A test fires exactly when the first record it selects has a count of at most one. -/
theorem test_fires_iff (b : BreakTable) (a : Address) (types : BreakTypes) (now : Int) :
    (b.test a types now).1.isSome ↔ ∃ r, b.selected? a types now = some r ∧ r.count ≤ 1 := by
  cases hsel : b.selected? a types now with
  | none =>
    rw [test_eq_of_selected?_eq_none hsel]
    simp
  | some r =>
    rw [test_fst_of_selected? hsel]
    by_cases hc : 1 < r.count
    · rw [if_pos hc]
      simp only [Option.isSome_none, Bool.false_eq_true, Option.some.injEq, exists_eq_left',
        false_iff, not_le]
      exact hc
    · rw [if_neg hc]
      simp only [Option.isSome_some, Option.some.injEq, exists_eq_left', true_iff]
      omega

/-- A granted set of types with the temporary flag, at an address where no record has it, adds
a fresh record of the granted types behind the records there, with no count. -/
theorem at?_set_planted {T : BreakTypes} {action : Option String}
    (hset : b.set a T 0 action = .ok b') (hT : T.intersects BreakTypes.temp = true)
    (hclean : ∀ r ∈ b.at? a, r.types.intersects BreakTypes.temp = false) :
    ∃ r, b'.at? a = b.at? a ++ [r] ∧ r.types = grantedTypes b.typeTable T ∧ r.count = 0 := by
  have hg := intersects_grantedTypes b.typeTable hT
  unfold set at hset
  dsimp only at hset
  generalize ht : (if T.withoutSpace.isEmpty || T.withoutSpace == BreakTypes.stepOver then
    T.withoutSpace.union b.typeTable.defaultTypes else T.withoutSpace) = t at hset
  have htg : t = grantedTypes b.typeTable T := ht.symm
  split at hset
  · cases hset
  · split at hset
    · cases hset
    · -- no record there has the granted types, which have the temporary flag
      have hnone : ((b.at? a).any fun r => r.types == t) = false := by
        rw [List.any_eq_false]
        intro r hr heq
        rw [beq_iff_eq] at heq
        have := hclean r hr
        rw [heq, htg, hg] at this
        cases this
      cases hset
      show ∃ r, (b.withChain a _).at? a = _ ∧ _
      rw [at?_withChain, if_pos rfl, hnone]
      exact ⟨_, rfl, htg, rfl⟩

end BreakTable

/-- GO UNTIL an address, on a settled table, plants its temporary record with no count behind
every record already at the address; and a test there fires exactly when the first record it
selects has a count of at most one. So a record of the operator's ahead of GO's that has the
tested types and still counts down takes the test, which reports nothing and consults no record
behind it. -/
theorem go_until_record_behind {b b' : BreakTable} {a : Address} (hb : b.Settled)
    (hset : b.set a (BreakTypes.temp.union b.typeTable.defaultTypes) 0 none = .ok b') :
    (∃ r, b'.at? a = b.at? a ++ [r] ∧ r.types.intersects BreakTypes.temp = true ∧ r.count = 0) ∧
    ∀ types now, ((b'.test a types now).1.isSome ↔
      ∃ r, b'.selected? a types now = some r ∧ r.count ≤ 1) := by
  have hT := BreakTypes.temp_union_intersects_temp b.typeTable.defaultTypes
  have hclean : ∀ r ∈ b.at? a, r.types.intersects BreakTypes.temp = false :=
    fun r hr => (hb.unplanted hr).2.2
  obtain ⟨r, hat, htypes, hcount⟩ := BreakTable.at?_set_planted hset hT hclean
  refine ⟨⟨r, hat, ?_, hcount⟩, BreakTable.test_fires_iff b' a⟩
  rw [htypes]
  exact BreakTable.intersects_grantedTypes _ hT

/-- GO UNTIL address 1 on the bench table after BREAK 1[3]: GO's record goes behind the
operator's, which has three matches left to count, takes the execution test at address 1 and
reports nothing. -/
theorem go_until_record_behind_of_counting :
    let b := BreakTable.new Bench.breakTypeTable
    let b₁ := (b.set (Address.ofNat 1) BreakTypes.empty 3 none).toOption.getD b
    let T := BreakTypes.temp.union b₁.typeTable.defaultTypes
    let b' := (b₁.set (Address.ofNat 1) T 0 none).toOption.getD b₁
    b₁.Settled ∧ b₁.set (Address.ofNat 1) T 0 none = .ok b' ∧
      ((∃ r, b'.at? (Address.ofNat 1) = b₁.at? (Address.ofNat 1) ++ [r] ∧
          r.types.intersects BreakTypes.temp = true ∧ r.count = 0) ∧
        ∀ types now, ((b'.test (Address.ofNat 1) types now).1.isSome ↔
          ∃ r, b'.selected? (Address.ofNat 1) types now = some r ∧ r.count ≤ 1)) ∧
      (b₁.at? (Address.ofNat 1)).map (·.count) = [3] ∧
      (b'.test (Address.ofNat 1) Bench.executeTypes 0).1 = none := by
  intro b b₁ T b'
  have hset₁ : b.set (Address.ofNat 1) BreakTypes.empty 3 none = .ok b₁ := by
    unfold b₁ BreakTable.set
    dsimp only
    rw [if_neg (by decide), if_neg (by decide)]
    rfl
  have hb₁ : b₁.Settled :=
    (BreakTable.settled_new Bench.breakTypeTable (by decide) (by decide)
      ⟨by decide, by decide, by decide⟩).set hset₁ (.inl ⟨by decide, by decide, by decide⟩)
  have hset : b₁.set (Address.ofNat 1) T 0 none = .ok b' := by
    unfold b' BreakTable.set
    dsimp only
    rw [if_neg (by decide +kernel), if_neg (by decide +kernel)]
    rfl
  exact ⟨hb₁, hset, go_until_record_behind hb₁ hset, by decide +kernel, by decide +kernel⟩

namespace Session

/-- GO UNTIL 1 after BREAK 1[3], on the program NOP, NOP, HALT (what the text
`NOP\nNOP\nHALT\n` loads): the operator's record at address 1 takes the execution test there
and counts down from 3 to 2, GO's record behind it is never consulted, and the machine runs on
to the HALT at address 2, where GO UNTIL 1 should have stopped at address 1 with an execution
breakpoint. -/
theorem go_until_halts_past_counting_record :
    let s : Session := { Session.new {} false {} with
      machine := (Session.new {} false {}).machine.load [.nop, .nop, .halt] }
    let r₁ := s.respond "break 1[3]"
    let r₂ := r₁.2.respond "go until 1"
    r₁.1.result = .ok () ∧ r₂.1.result = .ok () ∧
      r₂.1.out = "\nHALT instruction, PC: 00000002\n".toUTF8.toList ∧
      r₂.2.machine.pc = Address.ofNat 3 ∧
      (r₂.2.ctx.breaks.at? (Address.ofNat 1)).map (·.count) = [2] := by
  decide +kernel

/-- NEXT over CALL 3 after BREAK -EN 1[3], on the program CALL 3, NOP, HALT, RET: the call
returns to address 1, where the operator's record takes both the execution and the fetch test
and counts down from 3 to 1, so NEXT's step-over record behind it is never consulted and the
machine runs on to the HALT at address 2 instead of ending the step at address 1. -/
theorem next_runs_past_counting_record :
    let s : Session := { Session.new {} false {} with
      machine := (Session.new {} false {}).machine.load
        [.call (Address.ofNat 3), .nop, .halt, .ret] }
    let r₁ := s.respond "break -en 1[3]"
    let r₂ := r₁.2.respond "next"
    r₁.1.result = .ok () ∧ r₂.1.result = .ok () ∧
      r₂.1.out = "\nHALT instruction, PC: 00000002\n".toUTF8.toList ∧
      r₂.2.machine.pc = Address.ofNat 3 ∧
      (r₂.2.ctx.breaks.at? (Address.ofNat 1)).map (·.count) = [1] := by
  decide +kernel

end Session

end SimControl
