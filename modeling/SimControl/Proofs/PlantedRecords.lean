import Mathlib.Logic.Relation
import SimControl.Proofs.PlantedTypes
import SimControl.Proofs.BreakRerun
import SimControl.Proofs.RefusedCommand
/-!
# Planted breakpoints are swept away

A table is `Sweepable c` when it is reachable, its default types are unplanted, and each of its
records asks for no planted type or has one of the types `c`: the records a command planted
for itself and sweeps with `clearAll c` once the machine stops. A table between commands is
`Settled`: nothing is left to sweep, so no record is planted.

The machine changes the table only by testing it (`tested_run`), and a test keeps every
record's types or removes the record, so a run keeps the table sweepable. A settled table has
no dynamic type in its summary: the machine runs with the summary's dynamic shortcut off.
-/

namespace SimControl

namespace BreakTable

variable {b b' : BreakTable} {c : BreakTypes}

/-- A reachable table whose records ask for no planted type, apart from those that have one
of the types `c`, which the command that planted them sweeps away. -/
structure Sweepable (c : BreakTypes) (b : BreakTable) : Prop where
  reach : b.Reach
  default_unplanted : b.typeTable.defaultTypes.Unplanted
  types : ∀ a, ∀ r ∈ b.at? a, r.types.Unplanted ∨ r.types.intersects c = true

/-- A table between commands: sweepable with nothing to sweep. -/
abbrev Settled (b : BreakTable) : Prop := Sweepable BreakTypes.empty b

theorem Settled.unplanted (h : b.Settled) {a : Address} {r : BreakRecord} (hr : r ∈ b.at? a) :
    r.types.Unplanted := by
  rcases h.types a r hr with hu | hc
  · exact hu
  · rw [BreakTypes.intersects_empty] at hc
    cases hc

theorem Settled.sweepable (h : b.Settled) (c : BreakTypes) : b.Sweepable c :=
  ⟨h.reach, h.default_unplanted, fun _ _ hr => Or.inl (h.unplanted hr)⟩

/-- An empty table is settled when the machine's default types are a type with no debounce space
and no planted flag. -/
theorem settled_new (tt : BreakTypeTable) (h₁ : tt.defaultTypes.isEmpty = false)
    (h₂ : tt.defaultTypes.withoutSpace = tt.defaultTypes) (hd : tt.defaultTypes.Unplanted) :
    (BreakTable.new tt).Settled := by
  refine ⟨.new tt h₁ h₂, hd, fun a r hr => ?_⟩
  rw [at?_eq] at hr
  cases hr

/-- Every record of a settled table is unplanted. -/
theorem Settled.records_unplanted (h : b.Settled) : ∀ r ∈ b.records, r.types.Unplanted := by
  intro r hr
  obtain ⟨a, rs, hrs, hr⟩ := mem_records.mp hr
  have hat : b.at? a = rs := by rw [at?_eq, hrs]; rfl
  exact h.unplanted (hat ▸ hr)

/-- The summary of a settled table has no dynamic type. -/
theorem Settled.summary_dynamic (h : b.Settled) : b.summary.intersects BreakTypes.dynamic = false := by
  rw [h.reach.shaped.summary_eq]
  cases hsum : (summaryOf b.records).intersects BreakTypes.dynamic with
  | false => rfl
  | true =>
    obtain ⟨i, hi, hd, hm⟩ := BreakTypes.intersects_eq_true_iff.mp hsum
    rw [getLsbD_summaryOf, List.any_eq_true] at hi
    obtain ⟨r, hr, hbit⟩ := hi
    -- the record's bit `i` survives in its types, which would then meet a dynamic type
    have hri : r.types.bits.toBitVec.getLsbD i = true := by
      simp only [BreakTypes.inter, UInt32.toBitVec_and, BitVec.getLsbD_and] at hbit
      exact (Bool.and_eq_true_iff.mp hbit).1
    have hmeet : r.types.intersects BreakTypes.dynamic = true :=
      BreakTypes.intersects_eq_true_iff.mpr ⟨i, hri, hd, hm⟩
    obtain ⟨hs, hu, -⟩ := h.records_unplanted r hr
    rw [BreakTypes.intersects_dynamic, hs, hu] at hmeet
    cases hmeet

/-! ## The steps that keep a table sweepable -/

/-- A change that keeps the machine's types and gives every record the types of a record at
the same address before keeps a table sweepable, once it is known to be reachable. -/
theorem Sweepable.of_types (h : b.Sweepable c) (hreach : b'.Reach)
    (htt : b'.typeTable = b.typeTable)
    (htypes : ∀ a, ∀ r ∈ b'.at? a, ∃ r₀ ∈ b.at? a, r₀.types = r.types) : b'.Sweepable c where
  reach := hreach
  default_unplanted := htt ▸ h.default_unplanted
  types a r hr := by
    obtain ⟨r₀, hr₀, ht⟩ := htypes a r hr
    exact ht ▸ h.types a r₀ hr₀

@[simp] theorem typeTable_test (b : BreakTable) (a : Address) (types : BreakTypes) (now : Int) :
    (b.test a types now).2.typeTable = b.typeTable := by
  unfold test
  dsimp only
  split
  · rfl
  · split
    · rfl
    · split
      · rfl
      · simp only [apply_ite BreakTable.typeTable, withChain, resummarize, ite_self]

/-- A test keeps the types of every record it keeps. -/
theorem types_test (b : BreakTable) (a : Address) (types : BreakTypes) (now : Int) (a' : Address) :
    ∀ r ∈ (b.test a types now).2.at? a', ∃ r₀ ∈ b.at? a', r₀.types = r.types := by
  intro r hr
  cases hsel : b.selected? a types now with
  | none =>
    rw [test_of_selected?_eq_none hsel] at hr
    exact ⟨r, hr, rfl⟩
  | some r₁ =>
    obtain ⟨i, hi, hat⟩ := at?_test hsel
    rw [hat a'] at hr
    have hr₁ : r₁ ∈ b.at? a := List.mem_of_getElem? hi
    split at hr
    · rename_i haa
      subst haa
      split at hr
      · exact ⟨r, List.mem_of_mem_eraseIdx hr, rfl⟩
      · rcases List.mem_or_eq_of_mem_set hr with hr | rfl
        · exact ⟨r, hr, rfl⟩
        · exact ⟨r₁, hr₁, rfl⟩
    · exact ⟨r, hr, rfl⟩

theorem Sweepable.test (h : b.Sweepable c) (a : Address) (types : BreakTypes) (now : Int) :
    (b.test a types now).2.Sweepable c :=
  h.of_types (.test a types now h.reach) (typeTable_test b a types now) (types_test b a types now)

theorem Sweepable.newPc (h : b.Sweepable c) (spaces : Nat) : (b.newPc spaces).Sweepable c := by
  refine h.of_types (.newPc spaces h.reach) rfl fun a r hr => ?_
  unfold BreakTable.newPc at hr
  rw [at?_eq] at hr
  change r ∈ ((b.chains.map _)[a]?).getD [] at hr
  rw [Std.TreeMap.getElem?_map] at hr
  cases hb : b.chains[a]? with
  | none =>
    rw [hb] at hr
    cases hr
  | some rs =>
    rw [hb] at hr
    obtain ⟨r₀, hr₀, rfl⟩ := List.mem_map.mp hr
    refine ⟨r₀, ?_, (foldl_stamp_none _ r₀).1.symm⟩
    rw [at?_eq, hb]
    exact hr₀

@[simp] theorem typeTable_clear (b : BreakTable) (a : Address) (types : BreakTypes) :
    (b.clear a types).typeTable = b.typeTable := by
  unfold BreakTable.clear
  dsimp only
  split <;> rfl

theorem Sweepable.clear (h : b.Sweepable c) (a : Address) (types : BreakTypes) :
    (b.clear a types).Sweepable c := by
  refine h.of_types (.clear a types h.reach) (typeTable_clear b a types) fun a' r hr => ?_
  rw [at?_clear] at hr
  split at hr
  · rename_i haa
    subst haa
    exact ⟨r, List.mem_of_mem_filter hr, rfl⟩
  · exact ⟨r, hr, rfl⟩

theorem Sweepable.clearAll (h : b.Sweepable c) (types : BreakTypes) :
    (b.clearAll types).Sweepable c := by
  refine h.of_types (.clearAll types h.reach) rfl fun a r hr => ?_
  rw [at?_clearAll] at hr
  exact ⟨r, List.mem_of_mem_filter hr, rfl⟩

/-- Sweeping the planted types leaves a settled table. -/
theorem Sweepable.sweep (h : b.Sweepable c) (hc : clearMask c = c) : (b.clearAll c).Settled where
  reach := .clearAll c h.reach
  default_unplanted := h.default_unplanted
  types a r hr := by
    rw [at?_clearAll, hc, List.mem_filter] at hr
    obtain ⟨hr, hkeep⟩ := hr
    rcases h.types a r hr with hu | hmeet
    · exact Or.inl hu
    · rw [hmeet] at hkeep
      cases hkeep

/-! ## Setting a breakpoint -/

/-- The granted types meet every type the types asked for meet. -/
theorem intersects_grantedTypes (tt : BreakTypeTable) {types t : BreakTypes}
    (h : types.intersects t = true) : (grantedTypes tt types).intersects t = true := by
  unfold grantedTypes
  split
  · rw [BreakTypes.union_intersects, BreakTypes.withoutSpace_intersects, h, Bool.true_or]
  · rw [BreakTypes.withoutSpace_intersects]
    exact h

/-- Unplanted types asked of a machine with unplanted default types are granted unplanted. -/
theorem unplanted_grantedTypes {tt : BreakTypeTable} (hd : tt.defaultTypes.Unplanted)
    {types : BreakTypes} (h : types.Unplanted) : (grantedTypes tt types).Unplanted := by
  unfold grantedTypes
  split
  · exact h.withoutSpace.union hd
  · exact h.withoutSpace

/-- A granted set keeps a table sweepable when the types it grants are unplanted or are to be
swept. -/
theorem Sweepable.set (h : b.Sweepable c) {a : Address} {types : BreakTypes} {count : Nat}
    {action : Option String} (hset : b.set a types count action = .ok b')
    (hgranted : (grantedTypes b.typeTable types).Unplanted ∨
      (grantedTypes b.typeTable types).intersects c = true) : b'.Sweepable c where
  reach := by
    have hr := Reach.set a types count action h.reach
    rwa [hset] at hr
  default_unplanted := typeTable_of_set hset ▸ h.default_unplanted
  types a' r hr := by
    rcases (exists_types_of_set hset a' r.types).mp ⟨r, hr, rfl⟩ with ⟨r₀, hr₀, ht⟩ | ⟨-, ht⟩
    · exact ht ▸ h.types a' r₀ hr₀
    · exact ht ▸ hgranted

/-! ## The machine only tests the table -/

/-- The tables a table becomes through breakpoint tests alone. -/
def Tested : BreakTable → BreakTable → Prop :=
  Relation.ReflTransGen fun b b' => ∃ a types now, b' = (b.test a types now).2

theorem Tested.test {b₀ : BreakTable} (h : Tested b₀ b) (a : Address) (types : BreakTypes)
    (now : Int) : Tested b₀ (b.test a types now).2 :=
  Relation.ReflTransGen.tail h ⟨a, types, now, rfl⟩

theorem Tested.sweepable (h : Tested b b') (hb : b.Sweepable c) : b'.Sweepable c := by
  induction h with
  | refl => exact hb
  | tail _ hstep ih =>
    obtain ⟨a, types, now, rfl⟩ := hstep
    exact ih.test a types now

end BreakTable

namespace Bench.Machine

open BreakTable

theorem tested_checkBreak (c : Context) (a : Address) (t : BreakTypes) (space : Nat) :
    Tested c.breaks (checkBreak c a t space).2.breaks := by
  unfold checkBreak
  split
  · exact Relation.ReflTransGen.refl
  · rw [Context.breaks_brkTest]
    exact Tested.test .refl _ _ _

theorem breaks_sendPoll (c : Context) (line : Nat) : (c.sendPoll line).2.breaks = c.breaks := by
  unfold Context.sendPoll
  split <;> rfl

theorem breaks_expCheck (c : Context) (line : Nat) (byte : UInt8) :
    (c.expCheck line byte).breaks = c.breaks := by
  unfold Context.expCheck
  split
  · rfl
  · dsimp only
    split
    · rfl
    · dsimp only
      split <;> rfl

theorem breaks_foldl_expCheck (bytes : List UInt8) (c : Context) :
    (bytes.foldl (fun c b => c.expCheck 0 b) c).breaks = c.breaks := by
  induction bytes generalizing c with
  | nil => rfl
  | cons b bytes ih => rw [List.foldl_cons, ih, breaks_expCheck]

theorem tested_dataTest {m m' : Machine} {c : Context} {a : Address} {t : BreakTypes} :
    Tested c.breaks (match checkBreak c a t 2 with
      | (some stop, c) => ((.error stop, m, c) : Except Stop Unit × Machine × Context)
      | (none, c) => tick m' c).2.2.breaks := by
  have h := tested_checkBreak c a t 2
  rcases hc : checkBreak c a t 2 with ⟨_ | stop, c'⟩ <;> rw [hc] at h <;> exact h

/-- An instruction changes the table only by testing it. -/
theorem tested_execute (m : Machine) (c : Context) : Tested c.breaks (m.execute c).2.2.breaks := by
  unfold execute
  dsimp only
  have h₁ := tested_checkBreak c m.pc executeTypes 0
  rcases hc₁ : checkBreak c m.pc executeTypes 0 with ⟨_ | stop, c₁⟩ <;> rw [hc₁] at h₁
  case some => exact h₁
  dsimp only
  have h₂ := h₁.trans (tested_checkBreak c₁ m.pc fetchTypes 1)
  rcases hc₂ : checkBreak c₁ m.pc fetchTypes 1 with ⟨_ | stop, c₂⟩ <;> rw [hc₂] at h₂
  case some => exact h₂
  dsimp only
  -- past its two tests, only a load or a store tests again
  cases hi : m.instructionAt m.pc with
  | none => exact h₂
  | some i =>
    cases i with
    | nop | add _ | jump _ | jumpNonzero _ | call _ | halt | print _ => exact h₂
    | read =>
      dsimp only
      have hp := breaks_sendPoll c₂ 0
      rcases hpoll : c₂.sendPoll 0 with ⟨p, c₃⟩
      rw [hpoll] at hp
      cases p <;> exact hp ▸ h₂
    | load a => exact h₂.trans tested_dataTest
    | store a => exact h₂.trans tested_dataTest
    | ret =>
      dsimp only
      split <;> exact h₂

theorem tested_runSlice (m : Machine) (c : Context) (out : Array UInt8) :
    Tested c.breaks (m.runSlice c out).2.2.1.breaks := by
  unfold runSlice
  split
  · -- the due units fire and the console's characters meet the expect rules: no test
    rcases hp : c.processEvent Console.react 0 m.console with ⟨status, con, c₁⟩
    have hb : c₁.breaks = c.breaks := by
      have := congrArg (fun x => x.2.2.breaks) hp
      exact this.symm
    show Tested c.breaks (con.emitted.foldl (fun c b => c.expCheck 0 b) c₁).breaks
    rw [breaks_foldl_expCheck, hb]
    exact Relation.ReflTransGen.refl
  · exact tested_execute m c

/-- A run of the machine changes the table only by testing it. -/
theorem tested_run (fuel : Nat) (m : Machine) (c : Context) (out : Array UInt8) :
    Tested c.breaks (m.run fuel c out).2.2.1.breaks := by
  induction fuel generalizing m c out with
  | zero => exact Relation.ReflTransGen.refl
  | succ fuel ih =>
    rw [run]
    have hs := tested_runSlice m c out
    rcases h : m.runSlice c out with ⟨r, m', c', out'⟩
    rw [h] at hs
    cases r with
    | error stop => exact hs
    | ok u => exact hs.trans (ih m' c' out')

end Bench.Machine

end SimControl
