import SimControl.Break.Table
/-!
# The shape of the breakpoint table

Every table reached from an empty one, whatever sets (granted or refused), clears, tests and
resets it went through, keeps its records in shape (`shape_invariants`):

* the summary is the union of the types of all records, the temporary flag left out, although
  a set only adds to it and the removals work it out again;
* no address is kept with no records, every record sits under its own address, and no two
  records of an address have the same types;
* every record has some type, no debounce space, and only letters the machine supports.

The summary is a union of bit sets, so it depends only on which types the records have
(`summaryOf_congr`); each operation is then a matter of which types it leaves at which address.
-/

namespace SimControl

theorem uint32_eq_of_getElem_eq {a b : UInt32}
    (h : ∀ i (hi : i < 32), a.toBitVec[i] = b.toBitVec[i]) : a = b := by
  apply UInt32.toBitVec_inj.mp
  apply BitVec.eq_of_getElem_eq
  exact h

namespace BreakTypes

theorem ext_bits {a b : BreakTypes} (h : a.bits = b.bits) : a = b := by
  cases a
  cases b
  cases h
  rfl

theorem union_isEmpty_eq_false (a : BreakTypes) {b : BreakTypes} (hb : b.isEmpty = false) :
    (a.union b).isEmpty = false := by
  simp only [isEmpty, union, beq_eq_false_iff_ne, ne_eq] at hb ⊢
  intro hab
  apply hb
  apply uint32_eq_of_getElem_eq
  intro i hi
  have := congrArg (fun v : UInt32 => v.toBitVec[i]) hab
  simp only [UInt32.toBitVec_and, UInt32.toBitVec_or, BitVec.getElem_and, BitVec.getElem_or,
    UInt32.toBitVec_zero, BitVec.getElem_zero] at this ⊢
  revert this
  cases a.bits.toBitVec[i] <;> cases b.bits.toBitVec[i] <;> cases typeMask.toBitVec[i] <;> simp

theorem withoutSpace_union {a b : BreakTypes} (ha : a.withoutSpace = a) (hb : b.withoutSpace = b) :
    (a.union b).withoutSpace = a.union b := by
  have ha' : a.bits &&& typeMask = a.bits := congrArg BreakTypes.bits ha
  have hb' : b.bits &&& typeMask = b.bits := congrArg BreakTypes.bits hb
  apply ext_bits
  show (a.bits ||| b.bits) &&& typeMask = a.bits ||| b.bits
  apply uint32_eq_of_getElem_eq
  intro i hi
  have h₁ := congrArg (fun v : UInt32 => v.toBitVec[i]) ha'
  have h₂ := congrArg (fun v : UInt32 => v.toBitVec[i]) hb'
  simp only [UInt32.toBitVec_and, UInt32.toBitVec_or, BitVec.getElem_and, BitVec.getElem_or]
    at h₁ h₂ ⊢
  revert h₁ h₂
  cases a.bits.toBitVec[i] <;> cases b.bits.toBitVec[i] <;> cases typeMask.toBitVec[i] <;> simp

theorem withoutSpace_withoutSpace (a : BreakTypes) : a.withoutSpace.withoutSpace = a.withoutSpace := by
  simp only [withoutSpace, UInt32.and_assoc, UInt32.and_self]

/-- Letters that the check of a set finds no fault with are letters the machine supports. -/
theorem letters_contains_of_unsupported_isEmpty {a s : BreakTypes}
    (h : (a.letters.inter s.letters.compl).isEmpty = true) : s.letters.contains a.letters = true := by
  simp only [letters, Switches.ofBits, Switches.inter, Switches.compl, Switches.isEmpty,
    Switches.contains, beq_iff_eq] at h ⊢
  apply uint32_eq_of_getElem_eq
  intro i hi
  have := congrArg (fun v : UInt32 => v.toBitVec[i]) h
  simp only [UInt32.toBitVec_and, UInt32.toBitVec_not, BitVec.getElem_and, BitVec.getElem_not,
    UInt32.toBitVec_zero, BitVec.getElem_zero] at this ⊢
  revert this
  cases a.bits.toBitVec[i] <;> cases s.bits.toBitVec[i] <;>
    cases Switches.letterMask.toBitVec[i] <;> simp

end BreakTypes

/-! ## The summary depends only on the types present -/

namespace BreakTable

private theorem getLsbD_foldl_summary (rs : List BreakRecord) (acc : BreakTypes) (i : Nat) :
    (rs.foldl (fun acc r => acc.union (r.types.inter BreakTypes.temp.compl)) acc).bits.toBitVec.getLsbD i =
      (acc.bits.toBitVec.getLsbD i ||
        rs.any fun r => (r.types.inter BreakTypes.temp.compl).bits.toBitVec.getLsbD i) := by
  induction rs generalizing acc with
  | nil => simp
  | cons r rs ih =>
    rw [List.foldl_cons, ih, List.any_cons]
    simp only [BreakTypes.union, UInt32.toBitVec_or, BitVec.getLsbD_or, Bool.or_assoc]

/-- Bit `i` of the summary is set exactly when the summarized types of some record have it. -/
theorem getLsbD_summaryOf (rs : List BreakRecord) (i : Nat) :
    (summaryOf rs).bits.toBitVec.getLsbD i =
      rs.any fun r => (r.types.inter BreakTypes.temp.compl).bits.toBitVec.getLsbD i := by
  rw [summaryOf, getLsbD_foldl_summary]
  simp [BreakTypes.empty]

/-- Records with the same types present have the same summary. -/
theorem summaryOf_congr {rs rs' : List BreakRecord}
    (h : ∀ t, (∃ r ∈ rs, r.types = t) ↔ (∃ r ∈ rs', r.types = t)) :
    summaryOf rs = summaryOf rs' := by
  apply BreakTypes.ext_bits
  apply UInt32.toBitVec_inj.mp
  apply BitVec.eq_of_getLsbD_eq
  intro i _
  rw [getLsbD_summaryOf, getLsbD_summaryOf, Bool.eq_iff_iff, List.any_eq_true, List.any_eq_true]
  constructor
  · rintro ⟨r, hr, hbit⟩
    obtain ⟨r', hr', ht⟩ := (h r.types).mp ⟨r, hr, rfl⟩
    exact ⟨r', hr', ht ▸ hbit⟩
  · rintro ⟨r, hr, hbit⟩
    obtain ⟨r', hr', ht⟩ := (h r.types).mpr ⟨r, hr, rfl⟩
    exact ⟨r', hr', ht ▸ hbit⟩

theorem summaryOf_append_singleton (rs : List BreakRecord) (r : BreakRecord) :
    summaryOf (rs ++ [r]) = (summaryOf rs).union (r.types.inter BreakTypes.temp.compl) := by
  simp only [summaryOf, List.foldl_append, List.foldl_cons, List.foldl_nil]

/-! ## Records by address -/

end BreakTable

/-- Addresses are ordered as numbers, so the search tree's lemmas apply. -/
instance : Std.TransOrd Address where
  eq_swap := fun {a b} => (Std.OrientedCmp.eq_swap : compare a.val b.val = (compare b.val a.val).swap)
  isLE_trans := fun {a} {_} {c} h₁ h₂ => (Std.TransCmp.isLE_trans h₁ h₂ : (compare a.val c.val).isLE)

instance : Std.LawfulEqOrd Address where
  compare_self := fun {a} => (Std.ReflCmp.compare_self : compare a.val a.val = .eq)
  eq_of_compare := fun {a b} h => by
    have hval : a.val = b.val := Std.LawfulEqOrd.eq_of_compare (show compare a.val b.val = .eq from h)
    cases a
    cases b
    cases hval
    rfl

namespace BreakTable

variable {b : BreakTable}

theorem mem_records {r : BreakRecord} :
    r ∈ b.records ↔ ∃ (a : Address) (rs : List BreakRecord), b.chains[a]? = some rs ∧ r ∈ rs := by
  simp only [records, List.mem_flatMap]
  constructor
  · rintro ⟨⟨a, rs⟩, hmem, hr⟩
    exact ⟨a, rs, Std.TreeMap.mem_toList_iff_getElem?_eq_some.mp hmem, hr⟩
  · rintro ⟨a, rs, h, hr⟩
    exact ⟨(a, rs), Std.TreeMap.mem_toList_iff_getElem?_eq_some.mpr h, hr⟩

theorem at?_eq (b : BreakTable) (a : Address) : b.at? a = (b.chains[a]?).getD [] :=
  Std.TreeMap.getD_eq_getD_getElem?

/-- Replacing the records of an address: the address keeps them if there are any, and every
other address keeps its own. -/
theorem getElem?_withChain (b : BreakTable) (a a' : Address) (rs : List BreakRecord) :
    (b.withChain a rs).chains[a']? =
      if a = a' then (if rs.isEmpty then none else some rs) else b.chains[a']? := by
  unfold withChain
  by_cases haa : a = a'
  · subst haa
    split
    · simp [*]
    · simp [*]
  · have hcmp : compare a a' ≠ .eq := fun h => haa (Std.LawfulEqCmp.compare_eq_iff_eq.mp h)
    split
    · simp [Std.TreeMap.getElem?_erase, hcmp]
    · simp [Std.TreeMap.getElem?_insert, hcmp]

/-- The records of a table with the records of one address replaced. -/
theorem mem_records_withChain {a : Address} {rs : List BreakRecord} {r : BreakRecord} :
    r ∈ (b.withChain a rs).records ↔
      r ∈ rs ∨ ∃ a' rs', a' ≠ a ∧ b.chains[a']? = some rs' ∧ r ∈ rs' := by
  rw [mem_records]
  constructor
  · rintro ⟨a', rs', h, hr⟩
    rw [getElem?_withChain] at h
    by_cases haa : a = a'
    · rw [if_pos haa] at h
      split at h
      · cases h
      · cases h
        exact Or.inl hr
    · rw [if_neg haa] at h
      exact Or.inr ⟨a', rs', Ne.symm haa, h, hr⟩
  · rintro (hr | ⟨a', rs', hne, h, hr⟩)
    · -- a record of the new list: the list is not empty, so the address keeps it
      refine ⟨a, rs, ?_, hr⟩
      have hne : rs.isEmpty = false := by
        cases rs with
        | nil => cases hr
        | cons _ _ => rfl
      rw [getElem?_withChain, if_pos rfl, hne]
      rfl
    · refine ⟨a', rs', ?_, hr⟩
      rw [getElem?_withChain, if_neg (Ne.symm hne), h]

/-- The records of a table, split into those of one address and the others. -/
theorem mem_records_iff_at {a : Address} {r : BreakRecord} :
    r ∈ b.records ↔ r ∈ b.at? a ∨ ∃ a' rs', a' ≠ a ∧ b.chains[a']? = some rs' ∧ r ∈ rs' := by
  rw [mem_records, at?_eq]
  constructor
  · rintro ⟨a', rs', h, hr⟩
    by_cases haa : a' = a
    · subst haa
      rw [h]
      exact Or.inl hr
    · exact Or.inr ⟨a', rs', haa, h, hr⟩
  · rintro (hr | ⟨a', rs', _, h, hr⟩)
    · cases h : b.chains[a]? with
      | none =>
        rw [h] at hr
        cases hr
      | some rs =>
        rw [h] at hr
        exact ⟨a, rs, h, hr⟩
    · exact ⟨a', rs', h, hr⟩

/-- Replacing the records of an address by records whose types are those it had, and maybe
some more, changes the types present in the table by those alone. -/
theorem types_withChain {a : Address} {rs : List BreakRecord} {Q : BreakTypes → Prop}
    (h : ∀ t, (∃ r ∈ rs, r.types = t) ↔ (∃ r ∈ b.at? a, r.types = t) ∨ Q t) (t : BreakTypes) :
    (∃ r ∈ (b.withChain a rs).records, r.types = t) ↔ (∃ r ∈ b.records, r.types = t) ∨ Q t := by
  constructor
  · rintro ⟨r, hr, rfl⟩
    rcases mem_records_withChain.mp hr with hr | hother
    · rcases (h r.types).mp ⟨r, hr, rfl⟩ with ⟨r', hr', ht⟩ | hq
      · exact Or.inl ⟨r', mem_records_iff_at.mpr (Or.inl hr'), ht⟩
      · exact Or.inr hq
    · exact Or.inl ⟨r, mem_records_iff_at.mpr (Or.inr hother), rfl⟩
  · rintro (⟨r, hr, rfl⟩ | hq)
    · rcases mem_records_iff_at.mp hr with hr | hother
      · obtain ⟨r', hr', ht⟩ := (h r.types).mpr (Or.inl ⟨r, hr, rfl⟩)
        exact ⟨r', mem_records_withChain.mpr (Or.inl hr'), ht⟩
      · exact ⟨r, mem_records_withChain.mpr (Or.inr hother), rfl⟩
    · obtain ⟨r', hr', ht⟩ := (h t).mpr (Or.inr hq)
      exact ⟨r', mem_records_withChain.mpr (Or.inl hr'), ht⟩

/-- Working the summary out again gives the summary of the records. -/
theorem summary_resummarize (b : BreakTable) : b.resummarize.summary = summaryOf b.records := by
  simp only [resummarize, summaryOfChains, summaryOf, records, Std.TreeMap.foldl_eq_foldl_toList,
    List.foldl_flatMap]

/-! ## The shape -/

/-- Types a record may have in a table for a machine: some type, no debounce space, and only
letters the machine supports. -/
structure TypesOk (tt : BreakTypeTable) (t : BreakTypes) : Prop where
  nonempty : t.isEmpty = false
  noSpace : t.withoutSpace = t
  supported : tt.supported.letters.contains t.letters = true

/-- The records of one address as the table keeps them: all of different types, all at that
address, all of types the table may hold. -/
structure ChainOk (tt : BreakTypeTable) (a : Address) (rs : List BreakRecord) : Prop where
  nodup : (rs.map (·.types)).Nodup
  address : ∀ r ∈ rs, r.address = a
  types : ∀ r ∈ rs, TypesOk tt r.types

/-- Every address kept has some records, in shape. -/
def ChainsOk (tt : BreakTypeTable) (chains : Std.TreeMap Address (List BreakRecord)) : Prop :=
  ∀ a rs, chains[a]? = some rs → rs ≠ [] ∧ ChainOk tt a rs

/-- The shape of a table: the machine's default type is a type with no space, the summary is
the summary of the records, and the records are in shape. -/
structure Shaped (b : BreakTable) : Prop where
  default_nonempty : b.typeTable.defaultTypes.isEmpty = false
  default_noSpace : b.typeTable.defaultTypes.withoutSpace = b.typeTable.defaultTypes
  summary_eq : b.summary = summaryOf b.records
  chains : ChainsOk b.typeTable b.chains

variable {tt : BreakTypeTable} {a : Address} {rs rs' : List BreakRecord}

theorem exists_types_iff_of_map_eq (h : rs'.map (·.types) = rs.map (·.types)) (t : BreakTypes) :
    (∃ r ∈ rs', r.types = t) ↔ (∃ r ∈ rs, r.types = t) := by
  rw [← List.mem_map, ← List.mem_map, h]

theorem exists_types_append_singleton (rs : List BreakRecord) (x : BreakRecord) (t : BreakTypes) :
    (∃ r ∈ rs ++ [x], r.types = t) ↔ (∃ r ∈ rs, r.types = t) ∨ x.types = t := by
  simp only [List.mem_append, List.mem_singleton]
  constructor
  · rintro ⟨r, hr | rfl, rfl⟩
    · exact Or.inl ⟨r, hr, rfl⟩
    · exact Or.inr rfl
  · rintro (⟨r, hr, rfl⟩ | rfl)
    · exact ⟨r, Or.inl hr, rfl⟩
    · exact ⟨x, Or.inr rfl, rfl⟩

theorem chainOk_nil : ChainOk tt a [] := ⟨List.nodup_nil, nofun, nofun⟩

/-- Records with the types and addresses of records in shape are in shape. -/
theorem ChainOk.of_map_eq (h : ChainOk tt a rs) (htypes : rs'.map (·.types) = rs.map (·.types))
    (haddr : rs'.map (·.address) = rs.map (·.address)) : ChainOk tt a rs' where
  nodup := htypes ▸ h.nodup
  address := by
    intro r hr
    have hmem : r.address ∈ rs.map (·.address) := haddr ▸ List.mem_map_of_mem hr
    obtain ⟨r₀, hr₀, heq⟩ := List.mem_map.mp hmem
    rw [← heq]
    exact h.address r₀ hr₀
  types := by
    intro r hr
    have hmem : r.types ∈ rs.map (·.types) := htypes ▸ List.mem_map_of_mem hr
    obtain ⟨r₀, hr₀, heq⟩ := List.mem_map.mp hmem
    rw [← heq]
    exact h.types r₀ hr₀

theorem ChainOk.sublist (h : ChainOk tt a rs) (hs : rs'.Sublist rs) : ChainOk tt a rs' where
  nodup := (hs.map _).nodup h.nodup
  address := fun r hr => h.address r (hs.subset hr)
  types := fun r hr => h.types r (hs.subset hr)

theorem ChainOk.append (h : ChainOk tt a rs) {r : BreakRecord}
    (hfresh : ∀ r' ∈ rs, r'.types ≠ r.types) (haddr : r.address = a) (hok : TypesOk tt r.types) :
    ChainOk tt a (rs ++ [r]) where
  nodup := by
    rw [List.map_append, List.nodup_append]
    refine ⟨h.nodup, by simp, ?_⟩
    intro t ht t' ht'
    simp only [List.map_cons, List.map_nil, List.mem_singleton] at ht'
    subst ht'
    obtain ⟨r', hr', rfl⟩ := List.mem_map.mp ht
    exact hfresh r' hr'
  address := by
    intro r' hr'
    rcases List.mem_append.mp hr' with hr' | hr'
    · exact h.address r' hr'
    · rw [List.mem_singleton.mp hr']
      exact haddr
  types := by
    intro r' hr'
    rcases List.mem_append.mp hr' with hr' | hr'
    · exact h.types r' hr'
    · rw [List.mem_singleton.mp hr']
      exact hok

/-- The records a table keeps at an address are in shape, whether or not there are any. -/
theorem Shaped.at? {b : BreakTable} (hb : b.Shaped) (a : Address) : ChainOk b.typeTable a (b.at? a) := by
  rw [at?_eq]
  cases h : b.chains[a]? with
  | none => exact chainOk_nil
  | some rs => exact (hb.chains a rs h).2

/-- Replacing the records of an address by records in shape keeps every address in shape. -/
theorem ChainsOk.withChain {b : BreakTable} (h : ChainsOk tt b.chains) (hrs : ChainOk tt a rs) :
    ChainsOk tt (b.withChain a rs).chains := by
  intro a' rs' h'
  rw [getElem?_withChain] at h'
  split at h'
  · rename_i haa
    subst haa
    split at h'
    · cases h'
    · rename_i hne
      cases h'
      refine ⟨?_, hrs⟩
      rintro rfl
      exact hne rfl
  · exact h a' rs' h'

/-- A table in shape but for its summary is in shape once the summary is worked out again. -/
theorem Shaped.resummarize_of {b : BreakTable} (hd₁ : b.typeTable.defaultTypes.isEmpty = false)
    (hd₂ : b.typeTable.defaultTypes.withoutSpace = b.typeTable.defaultTypes)
    (hchains : ChainsOk b.typeTable b.chains) : b.resummarize.Shaped :=
  ⟨hd₁, hd₂, summary_resummarize b, hchains⟩

/-! ## Each operation keeps the shape -/

variable {b : BreakTable}

theorem shaped_new (tt : BreakTypeTable) (h₁ : tt.defaultTypes.isEmpty = false)
    (h₂ : tt.defaultTypes.withoutSpace = tt.defaultTypes) : (new tt).Shaped where
  default_nonempty := h₁
  default_noSpace := h₂
  summary_eq := rfl
  chains := by
    intro a rs h
    rw [show (new tt).chains[a]? = none from Std.TreeMap.getElem?_emptyc] at h
    cases h

theorem Shaped.init (hb : b.Shaped) : b.init.Shaped :=
  shaped_new b.typeTable hb.default_nonempty hb.default_noSpace

theorem Shaped.withLastMatch (hb : b.Shaped) (m : Option (Address × BreakTypes)) :
    { b with lastMatch := m }.Shaped :=
  ⟨hb.default_nonempty, hb.default_noSpace, hb.summary_eq, hb.chains⟩

/-- The types a set gives its breakpoint are types the table may hold: the types asked for
without their space, with the machine's default added when none or only step-over is asked
for, once the check finds every letter supported. -/
theorem typesOk_of_set {tt : BreakTypeTable} (hd₁ : tt.defaultTypes.isEmpty = false)
    (hd₂ : tt.defaultTypes.withoutSpace = tt.defaultTypes) (types : BreakTypes) {t : BreakTypes}
    (ht : t = if types.withoutSpace.isEmpty || types.withoutSpace == BreakTypes.stepOver then
      types.withoutSpace.union tt.defaultTypes else types.withoutSpace)
    (hsupp : (t.letters.inter tt.supported.letters.compl).isEmpty = true) : TypesOk tt t where
  nonempty := by
    rw [ht]
    split
    · exact BreakTypes.union_isEmpty_eq_false _ hd₁
    · rename_i hc
      simp only [Bool.or_eq_true, not_or, Bool.not_eq_true] at hc
      exact hc.1
  noSpace := by
    rw [ht]
    split
    · exact BreakTypes.withoutSpace_union (BreakTypes.withoutSpace_withoutSpace _) hd₂
    · exact BreakTypes.withoutSpace_withoutSpace _
  supported := BreakTypes.letters_contains_of_unsupported_isEmpty hsupp

/-- What a granted set does: it puts a record of the checked types at the address, updating
the one of those types if there is one, and adds the types to the summary. -/
theorem set_eq_ok {b b' : BreakTable} {types : BreakTypes} {count : Nat}
    {action : Option String} (h : b.set a types count action = .ok b') :
    ∃ (t : BreakTypes) (upd : BreakRecord → BreakRecord),
      t = (if types.withoutSpace.isEmpty || types.withoutSpace == BreakTypes.stepOver then
        types.withoutSpace.union b.typeTable.defaultTypes else types.withoutSpace) ∧
      (t.letters.inter b.typeTable.supported.letters.compl).isEmpty = true ∧
      (∀ r, (upd r).types = r.types ∧ (upd r).address = r.address) ∧
      b' = { b.withChain a (if (b.at? a).any (·.types == t) then updateFirst (·.types == t) upd (b.at? a)
          else b.at? a ++ [upd (BreakRecord.fresh a t)]) with
        summary := b.summary.union (t.inter BreakTypes.temp.compl) } := by
  unfold BreakTable.set at h
  dsimp only at h
  generalize ht : (if types.withoutSpace.isEmpty || types.withoutSpace == BreakTypes.stepOver then
    types.withoutSpace.union b.typeTable.defaultTypes else types.withoutSpace) = t at h
  split at h
  · cases h
  · rename_i hsupp
    split at h
    · cases h
    · refine ⟨t, _, rfl, by simpa using hsupp, ?_, (Except.ok.inj h).symm⟩
      exact fun r => ⟨rfl, rfl⟩

theorem map_updateFirst {β : Type} (g : BreakRecord → β) {p : BreakRecord → Bool}
    {f : BreakRecord → BreakRecord} (hf : ∀ r, g (f r) = g r) (rs : List BreakRecord) :
    (updateFirst p f rs).map g = rs.map g := by
  induction rs with
  | nil => rfl
  | cons x rest ih =>
    rw [updateFirst]
    split
    · simp [hf]
    · simp [ih]

/-- The types present at an address after a granted set of types `t`: those it had, and `t`. -/
theorem exists_types_setChain {t : BreakTypes} {upd : BreakRecord → BreakRecord}
    (hupd : ∀ r, (upd r).types = r.types) (rs : List BreakRecord) (T : BreakTypes) :
    (∃ r ∈ (if rs.any (·.types == t) then updateFirst (·.types == t) upd rs
        else rs ++ [upd (BreakRecord.fresh a t)]), r.types = T) ↔
      (∃ r ∈ rs, r.types = T) ∨ t = T := by
  split
  · rename_i hany
    rw [exists_types_iff_of_map_eq (map_updateFirst _ hupd _)]
    constructor
    · exact Or.inl
    · -- the record updated already has types `t`
      rintro (hT | rfl)
      · exact hT
      · obtain ⟨r, hr, hrt⟩ := List.any_eq_true.mp hany
        exact ⟨r, hr, beq_iff_eq.mp hrt⟩
  · rw [exists_types_append_singleton, hupd]
    rfl

/-- The records a granted set leaves at its address: those it had, the one of types `t`
updated if there is one, else a fresh one of types `t` added. -/
theorem ChainOk.set {t : BreakTypes} {upd : BreakRecord → BreakRecord} (h : ChainOk tt a rs)
    (ht : TypesOk tt t) (hupd : ∀ r, (upd r).types = r.types ∧ (upd r).address = r.address) :
    ChainOk tt a (if rs.any (·.types == t) then updateFirst (·.types == t) upd rs
      else rs ++ [upd (BreakRecord.fresh a t)]) ∧
    ∀ T, (∃ r ∈ (if rs.any (·.types == t) then updateFirst (·.types == t) upd rs
        else rs ++ [upd (BreakRecord.fresh a t)]), r.types = T) ↔
      (∃ r ∈ rs, r.types = T) ∨ t = T := by
  refine ⟨?_, exists_types_setChain (fun r => (hupd r).1) rs⟩
  split
  · have htypes : (updateFirst (·.types == t) upd rs).map (·.types) = rs.map (·.types) :=
      map_updateFirst _ (fun r => (hupd r).1) _
    have haddr : (updateFirst (·.types == t) upd rs).map (·.address) = rs.map (·.address) :=
      map_updateFirst _ (fun r => (hupd r).2) _
    exact h.of_map_eq htypes haddr
  · rename_i hany
    have hfresh : ∀ r ∈ rs, r.types ≠ (upd (BreakRecord.fresh a t)).types := by
      intro r hr hrt
      rw [(hupd _).1] at hrt
      exact hany (List.any_eq_true.mpr ⟨r, hr, beq_iff_eq.mpr hrt⟩)
    have hok : TypesOk tt (upd (BreakRecord.fresh a t)).types := by
      rw [(hupd _).1]
      exact ht
    exact h.append hfresh (hupd _).2 hok

theorem Shaped.set {b b' : BreakTable} (hb : b.Shaped) {types : BreakTypes} {count : Nat}
    {action : Option String} (h : b.set a types count action = .ok b') : b'.Shaped := by
  obtain ⟨t, upd, ht, hsupp, hupd, rfl⟩ := set_eq_ok h
  have htok := typesOk_of_set hb.default_nonempty hb.default_noSpace types ht hsupp
  have hnew := (hb.at? a).set htok hupd
  generalize (if (b.at? a).any (·.types == t) then updateFirst (·.types == t) upd (b.at? a)
    else b.at? a ++ [upd (BreakRecord.fresh a t)]) = chain at hnew ⊢
  refine ⟨hb.default_nonempty, hb.default_noSpace, ?_, hb.chains.withChain hnew.1⟩
  -- the summary gains the new types, as the records do
  have hrecords : ∀ T, (∃ r ∈ (b.withChain a chain).records, r.types = T) ↔
      (∃ r ∈ b.records ++ [BreakRecord.fresh a t], r.types = T) := by
    intro T
    rw [types_withChain hnew.2 T, exists_types_append_singleton]
    rfl
  show b.summary.union (t.inter BreakTypes.temp.compl) = summaryOf (b.withChain a chain).records
  rw [summaryOf_congr hrecords, summaryOf_append_singleton, hb.summary_eq]
  rfl

theorem map_set_of_getElem? {β : Type} {l : List BreakRecord} {i : Nat} {r r' : BreakRecord}
    (g : BreakRecord → β) (hr : l[i]? = some r) (hg : g r' = g r) : (l.set i r').map g = l.map g := by
  obtain ⟨hi, rfl⟩ := List.getElem?_eq_some_iff.mp hr
  rw [List.map_set, hg]
  have hi' : i < (l.map g).length := by simpa using hi
  have hself := List.set_getElem_self hi'
  rw [List.getElem_map] at hself
  exact hself

/-- Changing one record of an address, its types and address kept, keeps the shape. -/
theorem Shaped.withChain_set (hb : b.Shaped) {i : Nat} {r r' : BreakRecord}
    (hr : (b.at? a)[i]? = some r) (ht : r'.types = r.types) (ha : r'.address = r.address) :
    (b.withChain a ((b.at? a).set i r')).Shaped := by
  have htypes := map_set_of_getElem? (·.types) hr ht
  have haddr := map_set_of_getElem? (·.address) hr ha
  have hsame : ∀ T, (∃ r ∈ (b.at? a).set i r', r.types = T) ↔ (∃ r ∈ b.at? a, r.types = T) ∨ False :=
    fun T => (exists_types_iff_of_map_eq htypes T).trans (Iff.of_eq (or_false _)).symm
  refine ⟨hb.default_nonempty, hb.default_noSpace, ?_, hb.chains.withChain ((hb.at? a).of_map_eq htypes haddr)⟩
  show b.summary = _
  rw [hb.summary_eq]
  apply summaryOf_congr
  intro T
  exact ((types_withChain hsame T).trans (Iff.of_eq (or_false _))).symm

/-- A test keeps the shape: a record that counts down or fires keeps its types, and a
temporary one that fires is removed and the summary worked out again. -/
theorem Shaped.test (hb : b.Shaped) (a : Address) (types : BreakTypes) (now : Int) :
    (b.test a types now).2.Shaped := by
  unfold BreakTable.test
  dsimp only
  split
  · exact hb
  · split
    · exact hb
    · rename_i r hr
      split
      · exact hb.withChain_set hr rfl rfl
      · apply Shaped.withLastMatch
        split
        · exact Shaped.resummarize_of hb.default_nonempty hb.default_noSpace
            (hb.chains.withChain ((hb.at? a).sublist (List.eraseIdx_sublist _ _)))
        · exact hb.withChain_set hr rfl rfl

theorem Shaped.clear (hb : b.Shaped) (a : Address) (types : BreakTypes) : (b.clear a types).Shaped := by
  unfold BreakTable.clear
  dsimp only
  split
  · exact Shaped.resummarize_of hb.default_nonempty hb.default_noSpace
      (hb.chains.withChain ((hb.at? a).sublist List.filter_sublist))
  · exact Shaped.resummarize_of hb.default_nonempty hb.default_noSpace hb.chains

theorem Shaped.clearAll (hb : b.Shaped) (types : BreakTypes) : (b.clearAll types).Shaped := by
  unfold BreakTable.clearAll
  dsimp only
  refine Shaped.resummarize_of hb.default_nonempty hb.default_noSpace ?_
  intro a rs h
  rw [Std.TreeMap.getElem?_filterMap'] at h
  obtain ⟨rs₀, h₀, hf⟩ := Option.bind_eq_some_iff.mp h
  split at hf
  · cases hf
  · rename_i hne
    cases hf
    refine ⟨?_, (hb.chains a rs₀ h₀).2.sublist List.filter_sublist⟩
    intro hnil
    rw [hnil] at hne
    exact hne rfl

/-- Changing every record without touching its types or address keeps the shape. -/
theorem Shaped.mapRecords (hb : b.Shaped) (g : BreakRecord → BreakRecord)
    (hg : ∀ r, (g r).types = r.types ∧ (g r).address = r.address) :
    { b with chains := b.chains.map fun _ (rs : List BreakRecord) => rs.map g }.Shaped := by
  have hmap : ∀ {β : Type} (f : BreakRecord → β), (∀ r, f (g r) = f r) →
      ∀ rs : List BreakRecord, (rs.map g).map f = rs.map f := by
    intro β f hf rs
    rw [List.map_map]
    exact List.map_congr_left fun r _ => hf r
  have hget : ∀ (a : Address) (rs' : List BreakRecord),
      ({ b with chains := b.chains.map fun _ (rs : List BreakRecord) => rs.map g } : BreakTable).chains[a]? =
        some rs' ↔ ∃ rs : List BreakRecord, b.chains[a]? = some rs ∧ rs.map g = rs' := fun a rs' => by
    show (b.chains.map fun _ (rs : List BreakRecord) => rs.map g)[a]? = some rs' ↔ _
    rw [Std.TreeMap.getElem?_map, Option.map_eq_some_iff]
  refine ⟨hb.default_nonempty, hb.default_noSpace, ?_, ?_⟩
  · show b.summary = summaryOf
      (BreakTable.records { b with chains := b.chains.map fun _ (rs : List BreakRecord) => rs.map g })
    rw [hb.summary_eq]
    apply summaryOf_congr
    intro T
    constructor
    · rintro ⟨r, hr, rfl⟩
      obtain ⟨a, rs, h, hr⟩ := mem_records.mp hr
      exact ⟨g r, mem_records.mpr ⟨a, rs.map g, (hget a _).mpr ⟨rs, h, rfl⟩, List.mem_map_of_mem hr⟩,
        (hg r).1⟩
    · rintro ⟨r, hr, rfl⟩
      obtain ⟨a, rs', h, hr⟩ := mem_records.mp hr
      obtain ⟨rs, h₀, rfl⟩ := (hget a rs').mp h
      obtain ⟨r₀, hr₀, rfl⟩ := List.mem_map.mp hr
      exact ⟨r₀, mem_records.mpr ⟨a, rs, h₀, hr₀⟩, ((hg r₀).1).symm⟩
  · intro a rs' h
    obtain ⟨rs, h₀, rfl⟩ := (hget a rs').mp h
    obtain ⟨hne, hok⟩ := hb.chains a rs h₀
    refine ⟨?_, hok.of_map_eq (hmap _ (fun r => (hg r).1) rs) (hmap _ (fun r => (hg r).2) rs)⟩
    intro hnil
    exact hne (List.map_eq_nil_iff.mp hnil)

theorem Shaped.clearSpace (hb : b.Shaped) (space : Nat) (types : BreakTypes) :
    (b.clearSpace space types).Shaped :=
  hb.mapRecords _ fun r => by
    split
    · exact ⟨rfl, rfl⟩
    · exact ⟨rfl, rfl⟩

theorem foldl_stamp_none (spaces : List Nat) (r : BreakRecord) :
    (spaces.foldl (fun r i => r.stamp i none) r).types = r.types ∧
      (spaces.foldl (fun r i => r.stamp i none) r).address = r.address := by
  induction spaces generalizing r with
  | nil => exact ⟨rfl, rfl⟩
  | cons i rest ih => exact ih (r.stamp i none)

theorem Shaped.newPc (hb : b.Shaped) (spaces : Nat) : (b.newPc spaces).Shaped :=
  hb.mapRecords _ fun r => foldl_stamp_none _ r

/-! ## Reachable tables -/

/-- The tables reached from an empty one for a machine whose default type is a type with no
debounce space, through sets (granted or refused), clears, tests, resets of match times and
reinitialisations. -/
inductive Reach : BreakTable → Prop
  | new (tt : BreakTypeTable) (h₁ : tt.defaultTypes.isEmpty = false)
      (h₂ : tt.defaultTypes.withoutSpace = tt.defaultTypes) : Reach (BreakTable.new tt)
  | set {b : BreakTable} (a : Address) (types : BreakTypes) (count : Nat) (action : Option String) :
      Reach b → Reach ((b.set a types count action).toOption.getD b)
  | clear {b : BreakTable} (a : Address) (types : BreakTypes) : Reach b → Reach (b.clear a types)
  | clearAll {b : BreakTable} (types : BreakTypes) : Reach b → Reach (b.clearAll types)
  | test {b : BreakTable} (a : Address) (types : BreakTypes) (now : Int) :
      Reach b → Reach (b.test a types now).2
  | clearSpace {b : BreakTable} (space : Nat) (types : BreakTypes) :
      Reach b → Reach (b.clearSpace space types)
  | newPc {b : BreakTable} (spaces : Nat) : Reach b → Reach (b.newPc spaces)
  | init {b : BreakTable} : Reach b → Reach b.init

theorem Reach.shaped (hb : b.Reach) : b.Shaped := by
  induction hb with
  | new tt h₁ h₂ => exact shaped_new tt h₁ h₂
  | @set b a types count action _ ih =>
    -- a refused set leaves the table as it was
    cases h : b.set a types count action with
    | error e => exact ih
    | ok b' => exact ih.set h
  | clear a types _ ih => exact ih.clear a types
  | clearAll types _ ih => exact ih.clearAll types
  | test a types now _ ih => exact ih.test a types now
  | clearSpace space types _ ih => exact ih.clearSpace space types
  | newPc spaces _ ih => exact ih.newPc spaces
  | init _ ih => exact ih.init

/-- The shape of a breakpoint table: in every reachable table the summary is the union of the
types of all records, the temporary flag left out; every address kept has some records, each
stored under its own address and no two of the same types; and every record has some type, no
debounce space, and only letters the machine supports. -/
theorem shape_invariants {b : BreakTable} (hb : b.Reach) :
    b.summary = summaryOf b.records ∧
    (∀ (a : Address) (rs : List BreakRecord), b.chains[a]? = some rs → rs ≠ []) ∧
    (∀ (a : Address) (rs : List BreakRecord), b.chains[a]? = some rs → (rs.map (·.types)).Nodup) ∧
    (∀ (a : Address) (rs : List BreakRecord), b.chains[a]? = some rs → ∀ r ∈ rs, r.address = a) ∧
    (∀ r ∈ b.records, r.types.isEmpty = false ∧ r.types.withoutSpace = r.types ∧
      b.typeTable.supported.letters.contains r.types.letters = true) := by
  have hs := hb.shaped
  refine ⟨hs.summary_eq, fun a rs h => (hs.chains a rs h).1, fun a rs h => (hs.chains a rs h).2.nodup,
    fun a rs h => (hs.chains a rs h).2.address, ?_⟩
  intro r hr
  obtain ⟨a, rs, h, hr⟩ := mem_records.mp hr
  have hok := (hs.chains a rs h).2.types r hr
  exact ⟨hok.nonempty, hok.noSpace, hok.supported⟩

/-- The table of a machine with only execution breakpoints, after one is set at address 8. -/
theorem shape_invariants_of_standard :
    let b := ((BreakTable.new BreakTypeTable.standard).set (Address.ofNat 8) BreakTypes.empty 0
      none).toOption.getD (BreakTable.new BreakTypeTable.standard)
    b.Reach ∧
      (b.summary = summaryOf b.records ∧
      (∀ (a : Address) (rs : List BreakRecord), b.chains[a]? = some rs → rs ≠ []) ∧
      (∀ (a : Address) (rs : List BreakRecord), b.chains[a]? = some rs → (rs.map (·.types)).Nodup) ∧
      (∀ (a : Address) (rs : List BreakRecord), b.chains[a]? = some rs → ∀ r ∈ rs, r.address = a) ∧
      (∀ r ∈ b.records, r.types.isEmpty = false ∧ r.types.withoutSpace = r.types ∧
        b.typeTable.supported.letters.contains r.types.letters = true)) := by
  intro b
  have hb : b.Reach := .set _ _ _ _ (.new _ (by decide) (by decide))
  exact ⟨hb, shape_invariants hb⟩

end BreakTable

end SimControl
