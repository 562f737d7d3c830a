import Mathlib.Data.List.Basic
import SimControl.Proofs.PlantedTypes
import SimControl.Session
/-!
# Address ranges are read in order

An item of an address list is a single address, `low-high` or `low:high`, or `low/len` with an
octal length. The reader refuses `high < low` outright, a length of zero, and a length that runs
past the last address, so every range a command or an address list is read into has its low
end first (`AddressRange.Ordered`). BREAK then walks each range from its low end to its high
end: the count of addresses is the difference of the ends plus one, never a wrapped difference,
and a range of `Session.maxBreakRange` addresses or more is refused before any breakpoint is
set.

* `BreakTarget.named`: the addresses a target names, ascending, each with its count.
* `breakpoint_ranges_in_order`: the ranges read are in order, and BREAK sets at exactly the
  addresses they name.
* `Session.break_sets_walked_addresses`: those are the addresses a loop visits that steps by
  the successor from the low end until it is not below the high end (`Address.walkTo`); on a
  range the reader could not give, high end first, such a loop would stop at once.
-/

namespace SimControl

namespace Address

/-- The addresses from `low` to `high`, ascending. -/
def upTo (low high : Address) : List Address :=
  (List.range' low.val (high.val + 1 - low.val)).map Address.ofNat

theorem ofNat_val (a : Address) : ofNat a.val = a := by
  obtain ⟨v, hv⟩ := a
  simp only [ofNat, Nat.mod_eq_of_lt hv]

/-- Below another address, the successor does not go round. -/
theorem successor_val_of_lt {a b : Address} (h : a < b) : a.successor.val = a.val + 1 :=
  Nat.mod_eq_of_lt (Nat.lt_of_le_of_lt (Nat.succ_le_of_lt h) b.isLt)

/-- The addresses a loop visits from `a`: `a` first, then one successor at a time, up to the
first address that is not below `high`. From an address at or above `high` that is `a`
alone. -/
def walkTo (high a : Address) : List Address :=
  if high ≤ a then [a] else a :: walkTo high a.successor
termination_by high.val - a.val
decreasing_by
  have hlt : a.val < high.val := Nat.lt_of_not_le ‹¬high ≤ a›
  rw [successor_val_of_lt hlt]
  omega

theorem upTo_cons {low high : Address} (h : low < high) :
    low.upTo high = low :: low.successor.upTo high := by
  have hlen : high.val + 1 - low.val = high.val + 1 - low.successor.val + 1 := by
    rw [successor_val_of_lt h]
    have : low.val < high.val := h
    omega
  rw [upTo, hlen, List.range'_succ, List.map_cons, ofNat_val, upTo, successor_val_of_lt h]

/-- From a low end to a high end above it, the addresses ascending are those the loop visits:
stepping by the successor never goes round before the high end. -/
theorem upTo_eq_walkTo {low high : Address} (h : low ≤ high) : low.upTo high = walkTo high low := by
  -- induction along the walk's own recursion
  fun_induction walkTo high low with
  | case1 a hle =>
    -- the walk stands on the high end
    have heq : a = high := by rw [← ofNat_val a, ← ofNat_val high, Nat.le_antisymm h hle]
    subst heq
    rw [upTo, Nat.add_sub_cancel_left, List.range'_one, List.map_singleton, ofNat_val]
  | case2 a hnot ih =>
    have hlt : a < high := Nat.lt_of_not_le hnot
    have hnext : a.successor ≤ high := by
      show a.successor.val ≤ high.val
      rw [successor_val_of_lt hlt]
      exact hlt
    rw [upTo_cons hlt, ih hnext]

end Address

namespace Command

/-- A range whose low end is not above its high end, which is at most the highest address. -/
def AddressRange.Ordered : AddressRange → Prop
  | .all => True
  | .span low high => low ≤ high ∧ high.val ≤ Address.maxVal

/-- The addresses a target names, each with the target's count: those of its range, from the
low end up. -/
def BreakTarget.named (t : BreakTarget) : List (Address × Nat) :=
  match t.range with
  | .all => []
  | .span low high => (low.upTo high).map (·, t.count)

/-- A target BREAK can set: a range whose high end lies fewer than `maxBreakRange` addresses
after its low end. -/
def BreakTarget.Settable (t : BreakTarget) : Prop :=
  ∃ low high, t.range = .span low high ∧ high.val - low.val < Session.maxBreakRange

/-- The targets of a command that names breakpoints: BREAK, NOBREAK and SHOW BREAK. -/
def targets : Command → List BreakTarget
  | .setBreak _ ts _ | .clearBreak _ ts | .report (.breaks ts) => ts
  | _ => []

/-! ## Reading one item -/

/-- An item read as a range has its low end first. An item `low/len` has a length of at least
one, and its range ends `len - 1` addresses after its low end. -/
theorem readRange_span {text : String} {low high : Address}
    (h : readRange text = .ok (.span low high)) :
    low ≤ high ∧ ∀ lowText lenText, splitAtFirst (· = '/') text = some (lowText, lenText) →
      ∃ len, readAddress lowText = .ok low ∧ Text.readWord 8 32 lenText = some len ∧ 1 ≤ len ∧
        high.val + 1 = low.val + len := by
  unfold readRange at h
  split at h
  · cases h
  split at h
  · next lowText lenText hs =>
    simp only [bind, Except.bind] at h
    split at h
    · cases h
    · next low' hl =>
      split at h
      · cases h
      · next len hw =>
        -- the length is not zero, and the high end is `len - 1` past the low end
        have hlen : len ≠ 0 := by
          intro hz
          simp only [hz, if_pos] at h
          cases h
        simp only [hlen, if_false, Address.checkedAdd] at h
        split at h
        · cases h
        · rename_i hadd
          split at hadd
          · cases hadd
            cases h
            refine ⟨Nat.le_add_right _ _, fun lowText' lenText' hs' => ?_⟩
            rw [hs] at hs'
            cases hs'
            exact ⟨len, hl, hw, Nat.one_le_iff_ne_zero.mpr hlen, by simp only; omega⟩
          · cases hadd
  · next hs =>
    refine ⟨?_, fun _ _ hs' => by rw [hs] at hs'; cases hs'⟩
    -- `low-high` is refused when the ends are the wrong way round; one address is its own range
    split at h
    · simp only [bind, Except.bind] at h
      split at h
      · cases h
      · split at h
        · cases h
        · split at h
          · cases h
          · next hlt =>
            cases h
            exact Nat.le_of_not_lt hlt
    · simp only [bind, Except.bind] at h
      split at h
      · cases h
      · cases h
        exact Nat.le_refl _

theorem readRange_ordered {text : String} {r : AddressRange} (h : readRange text = .ok r) :
    r.Ordered := by
  cases r with
  | all => trivial
  | span low high =>
    refine ⟨(readRange_span h).1, ?_⟩
    have := high.isLt
    simp only [Address.maxVal]
    omega

/-! ## Reading lists and commands -/

/-- A range in order put in front of the items read after it, all in order, gives items in
order. -/
theorem ordered_of_map_cons {r : AddressRange} {n : Nat}
    {x : Except Fault (List BreakTarget × List Lexed)} {ts : List BreakTarget} {rest : List Lexed}
    (hr : r.Ordered) (hx : ∀ {ts rest}, x = .ok (ts, rest) → ∀ t ∈ ts, t.range.Ordered)
    (h : x.map (fun x => match x with | (ts, left) => (⟨r, n⟩ :: ts, left)) = .ok (ts, rest)) :
    ∀ t ∈ ts, t.range.Ordered := by
  cases x with
  | error e => cases h
  | ok p =>
    obtain ⟨ts', left⟩ := p
    cases h
    intro t ht
    rcases List.mem_cons.mp ht with rfl | ht
    · exact hr
    · exact hx rfl t ht

/-- Every range an address list is read into has its low end first. -/
theorem ordered_of_targetsFrom {ls rest : List Lexed} {ts : List BreakTarget}
    (h : targetsFrom ls = .ok (ts, rest)) : ∀ t ∈ ts, t.range.Ordered := by
  fun_induction targetsFrom ls generalizing ts rest with
  | case1 | case2 | case3 | case8 => cases h
  | case4 _ _ _ r hr n _ _ _ _ more ih => exact ordered_of_map_cons (readRange_ordered hr) ih h
  | case6 _ _ _ r hr _ _ more ih => exact ordered_of_map_cons (readRange_ordered hr) ih h
  | case5 _ _ _ r hr | case7 _ _ _ r hr =>
    cases h
    intro t ht
    rw [List.mem_singleton] at ht
    subst ht
    exact readRange_ordered hr

theorem yields_addressList : Yields (fun ts => ∀ t ∈ ts, t.range.Ordered) addressList := by
  unfold addressList
  refine Yields.bind_any fun l? => ?_
  split
  · unfold onRest
    refine Yields.bind_any fun cur => Yields.bind (Yields.lift _) fun p hp => ?_
    obtain ⟨ts, rest⟩ := p
    exact Yields.bind_any fun _ => Yields.pure (ordered_of_targetsFrom hp)
  · exact Yields.pure fun _ h => by cases h

theorem yields_readBreak_ordered (withAction : Bool) :
    Yields (fun cmd => ∀ t ∈ cmd.targets, t.range.Ordered) (readBreak withAction) := by
  unfold readBreak
  refine Yields.bind_any fun sw => Yields.bind yields_addressList fun targets ht =>
    Yields.bind_any fun semi => ?_
  split
  · split
    · exact Yields.bind_any fun _ => Yields.throw_bind _ _
    · exact Yields.bind_any fun _ => Yields.pure ht
  · refine Yields.bind_any fun _ => Yields.pure ?_
    split
    · exact ht
    · exact ht

/-- Every range a command line is read into has its low end first. -/
theorem targets_ordered_of_parse {line : String} {cmd : Command} (h : parse line = .ok cmd) :
    ∀ t ∈ cmd.targets, t.range.Ordered := by
  refine of_parse (fun _ h => by cases h) (yields_readArguments_of yields_readBreak_ordered
    (yields_readShow_of yields_addressList fun item hitem => ?_) fun c hc => ?_) h
  · cases item with
    | breaks ts => exact absurd rfl (hitem ts)
    | _ => exact fun _ h => by cases h
  · cases c with
    | setBreak | clearBreak | report => exact hc.elim
    | _ => exact fun _ h => by cases h

/-- Every range a bare address list is read into has its low end first. -/
theorem ordered_of_readAddressList {text : String} {ts : List BreakTarget}
    (h : readAddressList text = .ok ts) : ∀ t ∈ ts, t.range.Ordered := by
  have hy : Yields (fun ts => ∀ t ∈ ts, t.range.Ordered)
      (do let ts ← addressList; expectEnd; return ts : Reader _) :=
    Yields.bind yields_addressList fun _ ht => Yields.bind_any fun _ => Yields.pure ht
  unfold readAddressList at h
  simp only [bind, Except.bind] at h
  split at h
  · cases h
  · next p hp =>
    cases h
    exact hy _ _ _ hp

end Command

/-! ## Walking the ranges -/

namespace Session

open Command

theorem ranges_cons_all (n : Nat) (ts : List BreakTarget) :
    ranges (⟨.all, n⟩ :: ts) = .error (.badArgument "ALL") := by
  unfold ranges
  rw [List.mapM_cons]
  rfl

theorem ranges_cons_span (low high : Address) (n : Nat) (ts : List BreakTarget) :
    ranges (⟨.span low high, n⟩ :: ts) = (ranges ts).map ((low, high, n) :: ·) := by
  cases hr : ranges ts <;> unfold ranges at hr ⊢ <;> rw [List.mapM_cons, hr] <;> rfl

/-- BREAK reads the ranges of all its targets, then walks them one after another. -/
theorem addresses_eq (targets : List BreakTarget) :
    addresses targets = match ranges targets with
      | .error e => .error e
      | .ok rs => rangeAddresses rs := by
  unfold addresses
  cases ranges targets <;> rfl

/-- The ranges of targets in order have their low ends first, so NOBREAK and SHOW BREAK ask
for the breakpoints between ends the right way round. -/
theorem ranges_ordered {targets : List BreakTarget} (h : ∀ t ∈ targets, t.range.Ordered)
    {rs : List (Address × Address × Nat)} (hrs : ranges targets = .ok rs) :
    ∀ r ∈ rs, r.1 ≤ r.2.1 := by
  induction targets generalizing rs with
  | nil =>
    cases hrs
    nofun
  | cons t ts ih =>
    obtain ⟨range, n⟩ := t
    cases range with
    | all =>
      rw [ranges_cons_all] at hrs
      cases hrs
    | span low high =>
      rw [ranges_cons_span] at hrs
      cases hts : ranges ts with
      | error e =>
        rw [hts] at hrs
        cases hrs
      | ok rs' =>
        rw [hts] at hrs
        cases hrs
        intro r hr
        rcases List.mem_cons.mp hr with rfl | hr
        · exact (h _ List.mem_cons_self).1
        · exact ih (fun t ht => h t (List.mem_cons_of_mem _ ht)) hts r hr

/-- BREAK walks a range in order from its low end to its high end. -/
theorem rangeBlock_eq {low high : Address} (h : low ≤ high) (n : Nat) :
    (List.range (high.val - low.val + 1)).map (fun i => (Address.ofNat (low.val + i), n)) =
      (low.upTo high).map (·, n) := by
  have hlen : high.val + 1 - low.val = high.val - low.val + 1 := by
    have : low.val ≤ high.val := h
    omega
  rw [Address.upTo, hlen, List.range'_eq_map_range, List.map_map, List.map_map]
  rfl

/-- BREAK over a target in order sets at the addresses it names, if its range is short enough,
before those of the targets after it. -/
theorem addresses_cons_eq_ok_iff {t : BreakTarget} {ts : List BreakTarget} (ht : t.range.Ordered)
    {list : List (Address × Nat)} :
    addresses (t :: ts) = .ok list ↔
      t.Settable ∧ ∃ rest, addresses ts = .ok rest ∧ list = t.named ++ rest := by
  obtain ⟨range, n⟩ := t
  cases range with
  | all =>
    rw [addresses_eq, ranges_cons_all]
    constructor
    · intro h
      cases h
    · rintro ⟨⟨low, high, hspan, -⟩, -⟩
      cases hspan
  | span low high =>
    rw [addresses_eq, addresses_eq, ranges_cons_span]
    cases ranges ts with
    | error e =>
      -- a later target is ALL
      constructor
      · intro h
        cases h
      · rintro ⟨-, rest, h, -⟩
        cases h
    | ok rs =>
      dsimp only [Except.map]
      rw [rangeAddresses]
      split
      · next hbig =>
        constructor
        · intro h
          cases h
        · rintro ⟨⟨low', high', hspan, hsmall⟩, -⟩
          cases hspan
          omega
      · next hsmall =>
        rw [rangeBlock_eq ht.1]
        cases rangeAddresses rs with
        | error e =>
          constructor
          · intro h
            cases h
          · rintro ⟨-, rest, h, -⟩
            cases h
        | ok rest =>
          constructor
          · intro h
            cases h
            exact ⟨⟨low, high, rfl, by omega⟩, rest, rfl, rfl⟩
          · rintro ⟨-, rest', h, rfl⟩
            cases h
            rfl

/-- BREAK over targets in order succeeds exactly when each target is a range short enough to
set, and then sets at the addresses of each target in turn, from its low end to its high end,
with the target's count. -/
theorem addresses_eq_ok_iff {targets : List BreakTarget} (h : ∀ t ∈ targets, t.range.Ordered)
    {list : List (Address × Nat)} :
    addresses targets = .ok list ↔
      (∀ t ∈ targets, t.Settable) ∧ list = targets.flatMap BreakTarget.named := by
  induction targets generalizing list with
  | nil =>
    refine ⟨fun h => ?_, fun h => by rw [h.2]; rfl⟩
    cases h
    exact ⟨nofun, rfl⟩
  | cons t ts ih =>
    have ih' := @ih (fun t ht => h t (List.mem_cons_of_mem _ ht))
    rw [addresses_cons_eq_ok_iff (h t List.mem_cons_self), List.forall_mem_cons,
      List.flatMap_cons]
    constructor
    · rintro ⟨hset, rest, hrest, rfl⟩
      obtain ⟨hall, rfl⟩ := ih'.mp hrest
      exact ⟨⟨hset, hall⟩, rfl⟩
    · rintro ⟨⟨hset, hall⟩, rfl⟩
      exact ⟨hset, _, ih'.mpr ⟨hall, rfl⟩, rfl⟩

/-- BREAK reads every address its targets name before it sets any: when that fails, it fails
with the state as it was. -/
theorem setBreakpoints_refused {types : BreakTypes} {targets : List BreakTarget}
    {action : Option String} {e : Fault} (hne : targets ≠ []) (h : addresses targets = .error e)
    (s : Session) : (setBreakpoints types targets action).run s = .error e s := by
  have hempty : targets.isEmpty = false := List.isEmpty_eq_false_iff.mpr hne
  unfold setBreakpoints
  rw [hempty, if_neg Bool.false_ne_true, EStateM.run_bind, h]
  rfl

/-- On every command line read, a BREAK that lists its addresses sets at those a loop visits
over each target in turn: from the low end, one successor at a time, to the high end. The
reader puts the low end first, so the walk never starts above its high end. -/
theorem break_sets_walked_addresses {line : String} {cmd : Command} (hp : Command.parse line = .ok cmd)
    {list : List (Address × Nat)} (h : addresses cmd.targets = .ok list) :
    list = cmd.targets.flatMap fun t => match t.range with
      | .all => []
      | .span low high => (Address.walkTo high low).map (·, t.count) := by
  have hord := Command.targets_ordered_of_parse hp
  rw [((addresses_eq_ok_iff hord).mp h).2]
  refine List.flatMap_congr fun t ht => ?_
  obtain ⟨range, n⟩ := t
  cases range with
  | all => rfl
  | span low high =>
    show (low.upTo high).map (·, n) = _
    rw [Address.upTo_eq_walkTo (hord _ ht).1]

end Session

/-- Address ranges are read in order, and BREAK walks them. Every range a command line or a
bare address list is read into has its low end first and its high end at most the highest
address; an item `low/len` has a length of at least one and ends `len - 1` addresses after
`low`. So over the targets of a command, the ranges NOBREAK and SHOW BREAK look in have their
ends the right way round, and BREAK succeeds exactly when every target is a range whose ends
lie fewer than `maxBreakRange` addresses apart, setting at each address from the low end to
the high end of each target in turn with that target's count; a BREAK that fails to list its
addresses fails with nothing set. -/
theorem breakpoint_ranges_in_order :
    (∀ line cmd, Command.parse line = .ok cmd → ∀ t ∈ cmd.targets, t.range.Ordered) ∧
    (∀ text ts, Command.readAddressList text = .ok ts → ∀ t ∈ ts, t.range.Ordered) ∧
    (∀ text low high, Command.readRange text = .ok (.span low high) →
      ∀ lowText lenText, Command.splitAtFirst (· = '/') text = some (lowText, lenText) →
        ∃ len, Command.readAddress lowText = .ok low ∧ Text.readWord 8 32 lenText = some len ∧
          1 ≤ len ∧ high.val + 1 = low.val + len) ∧
    (∀ targets : List Command.BreakTarget, (∀ t ∈ targets, t.range.Ordered) →
      (∀ rs, Session.ranges targets = .ok rs → ∀ r ∈ rs, r.1 ≤ r.2.1) ∧
      (∀ list, Session.addresses targets = .ok list ↔
        (∀ t ∈ targets, t.Settable) ∧ list = targets.flatMap Command.BreakTarget.named)) ∧
    (∀ types targets action e s, targets ≠ [] → Session.addresses targets = .error e →
      (Session.setBreakpoints types targets action).run s = .error e s) :=
  ⟨fun _ _ h => Command.targets_ordered_of_parse h,
    fun _ _ h => Command.ordered_of_readAddressList h,
    fun _ _ _ h => (Command.readRange_span h).2,
    fun _ h => ⟨fun _ hrs => Session.ranges_ordered h hrs, fun _ => Session.addresses_eq_ok_iff h⟩,
    fun _ _ _ _ s hne h => Session.setBreakpoints_refused hne h s⟩

end SimControl
