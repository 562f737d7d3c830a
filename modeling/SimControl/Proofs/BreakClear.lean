import SimControl.Proofs.BreakDebounce
import SimControl.Proofs.TargetRanges
/-!
# Clearing breakpoints

A clear names some types: the records it removes are those that share one of them, or every
record when it names none. Every other record stays as it was, in its place among the records
of its address (`at?_clear_of_shaped`, `at?_clearAll_of_shaped`).

NOBREAK over a range does not visit each address of the range: it asks the table which
addresses of the range carry breakpoints and clears those. An address without breakpoints
would lose nothing, so this is clearing every address of the range, in order
(`foldl_clear_addressesIn`), however wide the range.

* `Session.run_clearBreakpoints_spans`: NOBREAK over ranges clears every address they name.
* `BreakTable.clear_removes_matching_records`: all of it, for every reachable table.
-/

namespace SimControl

namespace Address

/-- The addresses from `low` to `high` are those between them, both included. -/
theorem mem_upTo {low high x : Address} : x ∈ low.upTo high ↔ low ≤ x ∧ x ≤ high := by
  simp only [upTo, List.mem_map, List.mem_range'_1]
  constructor
  · rintro ⟨n, ⟨h₁, h₂⟩, rfl⟩
    have hn : n < 16777216 := by
      have := high.isLt
      omega
    show low.val ≤ n % 16777216 ∧ n % 16777216 ≤ high.val
    rw [Nat.mod_eq_of_lt hn]
    omega
  · rintro ⟨h₁, h₂⟩
    exact ⟨x.val, ⟨h₁, by change x.val ≤ high.val at h₂; omega⟩, ofNat_val x⟩

/-- The addresses from `low` to `high` come in ascending order. -/
theorem pairwise_upTo (low high : Address) : (low.upTo high).Pairwise fun a b => a.val < b.val := by
  have hval : (low.upTo high).map Address.val = List.range' low.val (high.val + 1 - low.val) := by
    rw [upTo, List.map_map]
    refine (List.map_congr_left fun n hn => ?_).trans (List.map_id _)
    rw [List.mem_range'_1] at hn
    show n % 16777216 = n
    have := high.isLt
    exact Nat.mod_eq_of_lt (by omega)
  rw [← List.pairwise_map (f := Address.val) (R := (· < ·)), hval]
  exact List.pairwise_lt_range'

theorem nodup_of_pairwise_val_lt {l : List Address} (h : l.Pairwise fun a b => a.val < b.val) :
    l.Nodup :=
  h.imp fun {a c} (hlt : a.val < c.val) (heq : a = c) => by
    subst heq
    exact Nat.lt_irrefl _ hlt

end Address

namespace BreakTypes

theorem isEmpty_withoutSpace (a : BreakTypes) : a.withoutSpace.isEmpty = a.isEmpty := by
  simp only [isEmpty, withoutSpace, UInt32.and_assoc, UInt32.and_self]

theorem intersects_withoutSpace (a b : BreakTypes) :
    a.intersects b.withoutSpace = a.intersects b := by
  simp only [intersects, withoutSpace]
  congr 1
  ac_nf

/-- Types that have some type meet every type. -/
theorem intersects_compl_empty {a : BreakTypes} (ha : a.isEmpty = false) :
    a.intersects empty.compl = true := by
  have hmask : (~~~(0 : UInt32)) &&& typeMask = typeMask := by decide
  simp only [isEmpty, beq_eq_false_iff_ne] at ha
  simp only [intersects, compl, empty, hmask, UInt32.and_assoc, UInt32.and_self, bne_iff_ne]
  exact ha

/-- What a clear takes from types that have some type: everything when it names no type,
else the types that share one with those it names. -/
theorem intersects_clearMask_of_nonempty {r : BreakTypes} (hr : r.isEmpty = false)
    (T : BreakTypes) : r.intersects (BreakTable.clearMask T) = (T.isEmpty || r.intersects T) := by
  unfold BreakTable.clearMask
  dsimp only
  rw [isEmpty_withoutSpace]
  cases hT : T.isEmpty
  · rw [if_neg Bool.false_ne_true, intersects_withoutSpace, Bool.false_or]
  · rw [if_pos rfl, intersects_compl_empty hr, Bool.true_or]

end BreakTypes

namespace BreakTable

variable {b : BreakTable}

theorem filter_clearMask_of_chainOk {tt : BreakTypeTable} {a : Address} {rs : List BreakRecord}
    (h : ChainOk tt a rs) (T : BreakTypes) :
    rs.filter (fun r => !r.types.intersects (clearMask T)) =
      rs.filter (fun r => !(T.isEmpty || r.types.intersects T)) :=
  List.filter_congr fun r hr => by
    rw [BreakTypes.intersects_clearMask_of_nonempty (h.types r hr).nonempty]

/-- Clearing an address of a table in shape removes its records that the types cover and
changes no other address. -/
theorem at?_clear_of_shaped (hb : b.Shaped) (a x : Address) (T : BreakTypes) :
    (b.clear a T).at? x =
      if x = a then (b.at? x).filter (fun r => !(T.isEmpty || r.types.intersects T))
      else b.at? x := by
  rw [at?_clear]
  by_cases hx : x = a
  · subst hx
    rw [if_pos rfl, if_pos rfl, filter_clearMask_of_chainOk (hb.at? x)]
  · rw [if_neg (Ne.symm hx), if_neg hx]

/-- Clearing every address of a table in shape removes, at each, the records the types cover. -/
theorem at?_clearAll_of_shaped (hb : b.Shaped) (x : Address) (T : BreakTypes) :
    (b.clearAll T).at? x = (b.at? x).filter (fun r => !(T.isEmpty || r.types.intersects T)) := by
  rw [at?_clearAll, filter_clearMask_of_chainOk (hb.at? x)]

/-- A table in shape already has the summary of its records. -/
theorem Shaped.resummarize_eq (hb : b.Shaped) : b.resummarize = b := by
  have h : b.resummarize.summary = b.summary := by rw [summary_resummarize, hb.summary_eq]
  obtain ⟨tt, chains, summary, lastMatch⟩ := b
  simp only [resummarize] at h ⊢
  rw [h]

/-- Clearing an address without breakpoints changes nothing in a table in shape. -/
theorem clear_of_contains_eq_false (hb : b.Shaped) {a : Address}
    (h : b.chains.contains a = false) (T : BreakTypes) : b.clear a T = b := by
  unfold clear
  dsimp only
  rw [h, if_neg Bool.false_ne_true]
  exact hb.resummarize_eq

theorem getElem?_clear_of_ne {a x : Address} (hne : a ≠ x) (T : BreakTypes) :
    (b.clear a T).chains[x]? = b.chains[x]? := by
  unfold clear
  dsimp only
  split
  · show (b.withChain a _).chains[x]? = _
    rw [getElem?_withChain, if_neg hne]
  · rfl

theorem contains_clear_of_ne {a x : Address} (hne : a ≠ x) (T : BreakTypes) :
    (b.clear a T).chains.contains x = b.chains.contains x := by
  rw [Std.TreeMap.contains_eq_isSome_getElem?, Std.TreeMap.contains_eq_isSome_getElem?,
    getElem?_clear_of_ne hne]

/-- Clearing distinct addresses one after another: those without breakpoints change nothing. -/
theorem foldl_clear_filter_contains (hb : b.Shaped) {L : List Address} (hL : L.Nodup)
    (T : BreakTypes) :
    L.foldl (fun b x => b.clear x T) b =
      (L.filter fun x => b.chains.contains x).foldl (fun b x => b.clear x T) b := by
  induction L generalizing b with
  | nil => rfl
  | cons x L ih =>
    obtain ⟨hx, hL⟩ := List.nodup_cons.mp hL
    -- clearing `x` leaves which of the other addresses carry breakpoints as it was
    have hsame : (L.filter fun y => (b.clear x T).chains.contains y) =
        L.filter fun y => b.chains.contains y :=
      List.filter_congr fun y hy => contains_clear_of_ne (fun (h : x = y) => hx (h ▸ hy)) T
    rw [List.foldl_cons, ih (hb.clear x T) hL, hsame]
    cases hc : b.chains.contains x
    · rw [List.filter_cons_of_neg (by rw [hc]; exact Bool.false_ne_true),
        clear_of_contains_eq_false hb hc]
    · rw [List.filter_cons_of_pos hc, List.foldl_cons]

/-- The addresses of a range that carry breakpoints, in ascending order either way: picked out
of the range, or out of the table's addresses. -/
theorem filter_contains_upTo (b : BreakTable) (low high : Address) :
    (low.upTo high).filter (fun x => b.chains.contains x) = b.addressesIn low high := by
  have hkeys : b.chains.keys.Pairwise fun a c => a.val < c.val :=
    (Std.TreeMap.ordered_keys (t := b.chains)).imp fun h => Nat.compare_eq_lt.mp h
  have hmem : ∀ x, x ∈ (low.upTo high).filter (fun x => b.chains.contains x) ↔
      x ∈ b.addressesIn low high := by
    intro x
    simp only [addressesIn, List.mem_filter, Address.mem_upTo, Std.TreeMap.mem_keys,
      Std.TreeMap.mem_iff_contains, decide_eq_true_eq]
    exact and_comm
  have hsorted₁ := (Address.pairwise_upTo low high).filter fun x => b.chains.contains x
  have hsorted₂ := hkeys.filter fun a => decide (low ≤ a ∧ a ≤ high)
  have hperm := (List.perm_ext_iff_of_nodup (Address.nodup_of_pairwise_val_lt hsorted₁)
    (Address.nodup_of_pairwise_val_lt hsorted₂)).mpr hmem
  exact hperm.eq_of_pairwise (fun _ _ _ _ h₁ h₂ => (Nat.lt_asymm h₁ h₂).elim)
    hsorted₁ hsorted₂

/-- Clearing the addresses of a range that carry breakpoints is clearing every address of the
range, in order. -/
theorem foldl_clear_addressesIn (hb : b.Shaped) (low high : Address) (T : BreakTypes) :
    (b.addressesIn low high).foldl (fun b x => b.clear x T) b =
      (low.upTo high).foldl (fun b x => b.clear x T) b := by
  rw [← filter_contains_upTo, foldl_clear_filter_contains hb
    (Address.nodup_of_pairwise_val_lt (Address.pairwise_upTo low high))]

theorem Shaped.foldl_clear (hb : b.Shaped) (L : List Address) (T : BreakTypes) :
    (L.foldl (fun b x => b.clear x T) b).Shaped := by
  induction L generalizing b with
  | nil => exact hb
  | cons x L ih => exact ih (hb.clear x T)

end BreakTable

namespace Session

open Command BreakTable

theorem run_modifyContext (f : Context → Context) (s : Session) :
    (modifyContext f).run s = .ok () { s with ctx := f s.ctx } := rfl

/-- NOBREAK walks its ranges one after another; in each it clears the addresses that carry
breakpoints, which is clearing every address of the range. -/
theorem run_forM_clearRanges (T : BreakTypes) (rs : List (Address × Address × Nat)) (s : Session)
    (hb : s.ctx.breaks.Shaped) :
    (rs.forM fun (low, high, _) => modifyContext fun c =>
        { c with breaks := (c.breaks.addressesIn low high).foldl (fun b a => b.clear a T) c.breaks }).run s =
      .ok () { s with ctx := { s.ctx with
        breaks := rs.foldl (fun b r => (r.1.upTo r.2.1).foldl (fun b x => b.clear x T) b) s.ctx.breaks } } := by
  induction rs generalizing s with
  | nil => rfl
  | cons r rs ih =>
    obtain ⟨low, high, n⟩ := r
    rw [List.forM.eq_2, EStateM.run_bind, run_modifyContext]
    dsimp only
    rw [foldl_clear_addressesIn hb]
    exact ih _ (hb.foldl_clear _ T)

/-- The ranges of targets that are all ranges, and clearing range by range as clearing address
by address. -/
theorem ranges_of_spans {targets : List BreakTarget}
    (hspan : ∀ t ∈ targets, ∃ low high, t.range = .span low high) :
    ∃ rs, ranges targets = .ok rs ∧ ∀ (T : BreakTypes) (b : BreakTable),
      rs.foldl (fun b r => (r.1.upTo r.2.1).foldl (fun b x => b.clear x T) b) b =
        (targets.flatMap BreakTarget.named).foldl (fun b x => b.clear x.1 T) b := by
  induction targets with
  | nil => exact ⟨[], rfl, fun _ _ => rfl⟩
  | cons t ts ih =>
    obtain ⟨low, high, hrange⟩ := hspan t List.mem_cons_self
    obtain ⟨rs, hrs, hfold⟩ := ih fun t' ht' => hspan t' (List.mem_cons_of_mem t ht')
    obtain ⟨range, n⟩ := t
    cases hrange
    refine ⟨(low, high, n) :: rs, by rw [ranges_cons_span, hrs]; rfl, fun T b => ?_⟩
    rw [List.foldl_cons, hfold, List.flatMap_cons, List.foldl_append]
    simp only [BreakTarget.named, List.foldl_map]

/-- NOBREAK over targets that are all ranges clears every address they name, in order. -/
theorem run_clearBreakpoints_spans (T : BreakTypes) {targets : List BreakTarget}
    (hne : targets ≠ []) (hspan : ∀ t ∈ targets, ∃ low high, t.range = .span low high)
    (s : Session) (hb : s.ctx.breaks.Shaped) :
    (clearBreakpoints T targets).run s =
      .ok () { s with ctx := { s.ctx with breaks :=
        (targets.flatMap BreakTarget.named).foldl (fun b x => b.clear x.1 T) s.ctx.breaks } } := by
  have hempty : targets.isEmpty = false := List.isEmpty_eq_false_iff.mpr hne
  have hall : targets.any isAll = false := List.any_eq_false.mpr fun t ht => by
    obtain ⟨low, high, h⟩ := hspan t ht
    simp [isAll, h]
  obtain ⟨rs, hrs, hfold⟩ := ranges_of_spans hspan
  unfold clearBreakpoints
  rw [hempty, if_neg Bool.false_ne_true, hall, if_neg Bool.false_ne_true, EStateM.run_bind, hrs]
  show EStateM.run (rs.forM _) s = _
  rw [run_forM_clearRanges T rs s hb, hfold]

end Session

namespace BreakTable

/-- Clearing breakpoints, in every reachable table. A clear naming types `T` removes at its
address exactly the records that share a type with `T`, or every record if `T` names no type
(its debounce space ignored), and leaves every other record as it was and where it was; a clear
of every address does so at each. NOBREAK over a range clears only the addresses of the range
that carry breakpoints, and that is clearing every address of the range, whatever its width:
over targets that are all ranges it clears every address they name, in order, and changes
nothing else in the session. -/
theorem clear_removes_matching_records {b : BreakTable} (hb : b.Reach) (T : BreakTypes) :
    (∀ a x, (b.clear a T).at? x =
      if x = a then (b.at? x).filter (fun r => !(T.isEmpty || r.types.intersects T))
      else b.at? x) ∧
    (∀ x, (b.clearAll T).at? x = (b.at? x).filter (fun r => !(T.isEmpty || r.types.intersects T))) ∧
    (∀ low high, (b.addressesIn low high).foldl (fun b x => b.clear x T) b =
      (low.upTo high).foldl (fun b x => b.clear x T) b) ∧
    ∀ (s : Session), s.ctx.breaks = b → ∀ targets : List Command.BreakTarget, targets ≠ [] →
      (∀ t ∈ targets, ∃ low high, t.range = .span low high) →
      (Session.clearBreakpoints T targets).run s =
        .ok () { s with ctx := { s.ctx with breaks :=
          (targets.flatMap Command.BreakTarget.named).foldl (fun b x => b.clear x.1 T) b } } := by
  have hs := hb.shaped
  refine ⟨fun a x => at?_clear_of_shaped hs a x T, fun x => at?_clearAll_of_shaped hs x T,
    fun low high => foldl_clear_addressesIn hs low high T, ?_⟩
  rintro s rfl targets hne hspan
  exact Session.run_clearBreakpoints_spans T hne hspan s hs

/-- A table holding one breakpoint of no named type at address 8 is reachable, and a clear
naming no type removes every record of it. -/
theorem clear_removes_matching_records_of_standard :
    let b := ((BreakTable.new BreakTypeTable.standard).set (Address.ofNat 8) BreakTypes.empty 0
      none).toOption.getD (BreakTable.new BreakTypeTable.standard)
    let T := BreakTypes.empty
    b.Reach ∧
    ((∀ a x, (b.clear a T).at? x =
      if x = a then (b.at? x).filter (fun r => !(T.isEmpty || r.types.intersects T))
      else b.at? x) ∧
    (∀ x, (b.clearAll T).at? x = (b.at? x).filter (fun r => !(T.isEmpty || r.types.intersects T))) ∧
    (∀ low high, (b.addressesIn low high).foldl (fun b x => b.clear x T) b =
      (low.upTo high).foldl (fun b x => b.clear x T) b) ∧
    ∀ (s : Session), s.ctx.breaks = b → ∀ targets : List Command.BreakTarget, targets ≠ [] →
      (∀ t ∈ targets, ∃ low high, t.range = .span low high) →
      (Session.clearBreakpoints T targets).run s =
        .ok () { s with ctx := { s.ctx with breaks :=
          (targets.flatMap Command.BreakTarget.named).foldl (fun b x => b.clear x.1 T) b } }) := by
  intro b T
  have hb : b.Reach := .set _ _ _ _ (.new _ (by decide) (by decide))
  exact ⟨hb, clear_removes_matching_records hb T⟩

end BreakTable

end SimControl
