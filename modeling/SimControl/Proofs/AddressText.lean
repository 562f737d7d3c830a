import Mathlib.Data.Nat.Digits.Defs
import SimControl.Address
/-!
# Reading addresses

An address is written in octal: an optional plus sign, then one or more octal digits
(`Text.OctalNumeral`). The reader takes the numeral into a 64-bit word first and checks the
24-bit range after, so a numeral is refused in two ways: as out of range when its value needs
more than 24 bits but fits 64, and, like any text that is no numeral at all, as no octal
address when its value needs more than 64 bits.

* `Text.readUnsigned_octal_eq_some_iff`: the reader of unsigned numerals accepts exactly the
  octal numerals, with their value.
* `Address.parse_outcomes`: each outcome of reading an address, said of the text alone; and the
  octal text of every address reads back as that address.
* `Address.parse_wide_numeral`: a numeral of 65 bits is no octal address, not an address out of
  range.
-/

namespace SimControl

namespace Text

/-- The value of a run of digits, most significant first, each digit worth its distance from
`'0'`. -/
def digitsValue (radix : Nat) (ds : List Char) : Nat :=
  Nat.ofDigits radix (ds.reverse.map fun d => d.toNat - '0'.toNat)

theorem digitsValue_nil (radix : Nat) : digitsValue radix [] = 0 := rfl

theorem digitsValue_cons (radix : Nat) (d : Char) (ds : List Char) :
    digitsValue radix (d :: ds) =
      (d.toNat - '0'.toNat) * radix ^ ds.length + digitsValue radix ds := by
  simp only [digitsValue, List.reverse_cons, List.map_append, List.map_cons, List.map_nil,
    Nat.ofDigits_append, Nat.ofDigits_singleton, List.length_map, List.length_reverse]
  ring

theorem digitsValue_append_singleton (radix : Nat) (ds : List Char) (d : Char) :
    digitsValue radix (ds ++ [d]) = digitsValue radix ds * radix + (d.toNat - '0'.toNat) := by
  simp only [digitsValue, List.reverse_append, List.reverse_singleton, List.singleton_append,
    List.map_cons, Nat.ofDigits_cons]
  ring

/-- Text that is an octal numeral of a value: an optional plus sign, then one or more octal
digits whose value it is. -/
def OctalNumeral (s : String) (v : Nat) : Prop :=
  ∃ ds : List Char, ds ≠ [] ∧ (∀ d ∈ ds, '0' ≤ d ∧ d ≤ '7') ∧
    (s.toList = ds ∨ s.toList = '+' :: ds) ∧ v = digitsValue 8 ds

theorem octal_iff_toNat {c : Char} : ('0' ≤ c ∧ c ≤ '7') ↔ 48 ≤ c.toNat ∧ c.toNat ≤ 55 := by
  simp only [Char.le_def, UInt32.le_iff_toNat_le, Char.toNat_val]
  rfl

/-- An octal digit is a character from `'0'` to `'7'`, worth its distance from `'0'`. -/
theorem digitValue_octal_eq_some_iff {c : Char} {d : Nat} :
    digitValue 8 c = some d ↔ ('0' ≤ c ∧ c ≤ '7') ∧ d = c.toNat - '0'.toNat := by
  rw [octal_iff_toNat]
  unfold digitValue
  simp only [Char.le_def, UInt32.le_iff_toNat_le, Char.toNat_val]
  -- a letter is worth ten or more, too much for an octal digit
  have ha : 'a'.toNat = 97 := rfl
  have hz : 'z'.toNat = 122 := rfl
  have hA : 'A'.toNat = 65 := rfl
  have hZ : 'Z'.toNat = 90 := rfl
  have h0 : '0'.toNat = 48 := rfl
  have h9 : '9'.toNat = 57 := rfl
  split_ifs <;> simp only [Option.some.injEq, false_iff, not_and] <;> omega

theorem readDigitsFrom_octal_eq_some_iff (acc : Nat) (ds : List Char) (v : Nat) :
    readDigitsFrom 8 acc ds = some v ↔
      (∀ d ∈ ds, '0' ≤ d ∧ d ≤ '7') ∧ v = acc * 8 ^ ds.length + digitsValue 8 ds := by
  induction ds generalizing acc with
  | nil => simp [readDigitsFrom, digitsValue_nil, eq_comm]
  | cons d ds ih =>
    cases h : digitValue 8 d with
    | none =>
      -- a character that is no octal digit stops the reading
      have hd : ¬('0' ≤ d ∧ d ≤ '7') := fun hd => by
        have hsome := digitValue_octal_eq_some_iff.mpr ⟨hd, rfl⟩
        rw [h] at hsome
        cases hsome
      rw [readDigitsFrom, h, Option.bind_none]
      constructor
      · intro hnone
        cases hnone
      · rintro ⟨hall, -⟩
        exact absurd (hall d List.mem_cons_self) hd
    | some k =>
      obtain ⟨hd, rfl⟩ := digitValue_octal_eq_some_iff.mp h
      rw [readDigitsFrom, h, Option.bind_some, ih, List.forall_mem_cons, digitsValue_cons,
        List.length_cons]
      constructor
      · rintro ⟨hds, rfl⟩
        exact ⟨⟨hd, hds⟩, by ring⟩
      · rintro ⟨⟨-, hds⟩, rfl⟩
        exact ⟨hds, by ring⟩

theorem readDigits_octal_eq_some_iff (ds : List Char) (v : Nat) :
    readDigits 8 ds = some v ↔ ds ≠ [] ∧ (∀ d ∈ ds, '0' ≤ d ∧ d ≤ '7') ∧ v = digitsValue 8 ds := by
  cases ds with
  | nil => simp [readDigits]
  | cons d ds =>
    show readDigitsFrom 8 0 (d :: ds) = some v ↔ _
    rw [readDigitsFrom_octal_eq_some_iff, Nat.zero_mul, Nat.zero_add]
    exact ⟨fun h => ⟨List.cons_ne_nil d ds, h⟩, fun h => h.2⟩

/-- The reader of unsigned numerals, in octal, accepts exactly the octal numerals and gives
their value. -/
theorem readUnsigned_octal_eq_some_iff (s : String) (v : Nat) :
    readUnsigned 8 s = some v ↔ OctalNumeral s v := by
  unfold readUnsigned OctalNumeral
  -- a plus sign is no octal digit, so the sign and the digits are told apart
  have hplus : ¬('0' ≤ '+' ∧ '+' ≤ '7') := by decide
  split
  · next cs hs =>
    rw [readDigits_octal_eq_some_iff, hs]
    constructor
    · rintro ⟨hne, hds, rfl⟩
      exact ⟨cs, hne, hds, Or.inr rfl, rfl⟩
    · rintro ⟨ds, hne, hds, heq | heq, rfl⟩
      · exact absurd (hds '+' (by rw [← heq]; exact List.mem_cons_self)) hplus
      · cases heq
        exact ⟨hne, hds, rfl⟩
  · next cs hs =>
    rw [readDigits_octal_eq_some_iff]
    constructor
    · rintro ⟨hne, hds, rfl⟩
      exact ⟨s.toList, hne, hds, Or.inl rfl, rfl⟩
    · rintro ⟨ds, hne, hds, heq | heq, rfl⟩
      · rw [heq]
        exact ⟨hne, hds, rfl⟩
      · exact absurd heq (hs ds)

theorem OctalNumeral.ne_empty {s : String} {v : Nat} (h : OctalNumeral s v) : s ≠ "" := by
  rintro rfl
  obtain ⟨ds, hne, -, heq | heq, -⟩ := h
  · exact hne heq.symm
  · cases heq

/-- A numeral has one value. -/
theorem OctalNumeral.unique {s : String} {v w : Nat} (hv : OctalNumeral s v)
    (hw : OctalNumeral s w) : v = w := by
  rw [← readUnsigned_octal_eq_some_iff] at hv hw
  rw [hv] at hw
  exact Option.some.inj hw

/-- The octal digits of a number are octal digits worth the number. -/
theorem toDigits_octal (n : Nat) :
    (∀ c ∈ Nat.toDigits 8 n, '0' ≤ c ∧ c ≤ '7') ∧ digitsValue 8 (Nat.toDigits 8 n) = n := by
  induction n using Nat.strong_induction_on with
  | _ n ih =>
    -- the last digit is the remainder by eight, the others those of the quotient
    have hdigit : ∀ k < 8, ('0' ≤ k.digitChar ∧ k.digitChar ≤ '7') ∧
        k.digitChar.toNat - '0'.toNat = k := fun k hk => by
      have hk' := Nat.toNat_digitChar_of_lt_ten (Nat.lt_of_lt_of_le hk (by decide))
      rw [octal_iff_toNat, hk']
      exact ⟨⟨by omega, by omega⟩, by show 48 + k - 48 = k; omega⟩
    rw [Nat.toDigits_eq_if (by decide)]
    split
    · next hn =>
      refine ⟨fun c hc => ?_, ?_⟩
      · rw [List.mem_singleton.mp hc]
        exact (hdigit n hn).1
      · rw [← List.nil_append [n.digitChar], digitsValue_append_singleton, digitsValue_nil,
          (hdigit n hn).2]
        omega
    · next hn =>
      obtain ⟨hq, hqv⟩ := ih (n / 8) (Nat.div_lt_self (by omega) (by decide))
      have hr := hdigit (n % 8) (Nat.mod_lt n (by decide))
      refine ⟨fun c hc => ?_, ?_⟩
      · rcases List.mem_append.mp hc with hc | hc
        · exact hq c hc
        · rw [List.mem_singleton.mp hc]
          exact hr.1
      · rw [digitsValue_append_singleton, hqv, hr.2]
        omega

/-- The octal text of a number is an octal numeral of it. -/
theorem octalNumeral_octal (n : Nat) : OctalNumeral (octal n) n := by
  obtain ⟨hds, hv⟩ := toDigits_octal n
  refine ⟨Nat.toDigits 8 n, ?_, hds, Or.inl String.toList_ofList, hv.symm⟩
  exact List.ne_nil_of_length_pos Nat.length_toDigits_pos

end Text

namespace Address

open Text

/-- How text that is not empty reads: refused as no octal address unless it is an unsigned
numeral of a 64-bit word, and then an address or out of range by its value. -/
theorem parse_of_ne_empty {s : String} (hs : s ≠ "") :
    parse s =
      match readUnsigned 8 s with
      | some v =>
        if v < 2 ^ 64 then (if h : v < 16777216 then .ok ⟨v, h⟩ else .error (.outOfRange ⟨v⟩))
        else .error (.notOctal s)
      | none => .error (.notOctal s) := by
  have hempty : s.isEmpty = false := by
    cases h : s.isEmpty
    · rfl
    · exact absurd (String.isEmpty_iff.mp h) hs
  rw [parse, hempty, if_neg Bool.false_ne_true, readWord]
  cases readUnsigned 8 s with
  | none => rfl
  | some v =>
    dsimp only
    by_cases hv : v < 2 ^ 64
    · rw [if_pos hv, Option.filter_some, if_pos (by simpa [Nat.pow_eq] using hv)]
    · rw [if_neg hv, Option.filter_some, if_neg (by simpa [Nat.pow_eq] using hv)]

theorem parse_eq_ok_iff (s : String) (a : Address) : parse s = .ok a ↔ OctalNumeral s a.val := by
  constructor
  · intro h
    have hs : s ≠ "" := by
      rintro rfl
      cases h
    rw [parse_of_ne_empty hs] at h
    split at h
    · next v hv =>
      split at h
      · split at h
        · cases h
          exact (readUnsigned_octal_eq_some_iff s _).mp hv
        · cases h
      · cases h
    · cases h
  · intro h
    have hv := (readUnsigned_octal_eq_some_iff s a.val).mpr h
    rw [parse_of_ne_empty h.ne_empty, hv]
    dsimp only
    rw [if_pos (by have := a.isLt; omega), dif_pos a.isLt]

theorem parse_eq_outOfRange_iff (s : String) (v : Nat) :
    parse s = .error (.outOfRange ⟨v⟩) ↔ OctalNumeral s v ∧ maxVal < v ∧ v < 2 ^ 64 := by
  constructor
  · intro h
    have hs : s ≠ "" := by
      rintro rfl
      cases h
    rw [parse_of_ne_empty hs] at h
    split at h
    · next w hw =>
      split at h
      · next hlt =>
        split at h
        · cases h
        · next hbig =>
          cases h
          exact ⟨(readUnsigned_octal_eq_some_iff s _).mp hw, by unfold maxVal; omega, hlt⟩
      · cases h
    · cases h
  · rintro ⟨h, hbig, hlt⟩
    have hv := (readUnsigned_octal_eq_some_iff s v).mpr h
    rw [parse_of_ne_empty h.ne_empty, hv]
    dsimp only
    rw [if_pos hlt, dif_neg (by unfold maxVal at hbig; omega)]

theorem parse_eq_notOctal_iff (s t : String) :
    parse s = .error (.notOctal t) ↔ t = s ∧ s ≠ "" ∧ ∀ v, OctalNumeral s v → 2 ^ 64 ≤ v := by
  constructor
  · intro h
    have hs : s ≠ "" := by
      rintro rfl
      cases h
    rw [parse_of_ne_empty hs] at h
    refine ⟨?_, hs, fun v hv => ?_⟩
    · split at h
      · split at h
        · split at h <;> cases h
        · cases h
          rfl
      · cases h
        rfl
    · -- the numeral's value is the one the reader gives, and it fills more than 64 bits
      have hr := (readUnsigned_octal_eq_some_iff s v).mpr hv
      rw [hr] at h
      dsimp only at h
      split at h
      · split at h <;> cases h
      · omega
  · rintro ⟨ht, hs, hwide⟩
    rw [ht, parse_of_ne_empty hs]
    cases hr : readUnsigned 8 s with
    | none => rfl
    | some v =>
      dsimp only
      rw [if_neg (Nat.not_lt.mpr (hwide v ((readUnsigned_octal_eq_some_iff s v).mp hr)))]

/-- Reading an address, outcome by outcome. Empty text is refused as empty. Text reads as the
address `a` exactly when it is an octal numeral, with an optional plus sign, whose value is
`a`'s. It is refused as out of range exactly when it is an octal numeral whose value is above
`0o77777777` and below `2 ^ 64`. It is refused as no octal address, with the text itself in the
fault, exactly when it is not empty and not an octal numeral of a value below `2 ^ 64`: a
numeral of a wider value is refused so too. The octal text of every address reads back as
that address. -/
theorem parse_outcomes (s : String) :
    (parse s = .error .empty ↔ s = "") ∧
    (∀ a : Address, parse s = .ok a ↔ OctalNumeral s a.val) ∧
    (∀ v, parse s = .error (.outOfRange ⟨v⟩) ↔ OctalNumeral s v ∧ maxVal < v ∧ v < 2 ^ 64) ∧
    (∀ t, parse s = .error (.notOctal t) ↔ t = s ∧ s ≠ "" ∧ ∀ v, OctalNumeral s v → 2 ^ 64 ≤ v) ∧
    ∀ a : Address, parse a.toOctal = .ok a := by
  refine ⟨⟨fun h => ?_, fun h => by rw [h]; rfl⟩, parse_eq_ok_iff s, parse_eq_outOfRange_iff s,
    parse_eq_notOctal_iff s, fun a => (parse_eq_ok_iff _ a).mpr (octalNumeral_octal a.val)⟩
  -- text that is not empty never reads as empty
  refine Classical.byContradiction fun hs => ?_
  rw [parse_of_ne_empty hs] at h
  split at h
  · split at h
    · split at h <;> cases h
    · cases h
  · cases h

/-- A run of octal digits worth `2 ^ 64` is refused as no octal address, not as out of range. -/
theorem parse_wide_numeral :
    OctalNumeral "2000000000000000000000" (2 ^ 64) ∧
      parse "2000000000000000000000" = .error (.notOctal "2000000000000000000000") :=
  ⟨(readUnsigned_octal_eq_some_iff _ _).mp rfl, rfl⟩

end Address

end SimControl
