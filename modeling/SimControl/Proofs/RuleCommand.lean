import Mathlib
import SimControl.Proofs.QuotedToken
import SimControl.Proofs.PlantedTypes
import SimControl.Proofs.BreakTableShape
import SimControl.Proofs.ExpectDefine
/-!
# A rule written as a command

SHOW EXPECT lists each rule as the EXPECT command that would define it (`ExpectRule.render`):
the switches, the pattern as written, the repeat count in brackets after the pattern, then the
action. Read back by the command grammar, that text gives the rule's switches and pattern and,
for a rule with no count, its action. The grammar takes a repeat count only before the pattern
and takes everything after the pattern as the action, so a count written after the pattern is
read as the start of the action: such a rule reads back with no count and an action that
begins with the bracketed count.

* `Switches.parseToken_render`: a nonempty set of letters is read back from its text.
* `Text.trimBlank_of_trimmed`: a text that neither starts nor ends with a blank is its own
  trimming.
* `Command.remainder_scanFrom`: the rest of a line is the text from its first character that
  is no blank, trimmed.
* `Expectations.Reach.written`: every rule of a line has a pattern the quoted-string reader
  accepts, and an action, if any, that is trimmed and not empty.
* `Command.parse_render`: what the grammar makes of a rule's text.
* `Expectations.rule_text_reads_back`: all of it, for every rule of every state a line reaches.
-/

namespace SimControl

/-! ## Switch letters -/

namespace Switches

theorem shiftLeft_one_getElem {i j : Nat} (hi : i < 32) (hj : j < 32) :
    ((1 : UInt32) <<< i.toUInt32).toBitVec[j] = decide (j = i) := by
  rw [UInt32.toBitVec_shiftLeft, BitVec.shiftLeft_eq', BitVec.getElem_shiftLeft]
  have hmod : (i.toUInt32.toBitVec % 32).toNat = i := by
    simp
    omega
  simp only [hmod, UInt32.toBitVec_one, BitVec.getElem_one]
  by_cases hji : j < i <;> simp [hji] <;> omega

/-- Masking with the bit of a letter tests that bit. -/
theorem and_shiftLeft_one_ne_zero (x : UInt32) {i : Nat} (hi : i < 32) :
    (x &&& ((1 : UInt32) <<< i.toUInt32) != 0) = x.toBitVec[i] := by
  have hbit : ∀ j (hj : j < 32),
      (x &&& ((1 : UInt32) <<< i.toUInt32)).toBitVec[j] = (decide (j = i) && x.toBitVec[i]) := by
    intro j hj
    rw [UInt32.toBitVec_and, BitVec.getElem_and, shiftLeft_one_getElem hi hj]
    by_cases hji : j = i
    · subst hji
      simp
    · simp [hji]
  cases hb : x.toBitVec[i]
  · have hzero : x &&& ((1 : UInt32) <<< i.toUInt32) = 0 :=
      uint32_eq_of_getElem_eq fun j hj => by
        rw [hbit j hj, hb, Bool.and_false]
        simp
    simp [hzero]
  · have hne : x &&& ((1 : UInt32) <<< i.toUInt32) ≠ 0 := fun h => by
      have hi' := hbit i hi
      rw [h, hb] at hi'
      simp at hi'
    simp [hne]

theorem letter?_ofNat : ∀ i < 26,
    letter? (Char.ofNat ('A'.toNat + i)) = some ⟨(1 : UInt32) <<< i.toUInt32⟩ := by
  decide

theorem letterMask_getElem : ∀ j (hj : j < 32), letterMask.toBitVec[j] = decide (j < 26) := by
  decide

/-- The letter of bit `i`, if that bit is set. -/
def letterAt (s : Switches) (i : Nat) : Option Char :=
  if s.bits &&& ((1 : UInt32) <<< i.toUInt32) != 0 then some (Char.ofNat ('A'.toNat + i)) else none

theorem letters_eq_filterMap (s : Switches) : s.letters = (List.range 26).filterMap s.letterAt :=
  rfl

theorem mem_letters {s : Switches} {x : Char} (hx : x ∈ s.letters) :
    ∃ i < 26, x = Char.ofNat ('A'.toNat + i) := by
  rw [letters_eq_filterMap, List.mem_filterMap] at hx
  obtain ⟨i, hi, hx⟩ := hx
  unfold letterAt at hx
  split at hx
  · exact ⟨i, List.mem_range.mp hi, (Option.some.inj hx).symm⟩
  · cases hx

theorem addLetters_append (acc : Switches) (l₁ l₂ : List Char) :
    addLetters acc (l₁ ++ l₂) = (addLetters acc l₁).bind fun a => addLetters a l₂ := by
  induction l₁ generalizing acc with
  | nil => rfl
  | cons c cs ih =>
    simp only [List.cons_append, addLetters, ih, Option.bind_assoc]

/-- The letters of the first `k` bits add those bits, one letter at a time. -/
theorem addLetters_range (s acc : Switches) : ∀ k ≤ 26, ∃ r : Switches,
    addLetters acc ((List.range k).filterMap s.letterAt) = some r ∧
      ∀ j (hj : j < 32), r.bits.toBitVec[j] =
        (acc.bits.toBitVec[j] || (decide (j < k) && s.bits.toBitVec[j])) := by
  intro k hk
  induction k with
  | zero => exact ⟨acc, rfl, fun j hj => by simp⟩
  | succ k ih =>
    obtain ⟨r, hr, hbits⟩ := ih (by omega)
    have hstep : (List.range (k + 1)).filterMap s.letterAt =
        (List.range k).filterMap s.letterAt ++ [k].filterMap s.letterAt := by
      rw [List.range_succ, List.filterMap_append]
    rw [hstep, addLetters_append, hr, Option.bind_some]
    have hcond := and_shiftLeft_one_ne_zero s.bits (i := k) (by omega)
    cases hk' : s.bits.toBitVec[k]
    · -- bit `k` is clear: no letter, nothing added
      have hnone : s.letterAt k = none := by simp [letterAt, hcond, hk']
      refine ⟨r, by simp [hnone, addLetters], fun j hj => ?_⟩
      rw [hbits j hj]
      by_cases hjk : j = k
      · subst hjk
        simp [hk']
      · have hlt : (j < k + 1) ↔ j < k := by omega
        simp [hlt]
    · -- bit `k` is set: its letter adds exactly that bit
      have hsome : s.letterAt k = some (Char.ofNat ('A'.toNat + k)) := by
        simp [letterAt, hcond, hk']
      refine ⟨r.union ⟨(1 : UInt32) <<< k.toUInt32⟩, ?_, fun j hj => ?_⟩
      · simp only [List.filterMap_cons, hsome, List.filterMap_nil, addLetters,
          letter?_ofNat k (by omega), Option.bind_some]
      · show (r.bits ||| (1 : UInt32) <<< k.toUInt32).toBitVec[j] = _
        rw [UInt32.toBitVec_or, BitVec.getElem_or, hbits j hj, shiftLeft_one_getElem (by omega) hj]
        by_cases hjk : j = k
        · subst hjk
          simp [hk']
        · have hlt : (j < k + 1) ↔ j < k := by omega
          simp [hlt, hjk]

/-- The letters of a set of switches add up to that set. -/
theorem addLetters_letters {s : Switches} (hs : s.Letters) (acc : Switches) :
    addLetters acc s.letters = some (acc.union s) := by
  obtain ⟨r, hr, hbits⟩ := addLetters_range s acc 26 le_rfl
  rw [letters_eq_filterMap, hr]
  congr 1
  cases r with
  | mk bits =>
    show (⟨bits⟩ : Switches) = ⟨acc.bits ||| s.bits⟩
    congr 1
    apply uint32_eq_of_getElem_eq
    intro j hj
    -- a set bit is a letter's, below 26, since the mask keeps it
    have hmask : s.bits.toBitVec[j] = (s.bits.toBitVec[j] && decide (j < 26)) := by
      conv_lhs => rw [← hs]
      rw [UInt32.toBitVec_and, BitVec.getElem_and, letterMask_getElem j hj]
    rw [hbits j hj, UInt32.toBitVec_or, BitVec.getElem_or]
    cases h : s.bits.toBitVec[j] <;> simp_all

theorem empty_union (s : Switches) : empty.union s = s := by
  cases s
  simp [union, empty]

/-- A nonempty set of letters has a letter. -/
theorem letters_ne_nil {s : Switches} (hs : s.Letters) (hne : s.isEmpty = false) : s.letters ≠ [] := by
  intro hl
  have hadd := addLetters_letters hs empty
  rw [empty_union, hl, addLetters, Option.some.injEq] at hadd
  rw [← hadd] at hne
  cases hne

/-- A nonempty set of letters is read back from its text. -/
theorem parseToken_render {s : Switches} (hs : s.Letters) (hne : s.isEmpty = false) :
    parseToken s.render = .ok s := by
  have hadd := addLetters_letters hs empty
  rw [empty_union] at hadd
  obtain ⟨c, cs, hl⟩ := List.exists_cons_of_ne_nil (letters_ne_nil hs hne)
  rw [hl] at hadd
  simp only [render, hne, Bool.false_eq_true, if_false, parseToken, String.toList_ofList, hl, hadd]

end Switches

/-! ## Trimmed text -/

namespace Text

/-- Characters that neither start nor end with a blank. -/
def Trimmed (cs : List Char) : Prop :=
  (∀ c ∈ cs.head?, isBlank c = false) ∧ ∀ c ∈ cs.getLast?, isBlank c = false

theorem trimChars_eq_rdropWhile (cs : List Char) :
    trimChars cs = (cs.dropWhile isBlank).rdropWhile isBlank := rfl

theorem dropWhile_blank_of_trimmed {cs : List Char} (h : Trimmed cs) : cs.dropWhile isBlank = cs := by
  cases cs with
  | nil => rfl
  | cons c cs =>
    have hc : isBlank c = false := h.1 c rfl
    simp [hc]

theorem trimChars_eq_self {cs : List Char} (h : Trimmed cs) : trimChars cs = cs := by
  rw [trimChars_eq_rdropWhile, dropWhile_blank_of_trimmed h, List.rdropWhile_eq_self_iff]
  intro hne
  exact Bool.eq_false_iff.mp (h.2 _ (List.getLast?_eq_some_getLast hne))

theorem trimmed_trimChars (cs : List Char) : Trimmed (trimChars cs) := by
  rw [trimChars_eq_rdropWhile]
  constructor
  · intro c hc
    -- the trimmed text is a prefix of the text after its leading blanks
    obtain ⟨t, ht⟩ := List.rdropWhile_prefix (p := isBlank) (l := cs.dropWhile isBlank)
    have hne : cs.dropWhile isBlank ≠ [] := by
      intro h
      rw [h] at ht
      simp_all
    have hhead : (cs.dropWhile isBlank).head? = some c := by
      rw [← ht, List.head?_append, hc]
      rfl
    have hnot := List.head_dropWhile_not isBlank hne
    rw [List.head?_eq_some_head hne, Option.some.injEq] at hhead
    rw [← hhead]
    simpa using hnot
  · intro c hc
    have hne : (cs.dropWhile isBlank).rdropWhile isBlank ≠ [] := by
      intro h
      simp [h] at hc
    have hnot := List.rdropWhile_last_not isBlank _ hne
    rw [List.getLast?_eq_some_getLast hne, Option.mem_def, Option.some.injEq] at hc
    rw [← hc]
    simpa using hnot

/-- Trimming a text trims its characters; the shortcut for a text with no blank at either end
gives the same. -/
theorem trimBlank_toList (s : String) : (trimBlank s).toList = trimChars s.toList := by
  unfold trimBlank
  split
  · rename_i h
    simp only [Bool.and_eq_true, Bool.not_eq_true'] at h
    have ht : Trimmed s.toList := by
      constructor
      · intro c hc
        rw [String.front_eq, String.front?_eq, Option.mem_def.mp hc] at h
        exact h.1
      · intro c hc
        rw [String.back_eq, String.back?_eq, Option.mem_def.mp hc] at h
        exact h.2
    rw [trimChars_eq_self ht]
  · rw [String.toList_ofList]

theorem trimBlank_of_trimmed {s : String} (h : Trimmed s.toList) : trimBlank s = s := by
  apply String.toList_inj.mp
  rw [trimBlank_toList, trimChars_eq_self h]

theorem trimmed_trimBlank (s : String) : Trimmed (trimBlank s).toList := by
  rw [trimBlank_toList]
  exact trimmed_trimChars _

/-- The lexer's blanks are blanks. -/
theorem isBlank_of_isGap {c : Char} (h : Command.isGap c = true) : isBlank c = true := by
  simp only [Command.isGap, Bool.or_eq_true, decide_eq_true_eq] at h
  rcases h with (((h | h) | h) | h) | h <;> subst h <;> decide

end Text

/-! ## The lexemes of a rule's text -/

namespace Command

open Text.Quoted

/-- A literal the quoted-string reader accepts is a quote, text in the lexer's grammar, and
the same quote. -/
theorem quoted_shape_of_decode {s : String} {d : List UInt8} (h : decode s = .ok d) :
    ∃ q body, (q = '"' ∨ q = '\'') ∧ QuotedText q body ∧ s.toList = q :: (body ++ [q]) := by
  unfold decode decodeChars at h
  split at h
  · cases h
  · rename_i q body hdel
    obtain ⟨hq, hcs⟩ := delimited?_eq_some hdel
    exact ⟨q, body, hq, quotedText_of_decodeBody hq h, hcs⟩

theorem letter_chars : ∀ i < 26,
    isLetter (Char.ofNat ('A'.toNat + i)) = true ∧ isWordChar (Char.ofNat ('A'.toNat + i)) = true := by
  decide

/-- The text of a nonempty set of letters is a word of one switch token. -/
theorem switch_word {s : Switches} (hs : s.Letters) (hne : s.isEmpty = false) :
    ∃ c cs, s.render.toList = '-' :: c :: cs ∧ (∀ x ∈ '-' :: c :: cs, isWordChar x = true) ∧
      classifyWord ('-' :: c :: cs) = some (.switch s.render) := by
  obtain ⟨c, cs, hl⟩ := List.exists_cons_of_ne_nil (Switches.letters_ne_nil hs hne)
  have hchars : s.render.toList = '-' :: c :: cs := by
    simp only [Switches.render, hne, Bool.false_eq_true, if_false, String.toList_ofList, hl]
  have hletter : ∀ x ∈ c :: cs, isLetter x = true ∧ isWordChar x = true := by
    intro x hx
    rw [← hl] at hx
    obtain ⟨i, hi, rfl⟩ := Switches.mem_letters hx
    exact letter_chars i hi
  refine ⟨c, cs, hchars, ?_, ?_⟩
  · intro x hx
    rcases List.mem_cons.mp hx with rfl | hx
    · decide
    · exact (hletter x hx).2
  · have hsw : isSwitchText ('-' :: c :: cs) = true :=
      List.all_eq_true.mpr fun x hx => (hletter x hx).1
    rw [classifyWord, if_pos hsw, ← hchars, String.ofList_toList]

/-! ## Reading the rest of a line -/

/-- What the reader of the rest of a line gives for the text `t` after the lexemes read: the
text from its first character that is no blank, trimmed, or nothing if that is empty. -/
def restText (t : List Char) : Option String :=
  let r := Text.trimBlank (String.ofList (t.dropWhile isGap))
  if r.isEmpty then none else some r

/-- The rest of a line, after lexemes that end where the text `t` starts, is `restText t`. -/
theorem remainder_scanFrom (src : String) (pre t : List Char) (h : src.toList = pre ++ t) :
    remainder.run ⟨src, scanFrom pre.length t⟩ = .ok (restText t, ⟨src, []⟩) := by
  -- the scan skips the blanks of `t`; the first lexeme after them starts where the text read
  -- as the rest does
  induction t generalizing pre with
  | nil =>
    rw [scanFrom]
    rfl
  | cons c cs ih =>
    by_cases hc : isGap c = true
    · have hpos : scanFrom pre.length (c :: cs) = scanFrom (pre ++ [c]).length cs := by
        rw [scanFrom, if_pos hc, List.length_append, List.length_singleton]
      rw [hpos, ih (pre ++ [c]) (by simp [h])]
      simp [restText, hc]
    · have hstart : ∃ l ls, scanFrom pre.length (c :: cs) = l :: ls ∧ l.start = pre.length := by
        rw [scanFrom, if_neg hc]
        exact ⟨_, _, rfl, rfl⟩
      obtain ⟨l, ls, hscan, hl⟩ := hstart
      have htext : textFrom src l.start = String.ofList (c :: cs) := by
        rw [textFrom, hl, h, List.drop_left]
      rw [hscan]
      simp only [remainder, StateT.run, get, getThe, MonadStateOf.get, StateT.get, bind,
        StateT.bind, set, StateT.set, pure, StateT.pure, Except.bind, Except.pure]
      simp [htext, restText, hc]

theorem readExpect_run {src : String} {ls tail : List Lexed} {sw : Switches} {x : String}
    {i j : Nat} (hsw : switchesFrom Switches.empty ls = .ok (sw, ⟨.token (.quoted x), i, j⟩ :: tail))
    (a : Option String) (hrem : remainder.run ⟨src, tail⟩ = .ok (a, ⟨src, []⟩)) :
    readExpect.run ⟨src, ls⟩ = .ok (.expect sw none 0 0 x a, ⟨src, []⟩) := by
  simp only [readExpect, switches, onRest, line?, word?, peek, advance, quoted, count?,
    keywordValue?, StateT.run_bind]
  simp only [StateT.run, get, getThe, MonadStateOf.get, StateT.get, bind, Except.bind, pure,
    StateT.pure, Except.pure, set, StateT.set, liftM, monadLift, MonadLift.monadLift, StateT.lift,
    modify, modifyGet, MonadStateOf.modifyGet, StateT.modifyGet, StateT.bind, hsw,
    List.head?, Option.map, List.drop]
  rw [show remainder ⟨src, tail⟩ = .ok (a, ⟨src, []⟩) from hrem]
  rfl

/-- An EXPECT line whose lexemes are the keyword, switch tokens, a quoted pattern and then the
lexemes of a text `t` defines a rule for that pattern with no line, count or delay, and the
rest of the line, from `t` on, as its action. -/
theorem parse_expect_of_scan {line : String} {sws : List Lexed} {sw : Switches} {p : String}
    {pre t : List Char} {i j : Nat} (hline : line.toList = pre ++ t)
    (hscan : scan line = ⟨.token (.word "EXPECT"), 0, 6⟩ ::
      (sws ++ ⟨.token (.quoted p), i, j⟩ :: scanFrom pre.length t))
    (hsw : switchesFrom Switches.empty (sws ++ ⟨.token (.quoted p), i, j⟩ :: scanFrom pre.length t) =
      .ok (sw, ⟨.token (.quoted p), i, j⟩ :: scanFrom pre.length t)) :
    parse line = .ok (.expect sw none 0 0 p (restText t)) := by
  have hhash : "EXPECT".startsWith "#" = false := by simp
  rw [parse, hscan]
  simp only [hhash, Bool.false_eq_true, if_false,
    show lookup "EXPECT" commandWords = .ok .expect from rfl, bind, Except.bind, readArguments,
    readExpect_run hsw _ (remainder_scanFrom line pre t hline)]
  rfl

/-- The text EXPECT, the switches, the pattern and any tail is read as EXPECT with those
switches and that pattern, and the rest of the line from the tail on as the action. -/
theorem parse_expect_text {sw : Switches} (hs : sw.Letters) {p : String} {d : List UInt8}
    (hp : decode p = .ok d) (tail : String) :
    parse ("EXPECT" ++ (if sw.isEmpty then "" else " " ++ sw.render) ++ " " ++ p ++ tail) =
      .ok (.expect sw none 0 0 p (restText tail.toList)) := by
  obtain ⟨q, body, hq, hbody, hpl⟩ := quoted_shape_of_decode hp
  have hpat : String.ofList (q :: (body ++ [q])) = p := by rw [← hpl, String.ofList_toList]
  cases hne : sw.isEmpty with
  | true =>
    -- no switches: the keyword, then the pattern
    have hsw : sw = Switches.empty := by
      cases sw
      simp only [Switches.isEmpty, beq_iff_eq] at hne
      rw [hne]
      rfl
    subst hsw
    have hline : ("EXPECT" ++ "" ++ " " ++ p ++ tail).toList =
        ("EXPECT " ++ p).toList ++ tail.toList := by
      simp [String.toList_append]
    have hchars : ("EXPECT" ++ "" ++ " " ++ p ++ tail).toList =
        'E' :: ['X', 'P', 'E', 'C', 'T'] ++ ' ' :: (q :: (body ++ q :: tail.toList)) := by
      simp [String.toList_append, hpl]
    have hlen : ("EXPECT " ++ p).toList.length = 5 + 2 + body.length + 2 := by
      simp [String.toList_append, hpl]
      omega
    have hscan : scan ("EXPECT" ++ "" ++ " " ++ p ++ tail) = ⟨.token (.word "EXPECT"), 0, 6⟩ ::
        ([] ++ ⟨.token (.quoted p), 7, 7 + body.length + 2⟩ ::
          scanFrom ("EXPECT " ++ p).toList.length tail.toList) := by
      rw [scan, hchars, scanFrom_word_gap expect_chars rfl, scanFrom_quoted_append hq hbody, hpat,
        hlen]
      rfl
    rw [if_pos rfl]
    exact parse_expect_of_scan hline hscan rfl
  | false =>
    -- the keyword, one switch token, then the pattern
    obtain ⟨c, cs, hsc, hw, hcl⟩ := switch_word hs hne
    have hline : ("EXPECT" ++ " " ++ sw.render ++ " " ++ p ++ tail).toList =
        ("EXPECT " ++ sw.render ++ " " ++ p).toList ++ tail.toList := by
      simp [String.toList_append]
    have hchars : ("EXPECT" ++ " " ++ sw.render ++ " " ++ p ++ tail).toList =
        'E' :: ['X', 'P', 'E', 'C', 'T'] ++ ' ' ::
          ('-' :: (c :: cs) ++ ' ' :: (q :: (body ++ q :: tail.toList))) := by
      simp [String.toList_append, hpl, hsc]
    have hlen : ("EXPECT " ++ sw.render ++ " " ++ p).toList.length =
        5 + 2 + ((c :: cs).length + 2) + body.length + 2 := by
      simp [String.toList_append, hpl, hsc]
      omega
    have hscan : scan ("EXPECT" ++ " " ++ sw.render ++ " " ++ p ++ tail) =
        ⟨.token (.word "EXPECT"), 0, 6⟩ ::
          ([⟨.token (.switch sw.render), 7, 7 + (c :: cs).length + 1⟩] ++
            ⟨.token (.quoted p), 7 + ((c :: cs).length + 2), 7 + ((c :: cs).length + 2) + body.length + 2⟩ ::
              scanFrom ("EXPECT " ++ sw.render ++ " " ++ p).toList.length tail.toList) := by
      rw [scan, hchars, scanFrom_word_gap expect_chars rfl, scanFrom_word_gap hw hcl,
        scanFrom_quoted_append hq hbody, hpat, hlen]
      rfl
    have hassoc : "EXPECT" ++ (" " ++ sw.render) = "EXPECT" ++ " " ++ sw.render :=
      String.append_assoc.symm
    rw [if_neg (by simp), hassoc]
    refine parse_expect_of_scan hline hscan ?_
    simp only [List.singleton_append, switchesFrom, Switches.parseToken_render hs hne,
      Switches.empty_union]

theorem restText_nil : restText [] = none := by
  have htrim : Text.trimBlank (String.ofList []) = "" :=
    Text.trimBlank_of_trimmed ⟨fun _ h => by simp at h, fun _ h => by simp at h⟩
  simp [restText, htrim]

/-- After one blank, a trimmed text that is not empty is the rest of the line. -/
theorem restText_blank_cons {u : String} (hu : Text.Trimmed u.toList) (hne : u ≠ "") :
    restText (' ' :: u.toList) = some u := by
  have hdrop : (' ' :: u.toList).dropWhile isGap = u.toList := by
    rw [List.dropWhile_cons_of_pos (by decide)]
    cases hl : u.toList with
    | nil => rfl
    | cons c cs =>
      have hc : Text.isBlank c = false := hu.1 c (by simp [hl])
      have hgap : isGap c = false := by
        cases hg : isGap c
        · rfl
        · rw [Text.isBlank_of_isGap hg] at hc
          cases hc
      rw [List.dropWhile_cons_of_neg (by simp [hgap])]
  have hempty : u.isEmpty = false := by
    cases h : u.isEmpty
    · rfl
    · exact absurd (String.isEmpty_iff.mp h) hne
  simp only [restText, hdrop, String.ofList_toList, Text.trimBlank_of_trimmed hu, hempty,
    Bool.false_eq_true, if_false]

end Command

/-! ## What every rule keeps from its request -/

namespace ExpectRule

/-- What a rule keeps from the request that defined it: a pattern the quoted-string reader
accepts, and an action, if any, that is trimmed and not empty. -/
structure Written (r : ExpectRule) : Prop where
  pattern_decodes : ∃ d, Text.Quoted.decode r.pattern = .ok d
  action_trimmed : ∀ a ∈ r.action, a ≠ "" ∧ Text.Trimmed a.toList

end ExpectRule

namespace Expectations

theorem givenAction_trimmed (action : Option String) :
    ∀ a ∈ givenAction action, a ≠ "" ∧ Text.Trimmed a.toList := by
  intro a ha
  cases action with
  | none => cases ha
  | some s =>
    simp only [givenAction, Option.bind_some, Option.mem_def] at ha
    split at ha
    · cases ha
    · rename_i hne
      cases ha
      exact ⟨fun h => hne (String.isEmpty_iff.mpr h), Text.trimmed_trimBlank s⟩

/-- Defining a rule for a pattern the reader accepts keeps every rule written. -/
theorem written_define {e : Expectations} (hw : ∀ r ∈ e.rules, r.Written) {pattern : String}
    {bytes : List UInt8} (hp : Text.Quoted.decode pattern = .ok bytes) (count after : Nat)
    (switches : Switches) (action : Option String) :
    ∀ r ∈ (e.define pattern bytes count after switches action).rules, r.Written := by
  unfold define
  rw [fitBuffer_rules]
  dsimp only
  split
  · -- the rule for the pattern takes the request's action, the others stay
    intro r' hr'
    obtain ⟨r, hr, rfl⟩ := List.mem_map.mp hr'
    split
    · exact ⟨(hw r hr).pattern_decodes, givenAction_trimmed action⟩
    · exact hw r hr
  · intro r' hr'
    rcases List.mem_append.mp hr' with hr' | hr'
    · exact hw r' hr'
    · rw [List.mem_singleton] at hr'
      subst hr'
      exact ⟨⟨bytes, hp⟩, givenAction_trimmed action⟩

/-- A byte only counts a rule down or removes rules: what holds of every rule, whatever its
count, still does after it. -/
theorem forall_rules_check {P : ExpectRule → Prop} (hP : ∀ r n, P r → P { r with count := n })
    {e : Expectations} (h : ∀ r ∈ e.rules, P r) (b : UInt8) : ∀ r ∈ (e.check b).2.rules, P r := by
  unfold check
  split
  · exact h
  · cases e.select? b with
    | none => simpa [respond] using h
    | some i =>
      simp only [respond]
      split
      · simpa using h
      · rename_i r hr
        simp only [write_rules, wrapCursor_rules] at hr
        split
        · intro r' hr'
          rcases List.mem_or_eq_of_mem_set hr' with hr' | rfl
          · exact h r' (by simpa using hr')
          · exact hP r _ (h r (List.mem_of_getElem? hr))
        · split
          · simp [clearAll_eq_new, Expectations.new]
          · split
            · intro r' hr'
              exact h r' (List.mem_of_mem_eraseIdx (by simpa using hr'))
            · simpa using h

/-- Every rule of every state a line reaches is written as its request gave it. -/
theorem Reach.written {e : Expectations} {fed : List UInt8} (he : e.Reach fed) :
    ∀ r ∈ e.rules, r.Written := by
  induction he with
  | new line => exact fun r hr => absurd hr List.not_mem_nil
  | set _ _ _ _ _ _ hset ih =>
    obtain ⟨bytes, hv, rfl⟩ := set_eq_ok hset
    exact written_define ih (decode_of_validate hv) _ _ _ _
  | clear pattern _ ih =>
    intro r hr
    rw [Expectations.clear, releaseIfUnused_rules] at hr
    exact ih r (List.mem_filter.mp hr).1
  | clearAll _ _ => simp [clearAll_eq_new, Expectations.new]
  | check byte _ ih => exact forall_rules_check (fun _ _ hw => ⟨hw.1, hw.2⟩) ih byte

end Expectations

/-! ## Reading a rule's text back -/

namespace Command

/-- A rule's text, with what follows its pattern as one tail: the count in brackets if it is
positive, then a blank and the action if there is one. -/
theorem render_eq (r : ExpectRule) :
    r.render = "EXPECT" ++ (if r.switches.isEmpty then "" else " " ++ r.switches.render) ++ " " ++
      r.pattern ++ ((if r.count > 0 then " [" ++ toString r.count ++ "]" else "") ++
        (r.action.map (" " ++ ·)).getD "") := by
  cases ha : r.action <;>
    simp only [ExpectRule.render, ha, Option.map_some, Option.map_none, Option.getD_some,
      Option.getD_none, String.append_assoc]

/-- The tail of a rule's text after its count ends with no blank. -/
theorem last_action_text {r : ExpectRule} (hw : r.Written) :
    ∀ c ∈ ((r.action.map (" " ++ ·)).getD "").toList.getLast?, Text.isBlank c = false := by
  cases ha : r.action with
  | none => simp
  | some a =>
    intro c hc
    obtain ⟨hne, -, hlast⟩ := hw.action_trimmed a ha
    simp only [Option.map_some, Option.getD_some, String.toList_append, List.getLast?_append] at hc
    cases hl : a.toList.getLast? with
    | none =>
      have hnil : a.toList = [] := List.getLast?_eq_none_iff.mp hl
      exact absurd (String.toList_eq_nil_iff.mp hnil) hne
    | some x =>
      rw [hl, Option.some_or, Option.mem_def, Option.some.injEq] at hc
      subst hc
      exact hlast x hl

/-- A count in brackets followed by a text that ends with no blank is trimmed. -/
theorem trimmed_bracket (n : Nat) {t : String}
    (ht : ∀ c ∈ t.toList.getLast?, Text.isBlank c = false) :
    Text.Trimmed ("[" ++ toString n ++ "]" ++ t).toList := by
  have hchars : ("[" ++ toString n ++ "]" ++ t).toList =
      '[' :: ((toString n).toList ++ ']' :: t.toList) := by
    simp [String.toList_append]
  rw [hchars]
  constructor
  · intro c hc
    rw [List.head?_cons, Option.mem_def, Option.some.injEq] at hc
    subst hc
    decide
  · intro c hc
    rw [List.getLast?_cons, List.getLast?_append, List.getLast?_cons] at hc
    -- the last character is the action's, or the closing bracket when there is none
    cases hl : t.toList.getLast? with
    | none =>
      simp only [hl, Option.getD_none, Option.some_or, Option.getD_some, Option.mem_def,
        Option.some.injEq] at hc
      subst hc
      decide
    | some x =>
      simp only [hl, Option.getD_some, Option.some_or, Option.mem_def, Option.some.injEq] at hc
      subst hc
      exact ht x hl

/-- A rule's text read by the command grammar: its switches and pattern, no line and no delay,
and as the action what follows the pattern: the rule's action when it has no count, its count in
brackets followed by its action when it has one. -/
theorem parse_render {r : ExpectRule} (hw : r.Written) (hs : r.switches.Letters) :
    parse r.render = .ok (.expect r.switches none 0 0 r.pattern
      (if r.count = 0 then r.action
       else some ("[" ++ toString r.count ++ "]" ++ (r.action.map (" " ++ ·)).getD ""))) := by
  obtain ⟨d, hd⟩ := hw.pattern_decodes
  rw [render_eq, parse_expect_text hs hd]
  by_cases hc : r.count = 0
  · -- no count: a blank and the action, or nothing
    rw [if_neg (by omega), if_pos hc, String.empty_append]
    cases ha : r.action with
    | none => rw [Option.map_none, Option.getD_none, String.toList_empty, restText_nil]
    | some a =>
      obtain ⟨hne, ht⟩ := hw.action_trimmed a ha
      have hchars : (" " ++ a).toList = ' ' :: a.toList := by simp [String.toList_append]
      rw [Option.map_some, Option.getD_some, hchars, restText_blank_cons ht hne]
  · -- a count: the rest of the line starts at its opening bracket
    rw [if_pos (by omega), if_neg hc]
    have hchars : (" [" ++ toString r.count ++ "]" ++ (r.action.map (" " ++ ·)).getD "").toList =
        ' ' :: ("[" ++ toString r.count ++ "]" ++ (r.action.map (" " ++ ·)).getD "").toList := by
      simp [String.toList_append]
    have hne : "[" ++ toString r.count ++ "]" ++ (r.action.map (" " ++ ·)).getD "" ≠ "" := by
      intro h
      have hl := congrArg String.toList h
      simp [String.toList_append] at hl
    rw [hchars, restText_blank_cons (trimmed_bracket r.count (last_action_text hw)) hne]

end Command

/-! ## Every rule of a line -/

namespace Expectations

/-- Reading back the text SHOW EXPECT gives for a rule. For every rule of every state a line
reaches, whose switches are letters, the command grammar reads the rule's text as EXPECT with
the rule's switches and pattern, no line and no halt-after delay. A rule with no count reads
back whole: count 0 and the rule's action. A rule with a count `n` reads back with count 0,
since the text writes `[n]` after the pattern where the grammar takes everything as the
action: the action read is `[n]`, then a blank and the rule's action if it has one. -/
theorem rule_text_reads_back {e : Expectations} {fed : List UInt8} (he : e.Reach fed)
    {r : ExpectRule} (hr : r ∈ e.rules) (hs : r.switches.Letters) :
    (r.count = 0 →
      Command.parse r.render = .ok (.expect r.switches none r.count 0 r.pattern r.action)) ∧
    (0 < r.count →
      Command.parse r.render = .ok (.expect r.switches none 0 0 r.pattern
        (some ("[" ++ toString r.count ++ "]" ++ (r.action.map (" " ++ ·)).getD "")))) := by
  have hparse := Command.parse_render (he.written r hr) hs
  constructor
  · intro hc
    rw [hparse, if_pos hc, hc]
  · intro hc
    rw [hparse, if_neg (by omega)]

/-- A persistent rule with no count, whose action was given with blanks around it, reads back
with the trimmed action. -/
theorem rule_text_reads_back_of_login :
    let e := (new "CONSOLE").define "\"login:\"" [108, 111, 103, 105, 110, 58] 0 0 persistSwitch
      (some " echo hi ")
    let r : ExpectRule :=
      ⟨"\"login:\"", [108, 111, 103, 105, 110, 58], 0, persistSwitch, some "echo hi"⟩
    (new "CONSOLE").set "\"login:\"" 0 0 persistSwitch (some " echo hi ") = .ok e ∧ r ∈ e.rules ∧
      r.switches.Letters ∧
      Command.parse r.render = .ok (.expect persistSwitch none 0 0 "\"login:\"" (some "echo hi")) := by
  intro e r
  have hset : (new "CONSOLE").set "\"login:\"" 0 0 persistSwitch (some " echo hi ") = .ok e := by
    decide +kernel
  have hr : r ∈ e.rules := by decide +kernel
  have hs : r.switches.Letters := by
    unfold Switches.Letters
    decide
  exact ⟨hset, hr, hs, (rule_text_reads_back (.set _ _ _ _ _ (.new "CONSOLE") hset) hr hs).1 rfl⟩

/-- The rule with a count of 2 that SHOW EXPECT lists as `EXPECT -P "login:" [2] echo hi`
reads back with no count and the action `[2] echo hi`. -/
theorem rule_text_count_read_as_action :
    let e := (new "CONSOLE").define "\"login:\"" [108, 111, 103, 105, 110, 58] 2 0 persistSwitch
      (some "echo hi")
    let r : ExpectRule :=
      ⟨"\"login:\"", [108, 111, 103, 105, 110, 58], 2, persistSwitch, some "echo hi"⟩
    (new "CONSOLE").set "\"login:\"" 2 0 persistSwitch (some "echo hi") = .ok e ∧ r ∈ e.rules ∧
      r.render = "EXPECT -P \"login:\" [2] echo hi" ∧
      Command.parse r.render =
        .ok (.expect persistSwitch none 0 0 "\"login:\"" (some "[2] echo hi")) := by
  intro e r
  have hset : (new "CONSOLE").set "\"login:\"" 2 0 persistSwitch (some "echo hi") = .ok e := by
    decide +kernel
  have hr : r ∈ e.rules := by decide +kernel
  have hs : r.switches.Letters := by
    unfold Switches.Letters
    decide
  have hw := Reach.written (.set _ _ _ _ _ (.new "CONSOLE") hset) r hr
  refine ⟨hset, hr, by decide +kernel, ?_⟩
  rw [Command.parse_render hw hs]
  decide +kernel

end Expectations

end SimControl
