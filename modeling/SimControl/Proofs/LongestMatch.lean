import Mathlib
import SimControl.Proofs.LexemeTiling
/-!
# Each lexeme is the longest match

The lexer reads one lexeme at a time by the patterns of its token classes, the way a
longest-match lexer does: at each position the class whose pattern matches the most
characters wins, a key and value or a switch winning over a word of the same length
(`Kind.priority`); a match whose value does not fit in 32 bits is text that makes no token.
Where no pattern matches at all, the lexeme is the text that makes no token, and how far it
reaches is a rule of its own (`ErrorSpan`): after a quote, the longest run of complete steps
of a quoted body; after a bracket, the longest run that could still begin a count.

* `LongestMatch` and `ErrorSpan`: the premise and the error rule, for one lexeme.
* `scanAt_eq_iff`: the scan of one lexeme meets both, and is the only scan that does.
-/

namespace SimControl.Command

/-! ## The patterns -/

/-- The body of a quoted string opened by `q`, read as steps: a character that is neither `q`
nor a backslash, or a backslash and a character that is no line feed. -/
inductive QuotedBody (q : Char) : List Char → Prop
  | nil : QuotedBody q []
  | plain {c : Char} {cs : List Char} : c ≠ q → c ≠ '\\' → QuotedBody q cs →
      QuotedBody q (c :: cs)
  | escape {d : Char} {cs : List Char} : d ≠ '\n' → QuotedBody q cs →
      QuotedBody q ('\\' :: d :: cs)

/-- The classes of tokens, each read by a pattern of its own. -/
inductive Kind where
  | quoted
  | count
  | keyValue
  | switch
  | semicolon
  | comma
  | word
  deriving DecidableEq

/-- Which class wins when two match the same characters: a key and value or a switch over a
word. -/
def Kind.priority : Kind → Nat
  | .keyValue | .switch => 10
  | _ => 0

/-- The characters `cs` match the pattern of class `k`, which reads them as `r`: its token,
or nothing when the value it holds does not fit in 32 bits. -/
def Kind.Reads : Kind → List Char → Option Token → Prop
  | .quoted, cs, r => ∃ q body, (q = '"' ∨ q = '\'') ∧ QuotedBody q body ∧
      cs = q :: (body ++ [q]) ∧ r = some (.quoted (String.ofList cs))
  | .count, cs, r => ∃ pad ds pad', (∀ x ∈ pad ++ pad', isPad x = true) ∧ ds ≠ [] ∧
      (∀ d ∈ ds, isDigit d = true) ∧ cs = '[' :: (pad ++ ds ++ pad' ++ [']']) ∧
      r = if decimalValue ds < 4294967296 then some (.count (decimalValue ds)) else none
  | .keyValue, cs, r => ∃ key ds, key ≠ [] ∧ (∀ x ∈ key, isLetter x = true) ∧ ds ≠ [] ∧
      (∀ d ∈ ds, isDigit d = true) ∧ cs = key ++ '=' :: ds ∧
      r = if decimalValue ds < 4294967296 then
        some (.keyValue (String.ofList key) (decimalValue ds)) else none
  | .switch, cs, r => ∃ ls, ls ≠ [] ∧ (∀ x ∈ ls, isLetter x = true) ∧ cs = '-' :: ls ∧
      r = some (.switch (String.ofList cs))
  | .semicolon, cs, r => cs = [';'] ∧ r = some .semicolon
  | .comma, cs, r => cs = [','] ∧ r = some .comma
  | .word, cs, r => cs ≠ [] ∧ (∀ x ∈ cs, isWordChar x = true) ∧
      r = some (.word (String.ofList cs))

/-- Some pattern matches the first characters of `c :: cs`. -/
def HasMatch (c : Char) (cs : List Char) : Prop :=
  ∃ (k : Kind) (m : Nat) (r : Option Token), m ≤ cs.length ∧ k.Reads (c :: cs.take m) r

/-- The longest-match premise, for a scan that reads `c` and `f.2` characters after it and
finds `f.1`: a pattern matches those characters and reads them as `f.1`, no pattern that
matches them has a higher priority, and no pattern matches more characters. -/
structure LongestMatch (c : Char) (cs : List Char) (f : Found) : Prop where
  le_length : f.2 ≤ cs.length
  reads : ∃ k : Kind, k.Reads (c :: cs.take f.2) f.1 ∧
    ∀ (k' : Kind) (r : Option Token), k'.Reads (c :: cs.take f.2) r → k'.priority ≤ k.priority
  longest : ∀ (k : Kind) (m : Nat) (r : Option Token), f.2 < m → m ≤ cs.length →
    ¬k.Reads (c :: cs.take m) r

/-- What may follow the bracket that opens a count and still begin one: blanks or tabs, then
digits, then blanks or tabs, these last only after some digit. -/
def CountStart (p : List Char) : Prop :=
  ∃ pad ds pad', (∀ x ∈ pad ++ pad', isPad x = true) ∧ (∀ d ∈ ds, isDigit d = true) ∧
    (ds = [] → pad' = []) ∧ p = pad ++ ds ++ pad'

/-- The error rule, for a scan that reads `c` and `n` characters after it where no pattern
matches: after a quote, the longest run of complete steps of a quoted body; after a bracket,
the longest run that could still begin a count. -/
def ErrorSpan (c : Char) (cs : List Char) (n : Nat) : Prop :=
  n ≤ cs.length ∧
    ((c = '"' ∨ c = '\'') →
      QuotedBody c (cs.take n) ∧ ∀ m, n < m → m ≤ cs.length → ¬QuotedBody c (cs.take m)) ∧
    (c = '[' →
      CountStart (cs.take n) ∧ ∀ m, n < m → m ≤ cs.length → ¬CountStart (cs.take m))

/-! ## Characters -/

theorem isWordChar_of_ne {x : Char}
    (h : x ≠ ' ' ∧ x ≠ '\t' ∧ x ≠ '\r' ∧ x ≠ '\n' ∧ x ≠ '\x0c' ∧ x ≠ ';' ∧ x ≠ ',' ∧ x ≠ '"' ∧
      x ≠ '\'' ∧ x ≠ '[') : isWordChar x = true := by
  obtain ⟨h₁, h₂, h₃, h₄, h₅, h₆, h₇, h₈, h₉, h₁₀⟩ := h
  simp [isWordChar, isGap, h₁, h₂, h₃, h₄, h₅, h₆, h₇, h₈, h₉, h₁₀]

theorem isWordChar_of_isLetter {x : Char} (h : isLetter x = true) : isWordChar x = true :=
  isWordChar_of_ne (by
    refine ⟨?_, ?_, ?_, ?_, ?_, ?_, ?_, ?_, ?_, ?_⟩ <;> (rintro rfl; revert h; decide))

theorem isWordChar_of_isDigit {x : Char} (h : isDigit x = true) : isWordChar x = true :=
  isWordChar_of_ne (by
    refine ⟨?_, ?_, ?_, ?_, ?_, ?_, ?_, ?_, ?_, ?_⟩ <;> (rintro rfl; revert h; decide))

theorem isPad_eq_false_of_isDigit {x : Char} (h : isDigit x = true) : isPad x = false := by
  cases hp : isPad x
  · rfl
  · simp only [isPad, Bool.or_eq_true, decide_eq_true_eq] at hp
    rcases hp with rfl | rfl <;> revert h <;> decide

theorem isDigit_eq_false_of_isPad {x : Char} (h : isPad x = true) : isDigit x = false := by
  cases hd : isDigit x
  · rfl
  · rw [isPad_eq_false_of_isDigit hd] at h
    cases h

/-- The first `m` characters of a list, when they are `l`, are `l`, and the rest follows. -/
theorem split_of_take_eq {cs l : List Char} {m : Nat} (hm : m ≤ cs.length) (h : cs.take m = l) :
    m = l.length ∧ cs = l ++ cs.drop m :=
  ⟨by rw [← h, List.length_take_of_le hm], by rw [← h, List.take_append_drop]⟩

/-! ## What the first character tells -/

/-- Whether a match of a class may begin with a character. -/
def Kind.opens : Kind → Char → Bool
  | .quoted, c => c = '"' || c = '\''
  | .count, c => c = '['
  | .keyValue, c => isLetter c
  | .switch, c => c = '-'
  | .semicolon, c => c = ';'
  | .comma, c => c = ','
  | .word, c => isWordChar c

theorem Kind.Reads.opens {k : Kind} {c : Char} {rest : List Char} {r : Option Token}
    (h : k.Reads (c :: rest) r) : k.opens c = true := by
  cases k with
  | quoted =>
    obtain ⟨q, body, hq, -, he, -⟩ := h
    rw [List.cons.injEq] at he
    rw [he.1]
    simpa [Kind.opens] using hq
  | count =>
    obtain ⟨pad, ds, pad', -, -, -, he, -⟩ := h
    simp [Kind.opens, (List.cons.injEq _ _ _ _ ▸ he).1]
  | keyValue =>
    obtain ⟨key, ds, hk, hkl, -, -, he, -⟩ := h
    obtain ⟨x, key', rfl⟩ := List.exists_cons_of_ne_nil hk
    rw [List.cons_append, List.cons.injEq] at he
    rw [Kind.opens, he.1]
    exact hkl x List.mem_cons_self
  | switch =>
    obtain ⟨ls, -, -, he, -⟩ := h
    simp [Kind.opens, (List.cons.injEq _ _ _ _ ▸ he).1]
  | semicolon => simp [Kind.opens, (List.cons.injEq _ _ _ _ ▸ h.1).1]
  | comma => simp [Kind.opens, (List.cons.injEq _ _ _ _ ▸ h.1).1]
  | word => exact h.2.1 c List.mem_cons_self

/-- A key and value, a switch and a word are runs of word characters. -/
theorem Kind.Reads.all_isWordChar {k : Kind} {cs : List Char} {r : Option Token}
    (hk : k = .keyValue ∨ k = .switch ∨ k = .word) (h : k.Reads cs r) :
    ∀ x ∈ cs, isWordChar x = true := by
  rcases hk with rfl | rfl | rfl
  · obtain ⟨key, ds, -, hkl, -, hdd, rfl, -⟩ := h
    intro x hx
    rcases List.mem_append.mp hx with hx | hx
    · exact isWordChar_of_isLetter (hkl x hx)
    · rcases List.mem_cons.mp hx with rfl | hx
      · decide
      · exact isWordChar_of_isDigit (hdd x hx)
  · obtain ⟨ls, -, hll, rfl, -⟩ := h
    intro x hx
    rcases List.mem_cons.mp hx with rfl | hx
    · decide
    · exact isWordChar_of_isLetter (hll x hx)
  · exact h.2.1

/-- Only a run of word characters begins with a word character. -/
theorem Kind.eq_of_opens_wordChar {k : Kind} {c : Char} (hc : isWordChar c = true)
    (h : k.opens c = true) : k = .keyValue ∨ k = .switch ∨ k = .word := by
  cases k with
  | quoted =>
    simp only [Kind.opens, Bool.or_eq_true, decide_eq_true_eq] at h
    rcases h with rfl | rfl <;> cases hc
  | count =>
    simp only [Kind.opens, decide_eq_true_eq] at h
    subst h
    cases hc
  | semicolon =>
    simp only [Kind.opens, decide_eq_true_eq] at h
    subst h
    cases hc
  | comma =>
    simp only [Kind.opens, decide_eq_true_eq] at h
    subst h
    cases hc
  | keyValue => exact .inl rfl
  | switch => exact .inr (.inl rfl)
  | word => exact .inr (.inr rfl)

/-! ## Quoted strings -/

section Quoted

variable {q : Char}

/-- A body goes on from its first character: a plain character, or a backslash and the
character it takes. -/
theorem QuotedBody.cons_iff {c : Char} {cs : List Char} :
    QuotedBody q (c :: cs) ↔ (c ≠ q ∧ c ≠ '\\' ∧ QuotedBody q cs) ∨
      (c = '\\' ∧ ∃ d ds, cs = d :: ds ∧ d ≠ '\n' ∧ QuotedBody q ds) := by
  constructor
  · intro h
    cases h with
    | plain hq hb hrest => exact .inl ⟨hq, hb, hrest⟩
    | escape hd hrest => exact .inr ⟨rfl, _, _, rfl, hd, hrest⟩
  · rintro (⟨hq, hb, hrest⟩ | ⟨rfl, d, ds, rfl, hd, hrest⟩)
    · exact .plain hq hb hrest
    · exact .escape hd hrest

theorem quotedRun_plain {c : Char} (hq : c ≠ q) (hb : c ≠ '\\') (cs : List Char) :
    quotedRun q (c :: cs) = ((quotedRun q cs).1 + 1, (quotedRun q cs).2) := by
  rw [quotedRun.eq_def]
  simp only [if_neg hq, if_neg hb]

theorem quotedRun_escape (hq : q ≠ '\\') {d : Char} (hd : d ≠ '\n') (ds : List Char) :
    quotedRun q ('\\' :: d :: ds) = ((quotedRun q ds).1 + 2, (quotedRun q ds).2) := by
  rw [quotedRun.eq_def]
  simp only [if_neg (Ne.symm hq), if_neg hd, if_true]

/-- A body followed by its quote is read up to and with the quote. -/
theorem quotedRun_closing (hq : q ≠ '\\') {body : List Char} (hb : QuotedBody q body)
    (rest : List Char) : quotedRun q (body ++ q :: rest) = (body.length + 1, true) := by
  induction hb with
  | nil =>
    rw [List.nil_append, quotedRun.eq_def]
    simp
  | plain hcq hcb _ ih =>
    rw [List.cons_append, quotedRun_plain hcq hcb, ih, List.length_cons]
  | escape hd _ ih =>
    rw [List.cons_append, List.cons_append, quotedRun_escape hq hd, ih, List.length_cons,
      List.length_cons]

/-- A closed quoted string is a body and its quote. -/
theorem quotedRun_closed {cs : List Char} (h : (quotedRun q cs).2 = true) :
    ∃ body, QuotedBody q body ∧ cs.take (quotedRun q cs).1 = body ++ [q] := by
  fun_induction quotedRun q cs with
  | case1 => cases h
  | case2 ds => exact ⟨[], .nil, rfl⟩
  | case3 => cases h
  | case4 => cases h
  | case5 d ds hd n closed hrun hq ih =>
    rw [hrun] at ih
    obtain ⟨body, hb, htake⟩ := ih h
    exact ⟨'\\' :: d :: body, .escape hd hb, by simp [htake]⟩
  | case6 c cs hcq hcb n closed hrun ih =>
    rw [hrun] at ih
    obtain ⟨body, hb, htake⟩ := ih h
    exact ⟨c :: body, .plain hcq hcb hb, by simp [htake]⟩

/-- An open quoted string is read as far as its body goes in complete steps, and no further
prefix is a body. -/
theorem quotedRun_open {cs : List Char} (h : (quotedRun q cs).2 = false) :
    QuotedBody q (cs.take (quotedRun q cs).1) ∧
      ∀ m, (quotedRun q cs).1 < m → m ≤ cs.length → ¬QuotedBody q (cs.take m) := by
  fun_induction quotedRun q cs with
  | case1 => exact ⟨.nil, fun m hm hle => absurd hle (by simp; omega)⟩
  | case2 ds => cases h
  | case3 hq =>
    refine ⟨.nil, fun m hm hle hb => ?_⟩
    obtain rfl : m = 1 := by simp at hle; omega
    rcases QuotedBody.cons_iff.mp hb with ⟨-, hb', -⟩ | ⟨-, d, ds, he, -⟩
    · exact hb' rfl
    · cases he
  | case4 ds hq =>
    refine ⟨.nil, fun m hm hle hb => ?_⟩
    obtain ⟨m, rfl⟩ : ∃ m', m = m' + 1 := ⟨m - 1, by omega⟩
    rw [List.take_succ_cons] at hb
    rcases QuotedBody.cons_iff.mp hb with ⟨-, hb', -⟩ | ⟨-, d, ds', he, hd, -⟩
    · exact hb' rfl
    · cases m with
      | zero => cases he
      | succ m =>
        rw [List.take_succ_cons, List.cons.injEq] at he
        exact hd he.1.symm
  | case5 d ds hd n closed hrun hq ih =>
    rw [hrun] at ih
    obtain ⟨hbody, hmax⟩ := ih h
    refine ⟨by simpa using QuotedBody.escape hd hbody, fun m hm hle hb => ?_⟩
    -- a longer body would go on past the escape with a longer body of the rest
    obtain ⟨m, rfl⟩ : ∃ m', m = m' + 2 := ⟨m - 2, by simp at hm; omega⟩
    rw [List.take_succ_cons, List.take_succ_cons] at hb
    rcases QuotedBody.cons_iff.mp hb with ⟨-, hb', -⟩ | ⟨-, d', ds', he, -, hrest⟩
    · exact hb' rfl
    · rw [List.cons.injEq] at he
      rw [← he.2] at hrest
      exact hmax m (by simp at hm; omega) (by simp at hle; omega) hrest
  | case6 c cs hcq hcb n closed hrun ih =>
    rw [hrun] at ih
    obtain ⟨hbody, hmax⟩ := ih h
    refine ⟨by simpa using QuotedBody.plain hcq hcb hbody, fun m hm hle hb => ?_⟩
    obtain ⟨m, rfl⟩ : ∃ m', m = m' + 1 := ⟨m - 1, by simp at hm; omega⟩
    rw [List.take_succ_cons] at hb
    rcases QuotedBody.cons_iff.mp hb with ⟨-, -, hrest⟩ | ⟨hc, -⟩
    · exact hmax m (by simp at hm; omega) (by simp at hle; omega) hrest
    · exact hcb hc

end Quoted

/-! ## Counts -/

section Count

/-- A run that passes a test is no longer than the run of the test at the front. -/
theorem length_le_takeWhile {p : Char → Bool} {l₁ : List Char} (h : ∀ x ∈ l₁, p x = true)
    (l₂ : List Char) : l₁.length ≤ ((l₁ ++ l₂).takeWhile p).length := by
  rw [List.takeWhile_append_of_pos h, List.length_append]
  omega

theorem takeWhile_append_cons_of_neg {p : Char → Bool} {l₁ : List Char} {x : Char}
    (h : ∀ y ∈ l₁, p y = true) (hx : p x = false) (l₂ : List Char) :
    (l₁ ++ x :: l₂).takeWhile p = l₁ := by
  rw [List.takeWhile_append_of_pos h, List.takeWhile_cons_of_neg (by simp [hx]), List.append_nil]

theorem dropWhile_append_cons_of_neg {p : Char → Bool} {l₁ : List Char} {x : Char}
    (h : ∀ y ∈ l₁, p y = true) (hx : p x = false) (l₂ : List Char) :
    (l₁ ++ x :: l₂).dropWhile p = x :: l₂ := by
  rw [List.dropWhile_append_of_pos h, List.dropWhile_cons_of_neg (by simp [hx])]

/-- After the blanks or tabs that close a count, no digit. -/
theorem takeWhile_isDigit_pad {pad' : List Char} (h : ∀ x ∈ pad', isPad x = true)
    (rest : List Char) : (pad' ++ ']' :: rest).takeWhile isDigit = [] ∧
      (pad' ++ ']' :: rest).dropWhile isDigit = pad' ++ ']' :: rest := by
  cases pad' with
  | nil => exact ⟨List.takeWhile_cons_of_neg (by decide), List.dropWhile_cons_of_neg (by decide)⟩
  | cons x xs =>
    have hx : isDigit x = false := isDigit_eq_false_of_isPad (h x List.mem_cons_self)
    exact ⟨List.takeWhile_cons_of_neg (by simp [hx]), List.dropWhile_cons_of_neg (by simp [hx])⟩

/-- A count is read up to its closing bracket, whatever its value. -/
theorem countRun_of_reads {cs : List Char} {m : Nat} {r : Option Token} (hm : m ≤ cs.length)
    (h : Kind.count.Reads ('[' :: cs.take m) r) : countRun cs = (r, m) := by
  obtain ⟨pad, ds, pad', hpads, hne, hds, he, rfl⟩ := h
  rw [List.cons.injEq] at he
  obtain ⟨hlen, hcs⟩ := split_of_take_eq hm he.2
  simp only [List.length_append, List.length_singleton] at hlen
  simp only [List.append_assoc, List.singleton_append] at hcs
  generalize cs.drop m = rest at hcs
  subst hcs hlen
  have hpad : ∀ x ∈ pad, isPad x = true := fun x hx => hpads x (List.mem_append_left _ hx)
  have hpad' : ∀ x ∈ pad', isPad x = true := fun x hx => hpads x (List.mem_append_right _ hx)
  obtain ⟨d, ds₀, hds₀⟩ := List.exists_cons_of_ne_nil hne
  have hd : isPad d = false := isPad_eq_false_of_isDigit (hds d (hds₀ ▸ List.mem_cons_self))
  have hbr : isPad ']' = false := by decide
  -- each step of the scan takes one part of the count
  have h₁ : (pad ++ (ds ++ (pad' ++ ']' :: rest))).takeWhile isPad = pad := by
    rw [hds₀, List.cons_append, takeWhile_append_cons_of_neg hpad hd]
  have h₂ : (pad ++ (ds ++ (pad' ++ ']' :: rest))).dropWhile isPad = ds ++ (pad' ++ ']' :: rest) := by
    rw [hds₀, List.cons_append, dropWhile_append_cons_of_neg hpad hd]
  obtain ⟨h₃, h₄⟩ := takeWhile_isDigit_pad hpad' rest
  have h₅ : (ds ++ (pad' ++ ']' :: rest)).takeWhile isDigit = ds := by
    rw [List.takeWhile_append_of_pos hds, h₃, List.append_nil]
  have h₆ : (ds ++ (pad' ++ ']' :: rest)).dropWhile isDigit = pad' ++ ']' :: rest := by
    rw [List.dropWhile_append_of_pos hds, h₄]
  have hempty : ds.isEmpty = false := List.isEmpty_eq_false_iff.mpr hne
  unfold countRun
  dsimp only
  rw [h₁, h₂, h₅, h₆, takeWhile_append_cons_of_neg hpad' hbr,
    dropWhile_append_cons_of_neg hpad' hbr, hempty]
  rfl

/-- The scan reads at least the blanks or tabs at the front and, once digits follow them,
the digits and the blanks or tabs after them. -/
theorem countRun_snd_ge (cs : List Char) :
    (cs.takeWhile isPad).length ≤ (countRun cs).2 ∧
      ((cs.dropWhile isPad).takeWhile isDigit ≠ [] →
        (cs.takeWhile isPad).length + ((cs.dropWhile isPad).takeWhile isDigit).length +
          (((cs.dropWhile isPad).dropWhile isDigit).takeWhile isPad).length ≤ (countRun cs).2) := by
  unfold countRun
  dsimp only
  split
  · next hempty => exact ⟨le_refl _, fun hne => absurd (List.isEmpty_iff.mp hempty) hne⟩
  · split <;> exact ⟨by omega, fun _ => by omega⟩

/-- Nothing that could still begin a count reaches past where the scan stops. -/
theorem le_countRun_of_countStart {cs : List Char} {m : Nat} (hm : m ≤ cs.length)
    (h : CountStart (cs.take m)) : m ≤ (countRun cs).2 := by
  obtain ⟨pad, ds, pad', hpads, hds, hnil, he⟩ := h
  have hpad : ∀ x ∈ pad, isPad x = true := fun x hx => hpads x (List.mem_append_left _ hx)
  have hpad' : ∀ x ∈ pad', isPad x = true := fun x hx => hpads x (List.mem_append_right _ hx)
  obtain ⟨hlen, hcs⟩ := split_of_take_eq hm he
  simp only [List.length_append] at hlen
  simp only [List.append_assoc] at hcs
  generalize cs.drop m = rest at hcs
  subst hcs hlen
  obtain ⟨hge₁, hge₂⟩ := countRun_snd_ge (pad ++ (ds ++ (pad' ++ rest)))
  cases ds with
  | nil =>
    -- blanks or tabs alone: the scan reads all of them
    obtain rfl := hnil rfl
    have := length_le_takeWhile hpad ([] ++ ([] ++ rest))
    simp only [List.length_nil, Nat.add_zero]
    omega
  | cons d ds₀ =>
    have hd : isPad d = false := isPad_eq_false_of_isDigit (hds d List.mem_cons_self)
    have h₁ : (pad ++ (d :: ds₀ ++ (pad' ++ rest))).takeWhile isPad = pad := by
      rw [List.cons_append, takeWhile_append_cons_of_neg hpad hd]
    have h₂ : (pad ++ (d :: ds₀ ++ (pad' ++ rest))).dropWhile isPad =
        d :: ds₀ ++ (pad' ++ rest) := by
      rw [List.cons_append, dropWhile_append_cons_of_neg hpad hd]
    rw [h₁, h₂] at hge₂
    have hdig := length_le_takeWhile hds (pad' ++ rest)
    have hge := hge₂ (fun h0 => by rw [h0] at hdig; simp at hdig)
    cases pad' with
    | nil =>
      simp only [List.length_nil, Nat.add_zero] at hge ⊢
      omega
    | cons x xs =>
      -- digits then blanks or tabs: the scan reads all of both
      have hx : isDigit x = false := isDigit_eq_false_of_isPad (hpad' x List.mem_cons_self)
      have h₃ : (d :: ds₀ ++ (x :: xs ++ rest)).takeWhile isDigit = d :: ds₀ :=
        takeWhile_append_cons_of_neg hds hx (xs ++ rest)
      have h₄ : (d :: ds₀ ++ (x :: xs ++ rest)).dropWhile isDigit = x :: xs ++ rest :=
        dropWhile_append_cons_of_neg hds hx (xs ++ rest)
      rw [h₃, h₄] at hge
      have hp' := length_le_takeWhile hpad' rest
      omega

/-- Where no count closes, the scan finds nothing and reads what could still begin one. -/
theorem countRun_open {cs : List Char}
    (h : ∀ m r, m ≤ cs.length → ¬Kind.count.Reads ('[' :: cs.take m) r) :
    (countRun cs).1 = none ∧ CountStart (cs.take (countRun cs).2) := by
  have hpad : ∀ c ∈ cs.takeWhile isPad, isPad c = true := fun _ hc => List.mem_takeWhile_imp hc
  have hds : ∀ d ∈ (cs.dropWhile isPad).takeWhile isDigit, isDigit d = true :=
    fun _ hd => List.mem_takeWhile_imp hd
  have hpad' : ∀ c ∈ ((cs.dropWhile isPad).dropWhile isDigit).takeWhile isPad, isPad c = true :=
    fun _ hc => List.mem_takeWhile_imp hc
  have hsplit : cs = cs.takeWhile isPad ++ ((cs.dropWhile isPad).takeWhile isDigit ++
      (((cs.dropWhile isPad).dropWhile isDigit).takeWhile isPad ++
        ((cs.dropWhile isPad).dropWhile isDigit).dropWhile isPad)) := by
    simp only [List.takeWhile_append_dropWhile]
  unfold countRun
  dsimp only
  generalize cs.takeWhile isPad = pad at hpad hsplit ⊢
  generalize (cs.dropWhile isPad).takeWhile isDigit = ds at hds hsplit ⊢
  generalize ((cs.dropWhile isPad).dropWhile isDigit).takeWhile isPad = pad' at hpad' hsplit ⊢
  generalize ((cs.dropWhile isPad).dropWhile isDigit).dropWhile isPad = rest at hsplit ⊢
  subst hsplit
  have hpads : ∀ x ∈ pad ++ pad', isPad x = true := by
    intro x hx
    rcases List.mem_append.mp hx with hx | hx
    · exact hpad x hx
    · exact hpad' x hx
  cases hempty : ds.isEmpty with
  | true =>
    obtain rfl := List.isEmpty_iff.mp hempty
    refine ⟨rfl, pad, [], [], by simpa using hpad, by simp, fun _ => rfl, ?_⟩
    simp
  | false =>
    simp only [Bool.false_eq_true, if_false]
    split
    · -- a closing bracket would close a count
      next tail =>
      exfalso
      have htake : (pad ++ (ds ++ (pad' ++ ']' :: tail))).take
          (pad.length + ds.length + pad'.length + 1) = pad ++ ds ++ pad' ++ [']'] := by
        rw [show pad ++ (ds ++ (pad' ++ ']' :: tail)) = (pad ++ ds ++ pad' ++ [']']) ++ tail by simp]
        exact List.take_left' (by simp [Nat.add_assoc])
      refine h (pad.length + ds.length + pad'.length + 1) _ (by simp; omega)
        ⟨pad, ds, pad', hpads, List.isEmpty_eq_false_iff.mp hempty, hds, by rw [htake], rfl⟩
    · refine ⟨rfl, pad, ds, pad', hpads, hds, fun hnil => absurd hnil
        (List.isEmpty_eq_false_iff.mp hempty), ?_⟩
      rw [show pad ++ (ds ++ (pad' ++ rest)) = (pad ++ ds ++ pad') ++ rest by simp]
      exact List.take_left' (by simp [Nat.add_assoc])

end Count

/-! ## Runs of word characters -/

theorem Kind.priority_le (k : Kind) : k.priority ≤ 10 := by
  cases k <;> decide

/-- A run at least as long as `m` passes a test at its front. -/
theorem le_length_takeWhile_of_take {p : Char → Bool} {cs : List Char} {m : Nat}
    (hm : m ≤ cs.length) (h : ∀ x ∈ cs.take m, p x = true) : m ≤ (cs.takeWhile p).length := by
  have hle := length_le_takeWhile h (cs.drop m)
  rwa [List.take_append_drop, List.length_take_of_le hm] at hle

theorem isSwitchText_of_reads {cs : List Char} {r : Option Token} (h : Kind.switch.Reads cs r) :
    isSwitchText cs = true := by
  obtain ⟨ls, hne, hll, rfl, -⟩ := h
  obtain ⟨x, xs, rfl⟩ := List.exists_cons_of_ne_nil hne
  simpa [isSwitchText, List.all_eq_true] using hll

/-- A key and value splits as the test for one splits it, and reads the value it finds. -/
theorem keyValueParts_of_reads {cs : List Char} {r : Option Token} (h : Kind.keyValue.Reads cs r) :
    ∃ key ds, keyValueParts cs = some (key, ds) ∧
      r = if decimalValue ds < 4294967296 then
        some (.keyValue (String.ofList key) (decimalValue ds)) else none := by
  obtain ⟨key, ds, hk, hkl, hds, hdd, rfl, rfl⟩ := h
  refine ⟨key, ds, ?_, rfl⟩
  have heq : isLetter '=' = false := by decide
  unfold keyValueParts
  rw [takeWhile_append_cons_of_neg hkl heq, dropWhile_append_cons_of_neg hkl heq]
  simp [List.isEmpty_eq_false_iff.mpr hk, List.isEmpty_eq_false_iff.mpr hds,
    List.all_eq_true.mpr hdd]

/-- A run that is a switch is no key and value: one begins with a minus sign, the other with
a letter. -/
theorem not_keyValue_of_isSwitchText {cs : List Char} (hs : isSwitchText cs = true)
    {r : Option Token} : ¬Kind.keyValue.Reads cs r := by
  unfold isSwitchText at hs
  split at hs
  · exact fun h => absurd h.opens (by decide)
  · cases hs

/-- The token a run of word characters makes is what the class of highest priority among
those that match the whole run reads: a switch or a key and value where one matches, a word
otherwise. -/
theorem classifyWord_top {run : List Char} (hne : run ≠ [])
    (hw : ∀ x ∈ run, isWordChar x = true) :
    ∃ k : Kind, k.Reads run (classifyWord run) ∧
      ∀ (k' : Kind) (r : Option Token), k'.Reads run r → k'.priority ≤ k.priority := by
  unfold classifyWord
  split_ifs with hs
  · refine ⟨.switch, ?_, fun k' _ _ => k'.priority_le⟩
    unfold isSwitchText at hs
    split at hs
    · next x xs =>
      exact ⟨x :: xs, List.cons_ne_nil _ _, by simpa [List.all_eq_true] using hs, rfl, rfl⟩
    · cases hs
  · cases hkv : keyValueParts run with
    | some parts =>
      obtain ⟨key, ds⟩ := parts
      obtain ⟨hk, hkl, hds, hdd, hrun⟩ := keyValueParts_eq_some hkv
      exact ⟨.keyValue, ⟨key, ds, hk, hkl, hds, hdd, hrun, rfl⟩, fun k' _ _ => k'.priority_le⟩
    | none =>
      refine ⟨.word, ⟨hne, hw, rfl⟩, fun k' r hk' => ?_⟩
      obtain ⟨x, xs, rfl⟩ := List.exists_cons_of_ne_nil hne
      rcases Kind.eq_of_opens_wordChar (hw x List.mem_cons_self) hk'.opens with rfl | rfl | rfl
      · obtain ⟨key, ds, hkv', -⟩ := keyValueParts_of_reads hk'
        rw [hkv] at hkv'
        cases hkv'
      · exact absurd (isSwitchText_of_reads hk') hs
      · exact le_refl _

/-- Any class of highest priority that matches a run of word characters reads it as
`classifyWord` does. -/
theorem eq_classifyWord {run : List Char} (hne : run ≠ []) (hw : ∀ x ∈ run, isWordChar x = true)
    {k : Kind} {r : Option Token} (hk : k.Reads run r)
    (htop : ∀ (k' : Kind) (r' : Option Token), k'.Reads run r' → k'.priority ≤ k.priority) :
    r = classifyWord run := by
  obtain ⟨x, xs, rfl⟩ := List.exists_cons_of_ne_nil hne
  rcases Kind.eq_of_opens_wordChar (hw x List.mem_cons_self) hk.opens with rfl | rfl | rfl
  · -- a key and value is no switch, and splits as the test splits it
    obtain ⟨key, ds, hkv, rfl⟩ := keyValueParts_of_reads hk
    have hs : isSwitchText (x :: xs) = false := by
      cases h : isSwitchText (x :: xs)
      · rfl
      · exact absurd hk (not_keyValue_of_isSwitchText h)
    simp only [classifyWord, hs, hkv, Bool.false_eq_true, if_false]
  · have hs := isSwitchText_of_reads hk
    obtain ⟨ls, -, -, -, rfl⟩ := hk
    simp only [classifyWord, hs, if_true]
  · -- a word has the lowest priority, so the class `classifyWord` follows is a word too
    obtain ⟨k₀, hk₀, htop₀⟩ := classifyWord_top hne hw
    have h0 : k₀.priority ≤ 0 := htop k₀ _ hk₀
    rcases Kind.eq_of_opens_wordChar (hw x List.mem_cons_self) hk₀.opens with rfl | rfl | rfl
    · exact absurd h0 (by decide)
    · exact absurd h0 (by decide)
    · rw [hk.2.2, hk₀.2.2]

/-! ## One lexeme -/

/-- A semicolon, a comma, a bracket and a quote each open one class only. -/
theorem Kind.eq_of_opens {k : Kind} {c : Char} (h : k.opens c = true) :
    (c = ';' → k = .semicolon) ∧ (c = ',' → k = .comma) ∧ (c = '[' → k = .count) ∧
      ((c = '"' ∨ c = '\'') → k = .quoted) := by
  refine ⟨?_, ?_, ?_, ?_⟩
  · rintro rfl
    cases k <;> first | rfl | (revert h; decide)
  · rintro rfl
    cases k <;> first | rfl | (revert h; decide)
  · rintro rfl
    cases k <;> first | rfl | (revert h; decide)
  · rintro (rfl | rfl) <;> cases k <;> first | rfl | (revert h; decide)

/-- Two lengths that are each the longest with a property of their prefixes are one. -/
theorem eq_of_longest {P : List Char → Prop} {cs : List Char} {n n' : Nat} (hn : n ≤ cs.length)
    (hn' : n' ≤ cs.length) (h : P (cs.take n))
    (hmax : ∀ m, n < m → m ≤ cs.length → ¬P (cs.take m))
    (h' : P (cs.take n')) (hmax' : ∀ m, n' < m → m ≤ cs.length → ¬P (cs.take m)) : n = n' := by
  by_contra hne
  rcases Nat.lt_or_gt_of_ne hne with hlt | hlt
  · exact hmax n' hlt hn' h'
  · exact hmax' n hlt hn h

/-- Two longest matches read as far. -/
theorem LongestMatch.snd_eq {c : Char} {cs : List Char} {f g : Found} (hf : LongestMatch c cs f)
    (hg : LongestMatch c cs g) : f.2 = g.2 := by
  obtain ⟨kf, hkf, -⟩ := hf.reads
  obtain ⟨kg, hkg, -⟩ := hg.reads
  by_contra hne
  rcases Nat.lt_or_gt_of_ne hne with hlt | hlt
  · exact hf.longest kg g.2 g.1 hlt hg.le_length hkg
  · exact hg.longest kf f.2 f.1 hlt hf.le_length hkf

/-- A character that opens one class alone, whose matches are that character alone, is the
longest match, and the only one. -/
theorem longestMatch_single {c : Char} {k₀ : Kind} {t : Token}
    (hk : ∀ k : Kind, k.opens c = true → k = k₀)
    (hr : ∀ rest r, k₀.Reads (c :: rest) r → rest = [] ∧ r = some t)
    (h₀ : k₀.Reads [c] (some t))
    (cs : List Char) : LongestMatch c cs (some t, 0) ∧
      ∀ f, LongestMatch c cs f → f = (some t, 0) := by
  have hone : ∀ m r, m ≤ cs.length → k₀.Reads (c :: cs.take m) r → m = 0 ∧ r = some t := by
    intro m r hm h
    obtain ⟨hnil, rfl⟩ := hr _ _ h
    exact ⟨(split_of_take_eq hm hnil).1, rfl⟩
  refine ⟨⟨Nat.zero_le _, ⟨k₀, h₀, fun k' r h => by rw [hk k' h.opens]⟩, ?_⟩, ?_⟩
  · intro k m r hlt hm h
    rw [hk k h.opens] at h
    exact absurd (hone m r hm h).1 (by omega)
  · intro f hf
    obtain ⟨k, hk', -⟩ := hf.reads
    rw [hk k hk'.opens] at hk'
    obtain ⟨h2, h1⟩ := hone f.2 f.1 hf.le_length hk'
    exact Prod.ext h1 h2

/-- A quoted string that closes is read up to its closing quote. -/
theorem quotedRun_of_reads {c : Char} {cs : List Char} {m : Nat} {r : Option Token}
    (hq : c = '"' ∨ c = '\'') (hm : m ≤ cs.length) (h : Kind.quoted.Reads (c :: cs.take m) r) :
    quotedRun c cs = (m, true) ∧ r = some (.quoted (String.ofList (c :: cs.take m))) := by
  obtain ⟨q, body, -, hb, he, rfl⟩ := h
  rw [List.cons.injEq] at he
  obtain ⟨rfl, htake⟩ := he
  obtain ⟨hlen, hcs⟩ := split_of_take_eq hm htake
  simp only [List.length_append, List.length_singleton] at hlen
  simp only [List.append_assoc, List.singleton_append] at hcs
  have hqb : c ≠ '\\' := by rcases hq with rfl | rfl <;> decide
  refine ⟨?_, rfl⟩
  rw [hcs, quotedRun_closing hqb hb, hlen]

/-- A character that opens no quoted string, count, semicolon or comma, and is no blank, is a
word character. -/
theorem isWordChar_of_not_open {c : Char} (hc : isGap c = false) (hs : c ≠ ';') (hm : c ≠ ',')
    (hq : ¬(c = '"' ∨ c = '\'')) (hb : c ≠ '[') : isWordChar c = true := by
  obtain ⟨hq₁, hq₂⟩ := not_or.mp hq
  simp [isWordChar, hc, hs, hm, hq₁, hq₂, hb]

/-- A character that no class but a word, a semicolon or a comma opens always begins a match. -/
theorem hasMatch_of_not_open {c : Char} (cs : List Char) (hc : isGap c = false)
    (hq : ¬(c = '"' ∨ c = '\'')) (hb : c ≠ '[') : HasMatch c cs := by
  by_cases hs : c = ';'
  · exact ⟨.semicolon, 0, some .semicolon, Nat.zero_le _, by simp [Kind.Reads, hs]⟩
  by_cases hm : c = ','
  · exact ⟨.comma, 0, some .comma, Nat.zero_le _, by simp [Kind.Reads, hm]⟩
  refine ⟨.word, 0, some (.word (String.ofList [c])), Nat.zero_le _, List.cons_ne_nil _ _, ?_, rfl⟩
  simp [isWordChar_of_not_open hc hs hm hq hb]

/-- A run of word characters is read as far as it goes, as the class of highest priority
that matches it all reads it. -/
theorem longestMatch_word {c : Char} (cs : List Char) (hw : isWordChar c = true) :
    LongestMatch c cs (classifyWord (c :: cs.take (cs.takeWhile isWordChar).length),
      (cs.takeWhile isWordChar).length) := by
  have htake : cs.take (cs.takeWhile isWordChar).length = cs.takeWhile isWordChar :=
    (List.prefix_iff_eq_take.mp (List.takeWhile_prefix isWordChar)).symm
  have hall : ∀ x ∈ c :: cs.take (cs.takeWhile isWordChar).length, isWordChar x = true := by
    rw [htake]
    intro x hx
    rcases List.mem_cons.mp hx with rfl | hx
    · exact hw
    · exact List.mem_takeWhile_imp hx
  refine ⟨(List.takeWhile_prefix isWordChar).length_le, classifyWord_top (List.cons_ne_nil _ _) hall,
    fun k m r hlt hm h => ?_⟩
  -- a longer match would be a longer run of word characters
  have hk := Kind.eq_of_opens_wordChar hw h.opens
  have hrun : ∀ x ∈ cs.take m, isWordChar x = true :=
    fun x hx => h.all_isWordChar hk x (List.mem_cons_of_mem _ hx)
  exact absurd (le_length_takeWhile_of_take hm hrun) (by omega)

/-- Where some pattern matches, the scan of one lexeme is the longest match. -/
theorem scanAt_longestMatch {c : Char} {cs : List Char} (hc : isGap c = false)
    (hm : HasMatch c cs) : LongestMatch c cs (scanAt c cs) := by
  obtain ⟨k, m, r, hle, hk⟩ := hm
  unfold scanAt
  split_ifs with hsemi hcomma hquote hbracket
  · subst hsemi
    exact (longestMatch_single (fun k h => (Kind.eq_of_opens h).1 rfl)
      (fun rest r h => ⟨(List.cons.inj h.1).2, h.2⟩) ⟨rfl, rfl⟩ cs).1
  · subst hcomma
    exact (longestMatch_single (fun k h => (Kind.eq_of_opens h).2.1 rfl)
      (fun rest r h => ⟨(List.cons.inj h.1).2, h.2⟩) ⟨rfl, rfl⟩ cs).1
  · -- a quoted string that closes, at the one length where it does
    rw [(Kind.eq_of_opens hk.opens).2.2.2 hquote] at hk
    obtain ⟨hrun, rfl⟩ := quotedRun_of_reads hquote hle hk
    rw [hrun]
    dsimp only
    refine ⟨hle, ⟨.quoted, hk, fun k' r' h' => by rw [(Kind.eq_of_opens h'.opens).2.2.2 hquote]⟩,
      fun k' m' r' hlt hm' h' => ?_⟩
    rw [(Kind.eq_of_opens h'.opens).2.2.2 hquote] at h'
    rw [(quotedRun_of_reads hquote hm' h').1] at hrun
    cases hrun
    omega
  · -- a count, at the one length where it closes
    subst hbracket
    rw [(Kind.eq_of_opens hk.opens).2.2.1 rfl] at hk
    rw [countRun_of_reads hle hk]
    refine ⟨hle, ⟨.count, hk, fun k' r' h' => by rw [(Kind.eq_of_opens h'.opens).2.2.1 rfl]⟩,
      fun k' m' r' hlt hm' h' => ?_⟩
    rw [(Kind.eq_of_opens h'.opens).2.2.1 rfl] at h'
    have := (countRun_of_reads hle hk).symm.trans (countRun_of_reads hm' h')
    cases this
    omega
  · exact longestMatch_word cs (isWordChar_of_not_open hc hsemi hcomma hquote hbracket)

/-- A longest match finds what the scan finds, and reads as far. -/
theorem LongestMatch.eq_scanAt {c : Char} {cs : List Char} {f : Found} (hc : isGap c = false)
    (hf : LongestMatch c cs f) : f = scanAt c cs := by
  obtain ⟨k, hk, htop⟩ := hf.reads
  unfold scanAt
  split_ifs with hsemi hcomma hquote hbracket
  · subst hsemi
    exact (longestMatch_single (fun k h => (Kind.eq_of_opens h).1 rfl)
      (fun rest r h => ⟨(List.cons.inj h.1).2, h.2⟩) ⟨rfl, rfl⟩ cs).2 f hf
  · subst hcomma
    exact (longestMatch_single (fun k h => (Kind.eq_of_opens h).2.1 rfl)
      (fun rest r h => ⟨(List.cons.inj h.1).2, h.2⟩) ⟨rfl, rfl⟩ cs).2 f hf
  · rw [(Kind.eq_of_opens hk.opens).2.2.2 hquote] at hk
    obtain ⟨hrun, hr⟩ := quotedRun_of_reads hquote hf.le_length hk
    rw [hrun]
    exact Prod.ext hr rfl
  · subst hbracket
    rw [(Kind.eq_of_opens hk.opens).2.2.1 rfl] at hk
    rw [countRun_of_reads hf.le_length hk]
  · have hw := isWordChar_of_not_open hc hsemi hcomma hquote hbracket
    -- as far as the run of word characters, and read as the class of highest priority reads it
    have hword := longestMatch_word cs hw
    have h2 : f.2 = (cs.takeWhile isWordChar).length := hf.snd_eq hword
    have hall : ∀ x ∈ c :: cs.take f.2, isWordChar x = true :=
      hk.all_isWordChar (Kind.eq_of_opens_wordChar hw hk.opens)
    rw [← h2]
    exact Prod.ext (eq_classifyWord (List.cons_ne_nil _ _) hall hk htop) rfl

/-- Where no pattern matches, the scan finds nothing and reads as far as the error rule says. -/
theorem scanAt_errorSpan {c : Char} {cs : List Char} (hc : isGap c = false)
    (hm : ¬HasMatch c cs) : (scanAt c cs).1 = none ∧ ErrorSpan c cs (scanAt c cs).2 := by
  unfold scanAt
  split_ifs with hsemi hcomma hquote hbracket
  · exact absurd (hasMatch_of_not_open cs hc (by rw [hsemi]; decide) (by rw [hsemi]; decide)) hm
  · exact absurd (hasMatch_of_not_open cs hc (by rw [hcomma]; decide) (by rw [hcomma]; decide)) hm
  · -- the quoted string does not close
    have hopen : (quotedRun c cs).2 = false := by
      cases hclosed : (quotedRun c cs).2
      · rfl
      · obtain ⟨body, hb, htake⟩ := quotedRun_closed hclosed
        exact absurd ⟨.quoted, _, _, quotedRun_le c cs,
          ⟨c, body, hquote, hb, by rw [htake], rfl⟩⟩ hm
    have hnb : c ≠ '[' := by rcases hquote with rfl | rfl <;> decide
    rcases hrun : quotedRun c cs with ⟨n, closed⟩
    rw [hrun] at hopen
    subst hopen
    have hle := quotedRun_le c cs
    have hspan := @quotedRun_open c cs
    rw [hrun] at hle hspan
    exact ⟨rfl, hle, fun _ => hspan rfl, fun hb => absurd hb hnb⟩
  · subst hbracket
    have hnone : ∀ m r, m ≤ cs.length → ¬Kind.count.Reads ('[' :: cs.take m) r :=
      fun m r hle h => hm ⟨.count, m, r, hle, h⟩
    obtain ⟨hfound, hstart⟩ := countRun_open hnone
    refine ⟨hfound, (countRun_spells cs).1, fun hq => absurd hq (by decide),
      fun _ => ⟨hstart, fun m hlt hle hs => ?_⟩⟩
    exact absurd (le_countRun_of_countStart hle hs) (by omega)
  · exact absurd (hasMatch_of_not_open cs hc hquote hbracket) hm

/-- Where no pattern matches, the error rule reads as far as the scan. -/
theorem ErrorSpan.eq_scanAt {c : Char} {cs : List Char} {n : Nat} (hc : isGap c = false)
    (hm : ¬HasMatch c cs) (h : ErrorSpan c cs n) : n = (scanAt c cs).2 := by
  obtain ⟨-, hs⟩ := scanAt_errorSpan hc hm
  by_cases hq : c = '"' ∨ c = '\''
  · obtain ⟨hb, hmax⟩ := h.2.1 hq
    obtain ⟨hb', hmax'⟩ := hs.2.1 hq
    exact eq_of_longest h.1 hs.1 hb hmax hb' hmax'
  by_cases hbr : c = '['
  · obtain ⟨hb, hmax⟩ := h.2.2 hbr
    obtain ⟨hb', hmax'⟩ := hs.2.2 hbr
    exact eq_of_longest h.1 hs.1 hb hmax hb' hmax'
  exact absurd (hasMatch_of_not_open cs hc hq hbr) hm

/-- The scan of one lexeme is the longest match where some pattern matches, and follows the
error rule where none does; and it is the only scan that does both. So a lexer that takes the
longest match with these priorities, and reads text that makes no token by these rules,
reads every lexeme as this one does. -/
theorem scanAt_eq_iff {c : Char} {cs : List Char} (hc : isGap c = false) (f : Found) :
    f = scanAt c cs ↔ (HasMatch c cs → LongestMatch c cs f) ∧
      (¬HasMatch c cs → f.1 = none ∧ ErrorSpan c cs f.2) := by
  by_cases hm : HasMatch c cs
  · refine ⟨fun h => ⟨fun _ => h ▸ scanAt_longestMatch hc hm, fun hn => absurd hm hn⟩,
      fun h => (h.1 hm).eq_scanAt hc⟩
  · refine ⟨fun h => ⟨fun hy => absurd hy hm, fun _ => h ▸ scanAt_errorSpan hc hm⟩,
      fun h => ?_⟩
    obtain ⟨hnone, hspan⟩ := h.2 hm
    exact Prod.ext (hnone.trans (scanAt_errorSpan hc hm).1.symm) (hspan.eq_scanAt hc hm)

end SimControl.Command
