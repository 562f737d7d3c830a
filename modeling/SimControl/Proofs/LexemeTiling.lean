import SimControl.Proofs.ActionSplit
import SimControl.Proofs.AddressText
/-!
# Lexemes tile the line

The lexer cuts a command line into lexemes and the blanks between them, and into nothing else.
`Tiling` says so of a list of lexemes and a text, one lexeme at a time: the text is blanks
(space, tab, carriage return, line feed, form feed) and the spans of the lexemes in order, and
each lexeme is what the characters of its span spell (`Lexeme.Spells`). Words, quoted strings,
switches and text that makes no token are those characters themselves; a count and a key with
its value carry the decimal value of the digits in the span, which is below 2^32. Every scan is
a tiling of its text (`tiling_scanFrom`).

The facts about spans follow from the tiling alone: each is non-empty and lies in the text, they
come in order without overlapping, and outside them there are only blanks. The byte offsets the
lexer reports are the UTF-8 sizes of the characters before each end of a span
(`scanBytes_eq`), so they fall on character boundaries.
-/

namespace SimControl.Command

/-! ## What a lexeme spells -/

theorem decimalValue_eq_digitsValue (ds : List Char) : decimalValue ds = Text.digitsValue 10 ds := by
  induction ds using List.reverseRecOn with
  | nil => rfl
  | append_singleton ds d ih =>
    rw [Text.digitsValue_append_singleton, ← ih]
    simp only [decimalValue, List.foldl_append, List.foldl_cons, List.foldl_nil]

/-- The characters a lexeme is read from. A word, a quoted string, a switch and text that makes
no token are those characters; a semicolon and a comma are their one character; a count is
decimal digits in brackets, with blanks or tabs around the digits, and a key and value is
letters, an equals sign and decimal digits, each worth the value of its digits, below 2^32. -/
def Lexeme.Spells : Lexeme → List Char → Prop
  | .token (.word w), cs | .token (.quoted w), cs | .token (.switch w), cs | .bad w, cs =>
    w.toList = cs
  | .token (.count n), cs => ∃ pad ds pad', (∀ c ∈ pad ++ pad', isPad c = true) ∧ ds ≠ [] ∧
      (∀ d ∈ ds, isDigit d = true) ∧ cs = '[' :: (pad ++ ds ++ pad' ++ [']']) ∧
      n = Text.digitsValue 10 ds ∧ n < 2 ^ 32
  | .token (.keyValue k n), cs => ∃ ds, k.toList ≠ [] ∧ (∀ c ∈ k.toList, isLetter c = true) ∧
      ds ≠ [] ∧ (∀ d ∈ ds, isDigit d = true) ∧ cs = k.toList ++ '=' :: ds ∧
      n = Text.digitsValue 10 ds ∧ n < 2 ^ 32
  | .token .semicolon, cs => cs = [';']
  | .token .comma, cs => cs = [',']

theorem Lexeme.spells_bad (cs : List Char) : (Lexeme.bad (String.ofList cs)).Spells cs :=
  String.toList_ofList

/-- The scan of a quoted string reads no further than the text. -/
theorem quotedRun_le (q : Char) (cs : List Char) : (quotedRun q cs).1 ≤ cs.length := by
  fun_induction quotedRun q cs <;> simp_all

/-- A count is read from a bracket, blanks or tabs, digits, blanks or tabs and a bracket. -/
theorem countRun_spells (cs : List Char) : (countRun cs).2 ≤ cs.length ∧
    ∀ t, (countRun cs).1 = some t → (Lexeme.token t).Spells ('[' :: cs.take (countRun cs).2) := by
  have hpad : ∀ c ∈ cs.takeWhile isPad, isPad c = true := fun _ hc => List.mem_takeWhile_imp hc
  have hds : ∀ d ∈ (cs.dropWhile isPad).takeWhile isDigit, isDigit d = true :=
    fun _ hd => List.mem_takeWhile_imp hd
  have hpad' : ∀ c ∈ ((cs.dropWhile isPad).dropWhile isDigit).takeWhile isPad, isPad c = true :=
    fun _ hc => List.mem_takeWhile_imp hc
  -- the text is the first blanks, the digits, the blanks after them and what follows
  have hsplit : cs = cs.takeWhile isPad ++ ((cs.dropWhile isPad).takeWhile isDigit ++
      (((cs.dropWhile isPad).dropWhile isDigit).takeWhile isPad ++
        ((cs.dropWhile isPad).dropWhile isDigit).dropWhile isPad)) := by
    simp only [List.takeWhile_append_dropWhile]
  unfold countRun
  dsimp only
  generalize cs.takeWhile isPad = pad at hpad hsplit ⊢
  generalize (cs.dropWhile isPad).takeWhile isDigit = ds at hds hsplit ⊢
  generalize ((cs.dropWhile isPad).dropWhile isDigit).takeWhile isPad = pad' at hpad' hsplit ⊢
  generalize ((cs.dropWhile isPad).dropWhile isDigit).dropWhile isPad = rest at hsplit ⊢
  subst hsplit
  cases hempty : ds.isEmpty with
  | true => exact ⟨by simp, fun t ht => by cases ht⟩
  | false =>
    simp only [Bool.false_eq_true, if_false]
    split
    · -- a closing bracket after the digits and blanks: the count is read up to it
      rename_i tail
      have htext : pad ++ (ds ++ (pad' ++ ']' :: tail)) = (pad ++ ds ++ pad' ++ [']']) ++ tail := by
        simp
      refine ⟨by simp only [List.length_append, List.length_cons]; omega, fun t ht => ?_⟩
      split_ifs at ht with hlt
      cases ht
      rw [htext, List.take_left' (by simp only [List.length_append, List.length_singleton])]
      refine ⟨pad, ds, pad', fun c hc => ?_, List.isEmpty_eq_false_iff.mp hempty, hds, rfl,
        decimalValue_eq_digitsValue ds, hlt⟩
      rcases List.mem_append.mp hc with hc | hc
      · exact hpad c hc
      · exact hpad' c hc
    · exact ⟨by simp only [List.length_append]; omega, fun t ht => by cases ht⟩

/-- A key and value splits its text into the letters of the key, an equals sign and the
digits. -/
theorem keyValueParts_eq_some {cs k ds : List Char} (h : keyValueParts cs = some (k, ds)) :
    k ≠ [] ∧ (∀ c ∈ k, isLetter c = true) ∧ ds ≠ [] ∧ (∀ d ∈ ds, isDigit d = true) ∧
      cs = k ++ '=' :: ds := by
  have hletters : ∀ c ∈ cs.takeWhile isLetter, isLetter c = true :=
    fun _ hc => List.mem_takeWhile_imp hc
  have hsplit := (List.takeWhile_append_dropWhile (p := isLetter) (l := cs)).symm
  unfold keyValueParts at h
  dsimp only at h
  generalize cs.takeWhile isLetter = key at h hsplit hletters
  generalize cs.dropWhile isLetter = rest at h hsplit
  subst hsplit
  split at h
  · rename_i ds'
    split_ifs at h with hcond
    cases h
    simp only [Bool.and_eq_true, Bool.not_eq_true', List.isEmpty_eq_false_iff,
      List.all_eq_true] at hcond
    exact ⟨hcond.1.1, hletters, hcond.1.2, hcond.2, rfl⟩
  · cases h

/-- The token a run of word characters makes is what the run spells. -/
theorem classifyWord_spells {run : List Char} {t : Token} (h : classifyWord run = some t) :
    (Lexeme.token t).Spells run := by
  unfold classifyWord at h
  split_ifs at h with hswitch
  · cases h
    exact String.toList_ofList
  · split at h
    · rename_i k ds hkv
      obtain ⟨hk, hletters, hds, hdigits, rfl⟩ := keyValueParts_eq_some hkv
      dsimp only at h
      split_ifs at h with hlt
      cases h
      refine ⟨ds, ?_, ?_, hds, hdigits, ?_, decimalValue_eq_digitsValue ds, hlt⟩ <;>
        rw [String.toList_ofList]
      · exact hk
      · exact hletters
    · cases h
      exact String.toList_ofList

/-- The scan of one lexeme reads no further than the text, and a token it finds is what the
characters it read spell. -/
theorem scanAt_spells (c : Char) (cs : List Char) : (scanAt c cs).2 ≤ cs.length ∧
    ∀ t, (scanAt c cs).1 = some t → (Lexeme.token t).Spells (c :: cs.take (scanAt c cs).2) := by
  unfold scanAt
  split_ifs with hsemi hcomma hquote hbracket
  · subst hsemi
    exact ⟨Nat.zero_le _, fun t ht => by cases ht; rfl⟩
  · subst hcomma
    exact ⟨Nat.zero_le _, fun t ht => by cases ht; rfl⟩
  · -- a quoted string, closed or not
    have hle := quotedRun_le c cs
    cases hrun : quotedRun c cs with
    | mk n closed =>
      rw [hrun] at hle
      refine ⟨hle, fun t ht => ?_⟩
      dsimp only at ht ⊢
      split_ifs at ht
      cases ht
      exact String.toList_ofList
  · subst hbracket
    exact countRun_spells cs
  · exact ⟨(List.takeWhile_sublist _).length_le, fun t ht => classifyWord_spells ht⟩

/-! ## Tilings -/

/-- Lexemes `ls` tile the text `cs`, which starts at character position `p`: the text is blanks
and the spans of the lexemes in order, each lexeme spelled by the characters of its span. -/
inductive Tiling : Nat → List Char → List Lexed → Prop
  /-- Text of blanks only holds no lexeme. -/
  | blanks {p : Nat} {cs : List Char} : (∀ c ∈ cs, isGap c = true) → Tiling p cs []
  /-- A blank before the lexemes. -/
  | gap {p : Nat} {c : Char} {cs : List Char} {ls : List Lexed} :
      isGap c = true → Tiling (p + 1) cs ls → Tiling p (c :: cs) ls
  /-- A lexeme spelled by the next `n` characters, then the lexemes of the text after them. -/
  | lexeme {p n : Nat} {cs : List Char} {x : Lexeme} {ls : List Lexed} :
      0 < n → n ≤ cs.length → x.Spells (cs.take n) → Tiling (p + n) (cs.drop n) ls →
        Tiling p cs (⟨x, p, p + n⟩ :: ls)

/-- Every scan tiles its text. -/
theorem tiling_scanFrom (pos : Nat) (cs : List Char) : Tiling pos cs (scanFrom pos cs) := by
  fun_induction scanFrom pos cs with
  | case1 pos => exact .blanks fun _ h => by cases h
  | case2 pos c cs hgap ih => exact .gap hgap ih
  | case3 pos c cs hgap found n hscan lexeme ih =>
    -- the lexeme is spelled by `c` and the `n` characters the scan read after it
    obtain ⟨hle, hspells⟩ := scanAt_spells c cs
    rw [hscan] at hle hspells
    have hx : lexeme.Spells ((c :: cs).take (n + 1)) := by
      cases found with
      | some t => exact hspells t rfl
      | none => exact Lexeme.spells_bad _
    exact Tiling.lexeme (Nat.succ_pos n) (Nat.succ_le_succ hle) hx ih

namespace Tiling

variable {p : Nat} {cs : List Char} {l : Lexed} {ls : List Lexed}

/-- Each span of a tiling is non-empty, lies in the text, and spells its lexeme. -/
theorem span (h : Tiling p cs ls) : ∀ l ∈ ls, p ≤ l.start ∧ l.start < l.stop ∧
    l.stop ≤ p + cs.length ∧ l.lexeme.Spells ((cs.drop (l.start - p)).take (l.stop - l.start)) := by
  induction h with
  | blanks _ => exact fun l hl => by cases hl
  | @gap p c cs ls _ _ ih =>
    intro l hl
    obtain ⟨h₁, h₂, h₃, h₄⟩ := ih l hl
    have hdrop : (c :: cs).drop (l.start - p) = cs.drop (l.start - (p + 1)) := by
      rw [show l.start - p = l.start - (p + 1) + 1 by omega, List.drop_succ_cons]
    refine ⟨by omega, h₂, by rw [List.length_cons]; omega, ?_⟩
    rw [hdrop]
    exact h₄
  | @lexeme p n cs x ls hn hle hx _ ih =>
    intro l hl
    rcases List.mem_cons.mp hl with rfl | hl
    · refine ⟨le_refl p, Nat.lt_add_of_pos_right hn, Nat.add_le_add_left hle p, ?_⟩
      rw [Nat.sub_self, List.drop_zero, Nat.add_sub_cancel_left]
      exact hx
    · obtain ⟨h₁, h₂, h₃, h₄⟩ := ih l hl
      have hdrop : (cs.drop n).drop (l.start - (p + n)) = cs.drop (l.start - p) := by
        rw [List.drop_drop, show n + (l.start - (p + n)) = l.start - p by omega]
      rw [List.length_drop] at h₃
      refine ⟨by omega, h₂, by omega, ?_⟩
      rw [← hdrop]
      exact h₄

/-- The spans of a tiling come in order and do not overlap. -/
theorem sorted (h : Tiling p cs ls) : ls.Pairwise fun l₁ l₂ => l₁.stop ≤ l₂.start := by
  induction h with
  | blanks _ => exact .nil
  | gap _ _ ih => exact ih
  | lexeme _ _ _ hrest ih => exact .cons (fun l hl => (hrest.span l hl).1) ih

/-- A character of the text that no span covers is a blank. -/
theorem gap_of_uncovered (h : Tiling p cs ls) (k : Nat) (hk : k < cs.length)
    (hout : ∀ l ∈ ls, ¬(l.start ≤ p + k ∧ p + k < l.stop)) : isGap cs[k] = true := by
  induction h generalizing k with
  | blanks hblank => exact hblank _ (List.getElem_mem hk)
  | @gap p c cs ls hc _ ih =>
    cases k with
    | zero => exact hc
    | succ k =>
      rw [List.length_cons] at hk
      exact ih k (by omega) fun l hl => by have := hout l hl; omega
  | @lexeme p n cs x ls hn hle _ _ ih =>
    -- the lexeme's own span covers the first `n` characters
    have hkn : n ≤ k := by
      have hself := hout _ List.mem_cons_self
      dsimp only at hself
      omega
    have hrest := ih (k - n) (by rw [List.length_drop]; omega) fun l hl => by
      have := hout l (List.mem_cons_of_mem _ hl)
      omega
    rw [List.getElem_drop] at hrest
    simpa only [Nat.add_sub_cancel' hkn] using hrest

/-- Text whose tiling holds no lexeme is blanks. -/
theorem blanks_of_nil (h : Tiling p cs []) : ∀ c ∈ cs, isGap c = true := by
  generalize hnil : ([] : List Lexed) = ls at h
  induction h with
  | blanks hb => exact hb
  | gap hc _ ih =>
    intro c' hc'
    rcases List.mem_cons.mp hc' with rfl | hc'
    · exact hc
    · exact ih hnil c' hc'
  | lexeme => cases hnil

/-- Before the first lexeme of a tiling there are only blanks, and the lexemes after it tile the
text after its span. -/
theorem cons (h : Tiling p cs (l :: ls)) :
    (∀ c ∈ cs.take (l.start - p), isGap c = true) ∧ Tiling l.stop (cs.drop (l.stop - p)) ls := by
  generalize hcons : l :: ls = ls' at h
  induction h with
  | blanks _ => cases hcons
  | @gap p c cs ls' hc hrest ih =>
    obtain ⟨hgaps, htail⟩ := ih hcons
    have hstart := (hrest.span l (hcons ▸ List.mem_cons_self)).1
    refine ⟨fun c' hc' => ?_, ?_⟩
    · rw [show l.start - p = l.start - (p + 1) + 1 by omega, List.take_succ_cons] at hc'
      rcases List.mem_cons.mp hc' with rfl | hc'
      · exact hc
      · exact hgaps c' hc'
    · have hstop := (hrest.span l (hcons ▸ List.mem_cons_self)).2.1
      rwa [show l.stop - p = l.stop - (p + 1) + 1 by omega, List.drop_succ_cons]
  | @lexeme p n cs x ls' _ _ _ hrest _ =>
    obtain ⟨rfl, rfl⟩ := List.cons.inj hcons
    refine ⟨fun c hc => ?_, ?_⟩
    · rw [Nat.sub_self, List.take_zero] at hc
      cases hc
    · rwa [Nat.add_sub_cancel_left]

end Tiling

/-! ## Byte offsets -/

/-- The byte offset of character position `k` in the characters `cs`: the UTF-8 size of the
characters before it. -/
def byteOffset (cs : List Char) (k : Nat) : Nat := (String.ofList (cs.take k)).utf8ByteSize

theorem byteOffset_eq_sum (cs : List Char) (k : Nat) :
    byteOffset cs k = ((cs.take k).map Char.utf8Size).sum :=
  utf8ByteSize_ofList _

/-- The bytes before a position are those before an earlier one and those between the two. -/
theorem byteOffset_add_drop (cs : List Char) {m k : Nat} (h : m ≤ k) :
    byteOffset cs m + byteOffset (cs.drop m) (k - m) = byteOffset cs k := by
  rw [byteOffset_eq_sum, byteOffset_eq_sum, byteOffset_eq_sum, ← List.sum_append, ← List.map_append,
    ← List.take_add, Nat.add_sub_cancel' h]

theorem byteOffset_mono (cs : List Char) {i j : Nat} (hij : i ≤ j) :
    byteOffset cs i ≤ byteOffset cs j := by
  rw [← byteOffset_add_drop cs hij]
  exact Nat.le_add_right _ _

/-- Every character takes at least one byte, so a later position has a larger offset. -/
theorem byteOffset_lt_of_lt (cs : List Char) {i j : Nat} (hij : i < j) (hj : j ≤ cs.length) :
    byteOffset cs i < byteOffset cs j := by
  have hpos : 0 < byteOffset (cs.drop i) (j - i) := by
    obtain ⟨c, rest, hcs⟩ := List.exists_cons_of_ne_nil (l := cs.drop i) (by
      rw [Ne, List.drop_eq_nil_iff]
      omega)
    rw [byteOffset_eq_sum, hcs, show j - i = j - i - 1 + 1 by omega, List.take_succ_cons,
      List.map_cons, List.sum_cons]
    exact Nat.lt_of_lt_of_le (Char.utf8Size_pos c) (Nat.le_add_right _ _)
  rw [← byteOffset_add_drop cs hij.le]
  omega

theorem byteOffset_length (s : String) : byteOffset s.toList s.length = s.utf8ByteSize := by
  rw [byteOffset, ← String.length_toList, List.take_length, String.ofList_toList]

/-- Moving along the characters to a position among them passes the bytes before it. -/
theorem advanceTo_eq (cs : List Char) {i target : Nat} (b : Nat) (h₁ : i ≤ target)
    (h₂ : target ≤ i + cs.length) :
    advanceTo cs i b target = (cs.drop (target - i), target, b + byteOffset cs (target - i)) := by
  induction cs generalizing i b with
  | nil =>
    obtain rfl : target = i := by rw [List.length_nil] at h₂; omega
    rw [Nat.sub_self, byteOffset_eq_sum]
    rfl
  | cons c cs ih =>
    by_cases hti : target ≤ i
    · obtain rfl : target = i := by omega
      rw [advanceTo, if_pos hti, Nat.sub_self, byteOffset_eq_sum]
      rfl
    · rw [List.length_cons] at h₂
      rw [advanceTo, if_neg hti, ih (b + c.utf8Size) (by omega) (by omega),
        show target - i = target - (i + 1) + 1 by omega, List.drop_succ_cons, byteOffset_eq_sum,
        byteOffset_eq_sum, List.take_succ_cons, List.map_cons, List.sum_cons, Nat.add_assoc]

/-- The byte offsets found in one pass along the characters, for spans in order that lie in
them. -/
theorem spansFrom_eq (acc : List (Lexeme × Nat × Nat)) (cs : List Char) (i b : Nat)
    (ls : List Lexed) (hspan : ∀ l ∈ ls, i ≤ l.start ∧ l.start ≤ l.stop ∧ l.stop ≤ i + cs.length)
    (hsorted : ls.Pairwise fun l₁ l₂ => l₁.stop ≤ l₂.start) :
    spansFrom acc cs i b ls = acc.reverse ++ ls.map fun l =>
      (l.lexeme, b + byteOffset cs (l.start - i), b + byteOffset cs (l.stop - i)) := by
  induction ls generalizing acc cs i b with
  | nil => rw [spansFrom, List.map_nil, List.append_nil]
  | cons l ls ih =>
    obtain ⟨h₁, h₂, h₃⟩ := hspan l List.mem_cons_self
    obtain ⟨hafter, hsorted⟩ := List.pairwise_cons.mp hsorted
    -- first to the start of the span, then on to its end
    have hstart := advanceTo_eq cs b h₁ (by omega)
    have hstop := advanceTo_eq (cs.drop (l.start - i)) (b + byteOffset cs (l.start - i)) h₂
      (by rw [List.length_drop]; omega)
    have hend : b + byteOffset cs (l.start - i) + byteOffset (cs.drop (l.start - i)) (l.stop - l.start) =
        b + byteOffset cs (l.stop - i) := by
      rw [Nat.add_assoc, show l.stop - l.start = l.stop - i - (l.start - i) by omega,
        byteOffset_add_drop cs (by omega)]
    rw [spansFrom, hstart]
    dsimp only
    rw [hstop, hend, List.drop_drop, show l.start - i + (l.stop - l.start) = l.stop - i by omega]
    dsimp only
    rw [ih _ _ _ _ (fun l' hl' => ?_) hsorted]
    · rw [List.reverse_cons, List.append_assoc, List.map_cons, List.singleton_append]
      congr 2
      refine List.map_congr_left fun l' hl' => ?_
      have := hafter l' hl'
      have := (hspan l' (List.mem_cons_of_mem l hl')).2.1
      rw [Nat.add_assoc, Nat.add_assoc, show l'.start - l.stop = l'.start - i - (l.stop - i) by omega,
        show l'.stop - l.stop = l'.stop - i - (l.stop - i) by omega,
        byteOffset_add_drop cs (by omega), byteOffset_add_drop cs (by omega)]
    · obtain ⟨h₁', h₂', h₃'⟩ := hspan l' (List.mem_cons_of_mem l hl')
      have := hafter l' hl'
      rw [List.length_drop]
      omega

/-- The lexer reports each lexeme with the byte offsets of its span: the UTF-8 sizes of the
characters before its start and before its end. -/
theorem scanBytes_eq (s : String) : scanBytes s =
    (scan s).map fun l => (l.lexeme, byteOffset s.toList l.start, byteOffset s.toList l.stop) := by
  have ht := tiling_scanFrom 0 s.toList
  have hspan : ∀ l ∈ scan s, 0 ≤ l.start ∧ l.start ≤ l.stop ∧ l.stop ≤ 0 + s.toList.length :=
    fun l hl => by
      obtain ⟨_, h₂, h₃, _⟩ := ht.span l hl
      omega
  rw [scanBytes, spansFrom_eq [] s.toList 0 0 (scan s) hspan ht.sorted]
  simp only [List.reverse_nil, List.nil_append, Nat.zero_add, Nat.sub_zero]

/-- In bytes too the spans of the lexemes are non-empty, lie in the text and come in order. -/
theorem scanBytes_ordered (s : String) :
    (∀ x ∈ scanBytes s, x.2.1 < x.2.2 ∧ x.2.2 ≤ s.utf8ByteSize) ∧
      (scanBytes s).Pairwise fun x y => x.2.2 ≤ y.2.1 := by
  have ht := tiling_scanFrom 0 s.toList
  rw [scanBytes_eq]
  refine ⟨fun x hx => ?_, List.pairwise_map.mpr (ht.sorted.imp fun h => byteOffset_mono _ h)⟩
  obtain ⟨l, hl, rfl⟩ := List.mem_map.mp hx
  obtain ⟨-, hlt, hle, -⟩ := ht.span l hl
  rw [Nat.zero_add] at hle
  refine ⟨byteOffset_lt_of_lt _ hlt hle, ?_⟩
  rw [← byteOffset_length]
  exact byteOffset_mono _ (String.length_toList ▸ hle)

end SimControl.Command
