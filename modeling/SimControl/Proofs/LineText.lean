import SimControl.Proofs.LexemeTiling
import SimControl.Proofs.TargetRanges
/-!
# Text cut from the line

Some arguments are no tokens but text cut from the line: the text of ECHO and the action of a
BREAK are everything from the first lexeme not yet read to the end of the line, trimmed. The
lexemes tile the line (`Tiling`), so between the lexemes already read and the next one there
are only blanks, and the rest of the line is the trimmed text after the last lexeme read
(`remainder_of_tiling`). ECHO therefore gives back its text trimmed (`parse_echo`). A BREAK reads
only its keyword, switches and an address list before its semicolon, and none of them is a
semicolon; so its action is the trimmed text after the first semicolon of the line
(`parse_break_action`).

* `lexemes_tile_line`: the spans of the lexemes of every line, and the text cut from it.
-/

namespace SimControl

namespace Text

/-- Blanks in front of a text do not change its trimming. -/
theorem trimChars_blanks_append {g t : List Char} (hg : ∀ c ∈ g, isBlank c = true) :
    trimChars (g ++ t) = trimChars t := by
  rw [trimChars, trimChars, List.dropWhile_append_of_pos hg]

/-- A text that trims to nothing is blanks. -/
theorem blank_of_trimChars_eq_nil {t : List Char} (h : trimChars t = []) :
    ∀ c ∈ t, isBlank c = true := by
  rw [trimChars, List.reverse_eq_nil_iff, List.dropWhile_eq_nil_iff] at h
  intro c hc
  rw [← List.takeWhile_append_dropWhile (p := isBlank) (l := t), List.mem_append] at hc
  rcases hc with hc | hc
  · exact List.mem_takeWhile_imp hc
  · exact h c (List.mem_reverse.mpr hc)

end Text

namespace Command

/-! ## The rest of a line -/

/-- Blanks in front of a text do not change its trimming. -/
theorem trimBlank_gaps_append {g t : List Char} (hg : ∀ c ∈ g, isGap c = true) :
    Text.trimBlank (String.ofList (g ++ t)) = Text.trimBlank (String.ofList t) := by
  apply String.toList_inj.mp
  rw [Text.trimBlank_toList, Text.trimBlank_toList, String.toList_ofList, String.toList_ofList,
    Text.trimChars_blanks_append fun c hc => Text.isBlank_of_isGap (hg c hc)]

/-- The rest of a line is its text trimmed, or nothing if that is empty. -/
theorem restText_eq (t : List Char) :
    restText t = let r := Text.trimBlank (String.ofList t); if r.isEmpty then none else some r := by
  have htrim : Text.trimBlank (String.ofList (t.dropWhile isGap)) = Text.trimBlank (String.ofList t) := by
    conv_rhs => rw [← List.takeWhile_append_dropWhile (p := isGap) (l := t)]
    exact (trimBlank_gaps_append fun _ hc => List.mem_takeWhile_imp hc).symm
  rw [restText, htrim]

/-- Blanks leave no rest. -/
theorem restText_of_gaps {t : List Char} (h : ∀ c ∈ t, isGap c = true) : restText t = none := by
  unfold restText
  rw [List.dropWhile_eq_nil_iff.mpr h]
  exact restText_nil

/-- Text with a rest of nothing is blanks. -/
theorem blank_of_restText_eq_none {t : List Char} (h : restText t = none) :
    ∀ c ∈ t, Text.isBlank c = true := by
  rw [restText_eq] at h
  dsimp only at h
  split_ifs at h with hempty
  apply Text.blank_of_trimChars_eq_nil
  rw [← String.toList_ofList (l := t), ← Text.trimBlank_toList, String.isEmpty_iff.mp hempty]
  rfl

/-- The rest of a line, read from lexemes that tile the line from position `p`, is the text
from `p` on, trimmed: whatever the lexemes, the text between `p` and the first of them is
blanks. -/
theorem remainder_of_tiling {src : String} {p : Nat} {ls : List Lexed}
    (h : Tiling p (src.toList.drop p) ls) :
    remainder.run ⟨src, ls⟩ = .ok (restText (src.toList.drop p), ⟨src, []⟩) := by
  cases ls with
  | nil =>
    rw [restText_of_gaps h.blanks_of_nil]
    rfl
  | cons l ls =>
    obtain ⟨hgaps, -⟩ := h.cons
    have hstart := (h.span l List.mem_cons_self).1
    have htext : src.toList.drop p =
        (src.toList.drop p).take (l.start - p) ++ src.toList.drop l.start := by
      conv_lhs => rw [← List.take_append_drop (l.start - p) (src.toList.drop p)]
      rw [List.drop_drop, Nat.add_sub_cancel' hstart]
    have hrem : remainder.run ⟨src, l :: ls⟩ =
        .ok ((let r := Text.trimBlank (textFrom src l.start); if r.isEmpty then none else some r),
          ⟨src, []⟩) := rfl
    rw [hrem, restText_eq, htext, trimBlank_gaps_append hgaps, textFrom]

/-! ## Lexemes that tile a line from a position -/

namespace Tiling

variable {src : String} {p : Nat} {l : Lexed} {ls : List Lexed}

/-- The lexemes after the first of a tiling tile the line from the end of its span. -/
theorem tail (h : Tiling p (src.toList.drop p) (l :: ls)) :
    Tiling l.stop (src.toList.drop l.stop) ls := by
  have hstop : p ≤ l.stop := by
    obtain ⟨h₁, h₂, -⟩ := h.span l List.mem_cons_self
    omega
  have htail := h.cons.2
  rwa [List.drop_drop, Nat.add_sub_cancel' hstop] at htail

/-- The lexemes after any first ones of a tiling tile the line from some position on. -/
theorem suffix {pre : List Lexed} (h : Tiling p (src.toList.drop p) (pre ++ ls)) :
    ∃ q, Tiling q (src.toList.drop q) ls := by
  induction pre generalizing p with
  | nil => exact ⟨p, h⟩
  | cons l pre ih => exact ih h.tail

/-- Text that is blanks holds no semicolon. -/
theorem find?_semicolon_eq_none {t : List Char} (h : Tiling p t ls)
    (hblank : ∀ c ∈ t, Text.isBlank c = true) :
    ls.find? (fun l => l.lexeme == .token .semicolon) = none := by
  refine List.find?_eq_none.mpr fun l hl hsemi => ?_
  obtain ⟨-, -, -, hspells⟩ := h.span l hl
  rw [beq_iff_eq] at hsemi
  rw [hsemi] at hspells
  -- the semicolon spells a `;` of the text, and `;` is no blank
  have hmem : ';' ∈ t := by
    have hin : ';' ∈ (t.drop (l.start - p)).take (l.stop - l.start) := by
      rw [show (t.drop (l.start - p)).take (l.stop - l.start) = [';'] from hspells]
      exact List.mem_singleton_self _
    exact List.mem_of_mem_drop (List.mem_of_mem_take hin)
  exact absurd (hblank ';' hmem) (by decide)

end Tiling

/-! ## Readers -/

theorem peek_run (c : Cursor) : peek.run c = .ok (c.rest.head?.map (·.lexeme), c) := rfl

theorem onRest_run {α : Type} (f : List Lexed → Except Fault (α × List Lexed)) (c : Cursor) :
    (onRest f).run c = (f c.rest).map fun p => (p.1, { c with rest := p.2 }) := by
  unfold onRest
  rw [StateT.run_bind, StateT.run_get, pure_bind]
  cases f c.rest <;> rfl

/-- A reader of the lexeme list itself moves the cursor to the lexemes it leaves. -/
theorem onRest_eq_ok {α : Type} {f : List Lexed → Except Fault (α × List Lexed)} {c c' : Cursor}
    {a : α} (h : (onRest f).run c = .ok (a, c')) : f c.rest = .ok (a, c'.rest) ∧ c'.source = c.source := by
  rw [onRest_run] at h
  cases hf : f c.rest with
  | error e =>
    rw [hf] at h
    cases h
  | ok q =>
    rw [hf] at h
    cases h
    exact ⟨rfl, rfl⟩

/-- The switches read are switch tokens at the front of the lexemes. -/
theorem switchesFrom_eq_ok {acc sw : Switches} {ls rest : List Lexed}
    (h : switchesFrom acc ls = .ok (sw, rest)) :
    ∃ pre, ls = pre ++ rest ∧ ∀ l ∈ pre, l.lexeme ≠ .token .semicolon := by
  fun_induction switchesFrom acc ls with
  | case1 acc s i j rest' sw' hsw ih =>
    obtain ⟨pre, rfl, hpre⟩ := ih h
    refine ⟨⟨.token (.switch s), i, j⟩ :: pre, rfl, ?_⟩
    simpa using hpre
  | case2 => cases h
  | case3 =>
    cases h
    exact ⟨[], rfl, fun _ h => by cases h⟩

/-- The items of an address list are words, counts and commas at the front of the lexemes. -/
theorem targetsFrom_eq_ok {ls rest : List Lexed} {ts : List BreakTarget}
    (h : targetsFrom ls = .ok (ts, rest)) :
    ∃ pre, ls = pre ++ rest ∧ ∀ l ∈ pre, l.lexeme ≠ .token .semicolon := by
  fun_induction targetsFrom ls generalizing ts rest with
  | case1 | case2 | case3 | case8 => cases h
  | case4 l w hw r _ n i j i' j' more ih =>
    cases hmore : targetsFrom more with
    | error e =>
      rw [hmore] at h
      cases h
    | ok q =>
      rw [hmore] at h
      cases h
      obtain ⟨pre, rfl, hpre⟩ := ih hmore
      refine ⟨l :: ⟨.token (.count n), i, j⟩ :: ⟨.token .comma, i', j'⟩ :: pre, rfl, ?_⟩
      simpa [hw] using hpre
  | case5 l w hw r _ n i j more _ =>
    cases h
    exact ⟨[l, ⟨.token (.count n), i, j⟩], rfl, by simp [hw]⟩
  | case6 l w hw r _ i j more ih =>
    cases hmore : targetsFrom more with
    | error e =>
      rw [hmore] at h
      cases h
    | ok q =>
      rw [hmore] at h
      cases h
      obtain ⟨pre, rfl, hpre⟩ := ih hmore
      refine ⟨l :: ⟨.token .comma, i, j⟩ :: pre, rfl, ?_⟩
      simpa [hw] using hpre
  | case7 l w hw r _ more _ _ _ =>
    cases h
    exact ⟨[l], rfl, by simp [hw]⟩

/-- Reading switches moves past switch tokens only. -/
theorem switches_eq_ok {c c' : Cursor} {sw : Switches} (h : switches.run c = .ok (sw, c')) :
    c'.source = c.source ∧ ∃ pre, c.rest = pre ++ c'.rest ∧ ∀ l ∈ pre, l.lexeme ≠ .token .semicolon := by
  obtain ⟨hsw, hsrc⟩ := onRest_eq_ok h
  exact ⟨hsrc, switchesFrom_eq_ok hsw⟩

/-- Reading an address list moves past its items only. -/
theorem addressList_eq_ok {c c' : Cursor} {ts : List BreakTarget} (h : addressList.run c = .ok (ts, c')) :
    c'.source = c.source ∧ ∃ pre, c.rest = pre ++ c'.rest ∧ ∀ l ∈ pre, l.lexeme ≠ .token .semicolon := by
  unfold addressList at h
  obtain ⟨x, c₁, hx, h⟩ := run_bind_eq_ok h
  rw [peek_run] at hx
  cases hx
  split at h
  · obtain ⟨ht, hsrc⟩ := onRest_eq_ok h
    exact ⟨hsrc, targetsFrom_eq_ok ht⟩
  · cases h
    exact ⟨rfl, [], rfl, fun _ h => by cases h⟩

/-- A semicolon is read if one comes next, and then only it. -/
theorem semicolon_eq_ok {c c' : Cursor} {b : Bool} (h : semicolon.run c = .ok (b, c')) :
    (b = true ∧ c'.source = c.source ∧ ∃ l, c.rest = l :: c'.rest ∧ l.lexeme = .token .semicolon) ∨
      (b = false ∧ c' = c) := by
  unfold semicolon at h
  obtain ⟨x, c₁, hx, h⟩ := run_bind_eq_ok h
  rw [peek_run] at hx
  cases hx
  split at h
  · rename_i hsemi
    obtain ⟨u, c₂, hadv, h⟩ := run_bind_eq_ok h
    cases hadv
    cases h
    dsimp only
    refine .inl ⟨rfl, rfl, ?_⟩
    cases hrest : c.rest with
    | nil =>
      rw [hrest] at hsemi
      cases hsemi
    | cons l more =>
      rw [hrest] at hsemi
      refine ⟨l, rfl, ?_⟩
      simpa using hsemi
  · cases h
    exact .inr ⟨rfl, rfl⟩

/-- Nothing may follow: the rest of the line is empty. -/
theorem expectEnd_eq_ok {c c' : Cursor} {u : Unit} (h : expectEnd.run c = .ok (u, c')) :
    ∃ c'', remainder.run c = .ok (none, c'') := by
  unfold expectEnd at h
  obtain ⟨r, c₁, hr, h⟩ := run_bind_eq_ok h
  cases r with
  | none => exact ⟨c₁, hr⟩
  | some r => cases h

/-! ## BREAK and its action -/

/-- Before its semicolon a BREAK reads switches and an address list, none of them a semicolon;
so its action is the rest of the line after the first semicolon of the lexemes it reads, and
nothing if there is no semicolon. -/
theorem readBreak_action {src : String} {p : Nat} {ls : List Lexed}
    (ht : Tiling p (src.toList.drop p) ls) {ty : BreakTypes} {ts : List BreakTarget}
    {act : Option String} {c' : Cursor}
    (hrun : (readBreak true).run ⟨src, ls⟩ = .ok (.setBreak ty ts act, c')) :
    act = (ls.find? fun l => l.lexeme == .token .semicolon).bind
      fun l => restText (src.toList.drop l.stop) := by
  unfold readBreak at hrun
  obtain ⟨sw, c₁, h₁, hrun₁⟩ := run_bind_eq_ok hrun
  obtain ⟨ts', c₂, h₂, hrun₂⟩ := run_bind_eq_ok hrun₁
  obtain ⟨b, c₃, h₃, hrun₃⟩ := run_bind_eq_ok hrun₂
  obtain ⟨hsrc₁, pre₁, hls₁, hno₁⟩ := switches_eq_ok h₁
  obtain ⟨hsrc₂, pre₂, hls₂, hno₂⟩ := addressList_eq_ok h₂
  obtain ⟨src₁, rest₁⟩ := c₁
  obtain ⟨src₂, rest⟩ := c₂
  dsimp only at hsrc₁ hls₁ hsrc₂ hls₂
  subst src₁ src₂ rest₁ ls
  rw [← List.append_assoc] at ht ⊢
  -- the switches and the address list hold no semicolon
  have hfind : (pre₁ ++ pre₂ ++ rest).find? (fun l => l.lexeme == .token .semicolon) =
      rest.find? fun l => l.lexeme == .token .semicolon := by
    rw [List.find?_append, List.find?_eq_none.mpr, Option.none_or]
    intro l hl hsemi
    rw [beq_iff_eq] at hsemi
    rcases List.mem_append.mp hl with hl | hl
    · exact hno₁ l hl hsemi
    · exact hno₂ l hl hsemi
  obtain ⟨q, htq⟩ := ht.suffix
  rw [hfind]
  rcases semicolon_eq_ok h₃ with ⟨rfl, hsrc₃, l, hrest, hsemi⟩ | ⟨rfl, rfl⟩
  · -- a semicolon: the action is the rest of the line after it
    obtain ⟨src₃, more⟩ := c₃
    dsimp only at hsrc₃ hrest
    subst src₃ rest
    simp only [if_true, Bool.not_true, Bool.false_eq_true, if_false] at hrun₃
    obtain ⟨r, c₄, h₄, hrun₄⟩ := run_bind_eq_ok hrun₃
    cases hrun₄
    rw [remainder_of_tiling htq.tail] at h₄
    have hr := congrArg Prod.fst (Except.ok.inj h₄)
    dsimp only at hr
    rw [List.find?_cons_of_pos (by rw [hsemi]; rfl), Option.bind_some, hr]
  · -- no semicolon: nothing follows the address list, so the rest of the line is blanks
    simp only [Bool.false_eq_true, if_false, if_true] at hrun₃
    obtain ⟨u, c₄, h₄, hrun₄⟩ := run_bind_eq_ok hrun₃
    cases hrun₄
    obtain ⟨c'', hend⟩ := expectEnd_eq_ok h₄
    rw [remainder_of_tiling htq] at hend
    have hnone := congrArg Prod.fst (Except.ok.inj hend)
    dsimp only at hnone
    rw [htq.find?_semicolon_eq_none (blank_of_restText_eq_none hnone)]
    rfl

/-- NOBREAK never reads a BREAK. -/
theorem yields_readBreak_false : Yields (fun cmd => ∀ ty ts act, cmd ≠ .setBreak ty ts act)
    (readBreak false) := by
  unfold readBreak
  refine Yields.bind_any fun _ => Yields.bind_any fun _ => Yields.bind_any fun semi => ?_
  split
  · split
    · exact Yields.bind_any fun _ => Yields.throw_bind _ _
    · rename_i hwith
      exact absurd rfl hwith
  · exact Yields.bind_any fun _ => Yields.pure fun _ _ _ h => by cases h

/-- Only the BREAK keyword reads its arguments into a BREAK. -/
theorem keyword_eq_brk_of_setBreak {w : String} {k : Keyword} {c c' : Cursor} {ty : BreakTypes}
    {ts : List BreakTarget} {act : Option String}
    (h : (readArguments w k).run c = .ok (.setBreak ty ts act, c')) : k = .brk := by
  have hy : Yields (fun cmd => ∀ ty ts act, cmd = .setBreak ty ts act → k = .brk)
      (readArguments w k) :=
    yields_readArguments_of_keyword w k (fun hk _ _ _ _ _ _ _ _ => hk)
      (fun _ c v c' hv ty ts act heq => absurd heq (yields_readBreak_false c v c' hv ty ts act))
      (fun _ => yields_readShow_of (fun _ _ _ _ _ _ _ h => by cases h) fun _ _ _ _ _ h => by cases h)
      (fun cmd hplain _ _ _ heq => by
        subst heq
        exact hplain.elim)
  exact hy c _ c' h ty ts act rfl

/-- A line read as a BREAK starts with a word, and BREAK reads the lexemes after it. -/
theorem parse_eq_setBreak {line : String} {ty : BreakTypes} {ts : List BreakTarget}
    {act : Option String} (h : parse line = .ok (.setBreak ty ts act)) :
    ∃ l rest w c', scan line = l :: rest ∧ l.lexeme = .token (.word w) ∧
      (readBreak true).run ⟨line, rest⟩ = .ok (.setBreak ty ts act, c') := by
  unfold parse at h
  split at h
  · cases h
  · rename_i l rest hscan
    split at h
    · cases h
    · rename_i w hw
      split at h
      · cases h
      · cases hk : lookup w commandWords with
        | error e =>
          rw [hk] at h
          cases h
        | ok k =>
          rw [hk] at h
          simp only [bind, Except.bind] at h
          split at h
          · cases h
          · rename_i p hr
            obtain ⟨cmd, c'⟩ := p
            simp only [pure, Except.pure, Except.ok.injEq] at h
            subst h
            obtain rfl := keyword_eq_brk_of_setBreak hr
            exact ⟨l, rest, w, c', hscan, hw, hr⟩
    · cases h
    · cases h

/-- The action of a BREAK is the trimmed text of the line after its first semicolon, or none
if there is no semicolon or nothing but blanks after it. -/
theorem parse_break_action {line : String} {ty : BreakTypes} {ts : List BreakTarget}
    {act : Option String} (h : parse line = .ok (.setBreak ty ts act)) :
    act = ((scan line).find? fun l => l.lexeme == .token .semicolon).bind fun l =>
      let r := Text.trimBlank (textFrom line l.stop); if r.isEmpty then none else some r := by
  obtain ⟨l, rest, w, c', hscan, hw, hrun⟩ := parse_eq_setBreak h
  have ht : Tiling 0 (line.toList.drop 0) (l :: rest) := hscan ▸ tiling_scanFrom 0 line.toList
  have hrest : (fun l : Lexed => restText (line.toList.drop l.stop)) = fun l =>
      let r := Text.trimBlank (textFrom line l.stop); if r.isEmpty then none else some r :=
    funext fun l => restText_eq _
  rw [readBreak_action ht.tail hrun, hscan, List.find?_cons_of_neg (by rw [hw]; exact Bool.false_ne_true),
    hrest]

theorem readArguments_echo_run (w : String) (c : Cursor) :
    (readArguments w .echo).run c = (remainder.run c).map fun p => (.echo (p.1.getD ""), p.2) := rfl

theorem echo_chars : ∀ x ∈ ['E', 'C', 'H', 'O'], isWordChar x = true :=
  List.all_eq_true.mp rfl

/-- ECHO gives back the text after it, trimmed. -/
theorem parse_echo (s : String) : parse ("ECHO " ++ s) = .ok (.echo (Text.trimBlank s)) := by
  have hline : ("ECHO " ++ s).toList = "ECHO ".toList ++ s.toList := String.toList_append
  have hchars : ("ECHO " ++ s).toList = 'E' :: ['C', 'H', 'O'] ++ ' ' :: s.toList := by
    rw [hline]
    rfl
  have hscan : scan ("ECHO " ++ s) =
      ⟨.token (.word "ECHO"), 0, 4⟩ :: scanFrom "ECHO ".toList.length s.toList := by
    have hword : classifyWord ['E', 'C', 'H', 'O'] = some (.word "ECHO") := rfl
    rw [scan, hchars, scanFrom_word_gap echo_chars hword]
    rfl
  have hhash : "ECHO".startsWith "#" = false := by simp
  have hecho : (readArguments "ECHO" .echo).run ⟨"ECHO " ++ s, scanFrom "ECHO ".toList.length s.toList⟩ =
      .ok (.echo ((restText s.toList).getD ""), ⟨"ECHO " ++ s, []⟩) := by
    rw [readArguments_echo_run, remainder_scanFrom _ _ _ hline]
    generalize restText s.toList = r
    rfl
  rw [parse, hscan]
  simp only [hhash, Bool.false_eq_true, if_false, show lookup "ECHO" commandWords = .ok .echo from rfl,
    bind, Except.bind, hecho, pure, Except.pure]
  -- the rest of the line is the text trimmed, or nothing when that is empty
  rw [restText_eq]
  dsimp only
  split_ifs with hempty
  · rw [String.ofList_toList] at hempty
    rw [String.isEmpty_iff.mp hempty]
    rfl
  · rw [String.ofList_toList]
    rfl

/-- The lexemes of every line tile it, and the text cut from a line is the line's own text.
Each span is non-empty and lies in the line, the spans come in order without overlapping, a
character that no span covers is a blank, and each lexeme is what the characters of its span
spell, a count or the value of a key being the decimal value of its digits, below 2^32. The
lexer reports a span by the byte offsets of its ends, the UTF-8 sizes of the characters before
them, so in bytes too the spans are non-empty, lie in the line and come in order. ECHO gives
back the text after it, trimmed; and the action of a BREAK is the trimmed text of the line after
its first semicolon, or none when there is no semicolon or only blanks follow it. -/
theorem lexemes_tile_line (s : String) :
    (∀ l ∈ scan s, l.start < l.stop ∧ l.stop ≤ s.length ∧
      l.lexeme.Spells ((s.toList.drop l.start).take (l.stop - l.start))) ∧
    (scan s).Pairwise (fun l₁ l₂ => l₁.stop ≤ l₂.start) ∧
    (∀ k (hk : k < s.toList.length), (∀ l ∈ scan s, ¬(l.start ≤ k ∧ k < l.stop)) →
      isGap s.toList[k] = true) ∧
    scanBytes s =
      (scan s).map (fun l => (l.lexeme, byteOffset s.toList l.start, byteOffset s.toList l.stop)) ∧
    (∀ x ∈ scanBytes s, x.2.1 < x.2.2 ∧ x.2.2 ≤ s.utf8ByteSize) ∧
    (scanBytes s).Pairwise (fun x y => x.2.2 ≤ y.2.1) ∧
    parse ("ECHO " ++ s) = .ok (.echo (Text.trimBlank s)) ∧
    ∀ ty ts act, parse s = .ok (.setBreak ty ts act) →
      act = ((scan s).find? fun l => l.lexeme == .token .semicolon).bind fun l =>
        let r := Text.trimBlank (textFrom s l.stop); if r.isEmpty then none else some r := by
  -- the scan tiles the characters of the line from its first position
  have ht : Tiling 0 s.toList (scan s) := tiling_scanFrom 0 s.toList
  obtain ⟨hbytes, hsorted⟩ := scanBytes_ordered s
  refine ⟨fun l hl => ?_, ht.sorted, fun k hk hout => ht.gap_of_uncovered k hk ?_,
    scanBytes_eq s, hbytes, hsorted, parse_echo s, fun _ _ _ h => parse_break_action h⟩
  · obtain ⟨-, hlt, hle, hspells⟩ := ht.span l hl
    rw [Nat.zero_add, String.length_toList] at hle
    rw [Nat.sub_zero] at hspells
    exact ⟨hlt, hle, hspells⟩
  · simpa only [Nat.zero_add] using hout

end Command

end SimControl
