import Mathlib
import SimControl.Action
import SimControl.Proofs.RuleCommand
/-!
# Splitting an action into commands

An action's separators are its semicolon tokens up to the first quoted string left open. Read
character by character they are simpler: a walk that only knows whether it stands inside a
quote, and which quote, finds them (`separatorPositions_scanFrom`). Everything else follows
from the walk:

* `pieces_uncut`: no piece between separators holds a separator of its own;
* `uncut_trimChars`: trimming blanks off a piece keeps it so, although blanks and the
  lexer's gaps are different classes;
* `separator_outside_quoted`: no separator falls inside a quoted token, since the lexemes of a
  text are in order and do not overlap (`scanFrom_sorted`);
* `action_commands_resplit`: every command of an action is non-empty and trimmed, splitting it
  again gives it back alone, and staging an action appends its commands in order.
-/

namespace SimControl.Command

/-- A character the walk passes outside quotes without a change: no semicolon and no quote. -/
def Inert (c : Char) : Prop := c ≠ ';' ∧ c ≠ '"' ∧ c ≠ '\''

/-- Where the walk through a text stands: outside quotes, inside the quote `q`, inside `q` right
after a backslash, or stopped for good by a line feed after such a backslash. -/
inductive Walk where
  | outside
  | inside (q : Char)
  | escaped (q : Char)
  | stopped

namespace Walk

/-- Where the walk stands after the character `c`. -/
def next : Walk → Char → Walk
  | outside, c => if c = '"' ∨ c = '\'' then inside c else outside
  | inside q, c => if c = q then outside else if c = '\\' then escaped q else inside q
  | escaped q, c => if c = '\n' then stopped else inside q
  | stopped, _ => stopped

/-- The character `c` separates: a semicolon outside quotes. -/
def cutsAt : Walk → Char → Bool
  | outside, c => decide (c = ';')
  | _, _ => false

theorem next_outside (c : Char) : next outside c = if c = '"' ∨ c = '\'' then inside c else outside :=
  rfl

theorem next_inside (q c : Char) :
    next (inside q) c = if c = q then outside else if c = '\\' then escaped q else inside q := rfl

theorem next_escaped (q c : Char) : next (escaped q) c = if c = '\n' then stopped else inside q := rfl

theorem eq_outside_of_cutsAt {w : Walk} {c : Char} (h : w.cutsAt c = true) :
    w = outside ∧ c = ';' := by
  cases w with
  | outside => exact ⟨rfl, of_decide_eq_true h⟩
  | inside q | escaped q | stopped => cases h

end Walk

/-- The positions of the separators in `cs`, which starts at position `pos`, found character
by character from the walk's place `w`. -/
def cuts (w : Walk) (pos : Nat) : List Char → List Nat
  | [] => []
  | c :: cs =>
    if w.cutsAt c then pos :: cuts (w.next c) (pos + 1) cs else cuts (w.next c) (pos + 1) cs

/-! The walk one character at a time. Each step holds by unfolding alone, so no proof below
needs the equations Lean would otherwise generate for `cuts`. -/

theorem cuts_cons (w : Walk) (pos : Nat) (c : Char) (cs : List Char) :
    cuts w pos (c :: cs) =
      if w.cutsAt c then pos :: cuts (w.next c) (pos + 1) cs else cuts (w.next c) (pos + 1) cs :=
  rfl

theorem cuts_semicolon (pos : Nat) (cs : List Char) :
    cuts .outside pos (';' :: cs) = pos :: cuts .outside (pos + 1) cs := rfl

/-- A character that does not separate only moves the walk on. -/
theorem cuts_pass (w : Walk) (c : Char) (h : w.cutsAt c = false) (pos : Nat) (cs : List Char) :
    cuts w pos (c :: cs) = cuts (w.next c) (pos + 1) cs := by
  rw [cuts_cons, h, if_neg Bool.false_ne_true]

theorem cuts_open {c : Char} (hq : c = '"' ∨ c = '\'') (pos : Nat) (cs : List Char) :
    cuts .outside pos (c :: cs) = cuts (.inside c) (pos + 1) cs := by
  have hsemi : c ≠ ';' := by rcases hq with rfl | rfl <;> decide
  rw [cuts_pass .outside c (decide_eq_false hsemi), Walk.next_outside, if_pos hq]

theorem cuts_inert_cons {c : Char} (hc : Inert c) (pos : Nat) (cs : List Char) :
    cuts .outside pos (c :: cs) = cuts .outside (pos + 1) cs := by
  obtain ⟨hsemi, hdq, hsq⟩ := hc
  have hq : ¬(c = '"' ∨ c = '\'') := fun h => h.elim hdq hsq
  rw [cuts_pass .outside c (decide_eq_false hsemi), Walk.next_outside, if_neg hq]

theorem cuts_close (q : Char) (pos : Nat) (cs : List Char) :
    cuts (.inside q) pos (q :: cs) = cuts .outside (pos + 1) cs := by
  rw [cuts_pass (.inside q) q rfl, Walk.next_inside, if_pos rfl]

theorem cuts_backslash {q : Char} (hq : '\\' ≠ q) (pos : Nat) (cs : List Char) :
    cuts (.inside q) pos ('\\' :: cs) = cuts (.escaped q) (pos + 1) cs := by
  rw [cuts_pass (.inside q) '\\' rfl, Walk.next_inside, if_neg hq, if_pos rfl]

theorem cuts_inside {q c : Char} (hc : ¬c = q) (hb : ¬c = '\\') (pos : Nat) (cs : List Char) :
    cuts (.inside q) pos (c :: cs) = cuts (.inside q) (pos + 1) cs := by
  rw [cuts_pass (.inside q) c rfl, Walk.next_inside, if_neg hc, if_neg hb]

theorem cuts_escaped {q d : Char} (hd : ¬d = '\n') (pos : Nat) (cs : List Char) :
    cuts (.escaped q) pos (d :: cs) = cuts (.inside q) (pos + 1) cs := by
  rw [cuts_pass (.escaped q) d rfl, Walk.next_escaped, if_neg hd]

/-- A stopped walk finds no more separators. -/
theorem cuts_stopped (pos : Nat) (cs : List Char) : cuts .stopped pos cs = [] := by
  induction cs generalizing pos with
  | nil => rfl
  | cons c cs ih => exact ih (pos + 1)

theorem cuts_escaped_newline (q : Char) (pos : Nat) (cs : List Char) :
    cuts (.escaped q) pos ('\n' :: cs) = [] :=
  cuts_stopped (pos + 1) cs

/-- Inert characters move the walk along and nothing else. -/
theorem cuts_drop_of_inert {n : Nat} {cs : List Char} (h : ∀ x ∈ cs.take n, Inert x) (pos : Nat) :
    cuts .outside pos cs = cuts .outside (pos + n) (cs.drop n) := by
  induction n generalizing cs pos with
  | zero => rfl
  | succ n ih =>
    cases cs with
    | nil => rfl
    | cons c cs =>
      rw [List.take_succ_cons] at h
      rw [cuts_inert_cons (h c List.mem_cons_self), ih (fun x hx => h x (List.mem_cons_of_mem c hx)),
        List.drop_succ_cons, Nat.add_right_comm, Nat.add_assoc]

/-- Where the walk starts only moves its positions. -/
theorem cuts_shift (w : Walk) (pos d : Nat) (cs : List Char) :
    cuts w (pos + d) cs = (cuts w pos cs).map (· + d) := by
  induction cs generalizing w pos with
  | nil => rfl
  | cons c cs ih =>
    rw [cuts_cons, cuts_cons, Nat.add_right_comm, ih]
    cases w.cutsAt c <;> rfl

theorem cuts_inert_append {xs : List Char} (h : ∀ x ∈ xs, Inert x) (pos : Nat) (ys : List Char) :
    cuts .outside pos (xs ++ ys) = cuts .outside (pos + xs.length) ys := by
  have hxs : ∀ x ∈ (xs ++ ys).take xs.length, Inert x := by rwa [List.take_left]
  rw [cuts_drop_of_inert hxs pos, List.drop_left]

theorem cuts_eq_nil_iff (w : Walk) (pos : Nat) (cs : List Char) :
    cuts w pos cs = [] ↔ cuts w 0 cs = [] := by
  have h := cuts_shift w 0 pos cs
  rw [Nat.zero_add] at h
  rw [h, List.map_eq_nil_iff]

/-- A quoted string, read by the walk inside its quote: up to its closing quote if it has one,
where the walk goes on outside; a string left open ends the walk's separators. -/
theorem cuts_of_quotedRun {q : Char} {cs : List Char} {n : Nat} {closed : Bool}
    (h : quotedRun q cs = (n, closed)) (pos : Nat) :
    cuts (.inside q) pos cs = if closed then cuts .outside (pos + n) (cs.drop n) else [] := by
  fun_induction quotedRun q cs generalizing n closed pos with
  | case1 =>
    simp only [Prod.mk.injEq] at h
    rw [← h.2]
    rfl
  | case2 ds =>
    simp only [Prod.mk.injEq] at h
    rw [← h.1, ← h.2, cuts_close, if_pos rfl, List.drop_one, List.tail_cons]
  | case3 hb =>
    simp only [Prod.mk.injEq] at h
    rw [← h.2, cuts_backslash hb, if_neg Bool.false_ne_true]
    rfl
  | case4 ds hb =>
    simp only [Prod.mk.injEq] at h
    rw [← h.2, cuts_backslash hb, cuts_escaped_newline, if_neg Bool.false_ne_true]
  | case5 d ds hd m c hrun hb ih =>
    simp only [Prod.mk.injEq] at h
    rw [← h.1, ← h.2, cuts_backslash hb, cuts_escaped hd, ih hrun, List.drop_succ_cons,
      List.drop_succ_cons, show pos + 1 + 1 + m = pos + (m + 2) by omega]
  | case6 d ds hdq hdb m c hrun ih =>
    simp only [Prod.mk.injEq] at h
    rw [← h.1, ← h.2, cuts_inside hdq hdb, ih hrun, List.drop_succ_cons, Nat.add_right_comm,
      Nat.add_assoc]

/-- Walking a prefix finds a prefix of the separators: the walk never looks ahead. -/
theorem cuts_prefix (w : Walk) (pos : Nat) (xs ys : List Char) :
    cuts w pos xs <+: cuts w pos (xs ++ ys) := by
  induction xs generalizing w pos with
  | nil => exact List.nil_prefix
  | cons c cs ih =>
    rw [List.cons_append, cuts_cons, cuts_cons]
    cases w.cutsAt c with
    | false => exact ih (w.next c) (pos + 1)
    | true => exact (List.prefix_cons_inj pos).mpr (ih (w.next c) (pos + 1))

/-- The first separator the walk finds splits the text at a semicolon; the walk starts again
outside quotes after it. -/
theorem cuts_eq_cons {w : Walk} {pos : Nat} {cs : List Char} :
    ∀ {k : Nat} {rest : List Nat}, cuts w pos cs = k :: rest →
      ∃ p r, cs = p ++ ';' :: r ∧ k = pos + p.length ∧ cuts w pos p = [] ∧
        rest = cuts .outside (k + 1) r := by
  induction cs generalizing w pos with
  | nil => intro k rest h; cases h
  | cons c cs ih =>
    intro k rest h
    rw [cuts_cons] at h
    cases hcut : w.cutsAt c with
    | true =>
      -- the walk cuts here: a semicolon outside quotes, after which it stays outside
      obtain ⟨rfl, rfl⟩ := Walk.eq_outside_of_cutsAt hcut
      rw [if_pos hcut] at h
      obtain ⟨rfl, rfl⟩ := List.cons.inj h
      exact ⟨[], cs, rfl, rfl, rfl, rfl⟩
    | false =>
      rw [hcut, if_neg Bool.false_ne_true] at h
      obtain ⟨p, r, rfl, rfl, hp, hr⟩ := ih h
      refine ⟨c :: p, r, rfl, ?_, ?_, hr⟩
      · rw [List.length_cons]
        omega
      · rw [cuts_pass w c hcut, hp]

/-! ## The lexer's separators are the walk's -/

theorem inert_of_isWordChar {c : Char} (h : isWordChar c = true) : Inert c := by
  simp only [isWordChar, Bool.not_eq_true', Bool.or_eq_false_iff, decide_eq_false_iff_not] at h
  obtain ⟨⟨⟨⟨⟨-, hsemi⟩, -⟩, hdq⟩, hsq⟩, -⟩ := h
  exact ⟨hsemi, hdq, hsq⟩

theorem inert_of_isPad {c : Char} (h : isPad c = true) : Inert c := by
  simp only [isPad, Bool.or_eq_true, decide_eq_true_eq] at h
  rcases h with rfl | rfl <;> exact ⟨by decide, by decide, by decide⟩

theorem inert_of_isDigit {c : Char} (h : isDigit c = true) : Inert c := by
  simp only [isDigit, Bool.and_eq_true, decide_eq_true_eq] at h
  refine ⟨?_, ?_, ?_⟩ <;> rintro rfl <;> revert h <;> decide

/-- A count reads pads, digits, pads and its closing bracket: nothing the walk stops at. -/
theorem countRun_inert (cs : List Char) : ∀ x ∈ cs.take (countRun cs).2, Inert x := by
  -- the text is pads, digits and pads, then what follows; a count takes at most one more
  obtain ⟨P, r, hcs, hP, hn⟩ : ∃ P r, cs = P ++ r ∧ (∀ x ∈ P, Inert x) ∧
      ((countRun cs).2 ≤ P.length ∨ ((countRun cs).2 = P.length + 1 ∧ r.head? = some ']')) := by
    let r₁ := cs.dropWhile isPad
    let r₂ := r₁.dropWhile isDigit
    refine ⟨cs.takeWhile isPad ++ (r₁.takeWhile isDigit ++ r₂.takeWhile isPad), r₂.dropWhile isPad,
      by simp only [r₁, r₂, List.append_assoc, List.takeWhile_append_dropWhile], ?_, ?_⟩
    · intro x hx
      simp only [List.mem_append] at hx
      rcases hx with hx | hx | hx
      · exact inert_of_isPad (List.mem_takeWhile_imp hx)
      · exact inert_of_isDigit (List.mem_takeWhile_imp hx)
      · exact inert_of_isPad (List.mem_takeWhile_imp hx)
    · unfold countRun
      dsimp only
      split
      · left
        simp only [r₁, r₂, List.length_append]
        omega
      · split
        · next hr => exact .inr ⟨by simp only [r₁, r₂, List.length_append]; omega, by rw [hr]; rfl⟩
        · left
          simp only [r₁, r₂, List.length_append]
          omega
  generalize (countRun cs).2 = m at hn
  intro x hx
  rw [hcs] at hx
  rcases hn with hle | ⟨rfl, hhead⟩
  · rw [List.take_append_of_le_length hle] at hx
    exact hP x (List.mem_of_mem_take hx)
  · obtain ⟨t, rfl⟩ : ∃ t, r = ']' :: t := by
      cases r with
      | nil => cases hhead
      | cons d t =>
        cases hhead
        exact ⟨t, rfl⟩
    rw [List.take_append, List.take_of_length_le (by omega), Nat.add_sub_cancel_left,
      List.take_one, List.mem_append] at hx
    rcases hx with hx | hx
    · exact hP x hx
    · rw [List.head?_cons, Option.toList_some, List.mem_singleton] at hx
      subst hx
      exact ⟨by decide, by decide, by decide⟩

theorem countRun_ne_semicolon (cs : List Char) : (countRun cs).1 ≠ some .semicolon := by
  unfold countRun
  dsimp only
  split
  · intro h; cases h
  · split
    · split <;> (intro h; cases h)
    · intro h; cases h

theorem classifyWord_ne_semicolon (run : List Char) : classifyWord run ≠ some .semicolon := by
  unfold classifyWord
  split
  · intro h; cases h
  · split
    · dsimp only
      split <;> (intro h; cases h)
    · intro h; cases h

/-- A lexeme that starts with no semicolon and no quote reads nothing the walk stops at, and is
no separator. -/
theorem scanAt_inert {c : Char} (hc : Inert c) (cs : List Char) :
    (∀ x ∈ cs.take (scanAt c cs).2, Inert x) ∧ (scanAt c cs).1 ≠ some .semicolon := by
  obtain ⟨hsemi, hdq, hsq⟩ := hc
  unfold scanAt
  rw [if_neg hsemi]
  split_ifs with hcomma hq hbr
  · exact ⟨fun x hx => by simp at hx, by intro h; cases h⟩
  · exact absurd hq (by simp [hdq, hsq])
  · exact ⟨countRun_inert cs, countRun_ne_semicolon cs⟩
  · -- a word runs over word characters only
    have htake : cs.take (cs.takeWhile isWordChar).length = cs.takeWhile isWordChar :=
      calc cs.take (cs.takeWhile isWordChar).length
          = (cs.takeWhile isWordChar ++ cs.dropWhile isWordChar).take (cs.takeWhile isWordChar).length := by
            rw [List.takeWhile_append_dropWhile]
        _ = cs.takeWhile isWordChar := List.take_left
    refine ⟨fun x hx => ?_, classifyWord_ne_semicolon _⟩
    rw [htake] at hx
    exact inert_of_isWordChar (List.mem_takeWhile_imp hx)

theorem inert_of_isGap {c : Char} (h : isGap c = true) : Inert c := by
  simp only [isGap, Bool.or_eq_true, decide_eq_true_eq] at h
  rcases h with (((h | h) | h) | h) | h <;> subst h <;> exact ⟨by decide, by decide, by decide⟩

end SimControl.Command

namespace SimControl

open Command

theorem separatorPositions_token {t : Token} (ht : t ≠ .semicolon) (a b : Nat) (rest : List Lexed) :
    separatorPositions (⟨.token t, a, b⟩ :: rest) = separatorPositions rest := by
  cases t <;> first | rfl | exact absurd rfl ht

theorem separatorPositions_bad {c : Char} (hc : c ≠ '"' ∧ c ≠ '\'') (t : List Char) (a b : Nat)
    (rest : List Lexed) :
    separatorPositions (⟨.bad (String.ofList (c :: t)), a, b⟩ :: rest) = separatorPositions rest := by
  rw [separatorPositions.eq_2]
  dsimp only
  rw [String.toList_ofList]
  split
  · next heq => exact absurd (List.cons.inj heq).1 hc.1
  · next heq => exact absurd (List.cons.inj heq).1 hc.2
  · rfl

theorem separatorPositions_open {c : Char} (hq : c = '"' ∨ c = '\'') (t : List Char) (a b : Nat)
    (rest : List Lexed) : separatorPositions (⟨.bad (String.ofList (c :: t)), a, b⟩ :: rest) = [] := by
  rw [separatorPositions.eq_2]
  dsimp only
  rw [String.toList_ofList]
  rcases hq with rfl | rfl <;> rfl

/-- The separators of a text are the semicolons the walk finds: outside quotes, up to the
first quoted string left open. -/
theorem separatorPositions_scanFrom (pos : Nat) (cs : List Char) :
    separatorPositions (scanFrom pos cs) = (cuts .outside pos cs).map fun k => (k, k + 1) := by
  fun_induction scanFrom pos cs with
  | case1 pos => rfl
  | case2 pos d ds hgap ih => rw [cuts_inert_cons (inert_of_isGap hgap), ih]
  | case3 pos d ds hgap found n hscan lexeme ih =>
    by_cases hsemi : d = ';'
    · -- a semicolon is a token of its own and a separator
      subst hsemi
      simp only [scanAt, if_true, Prod.mk.injEq] at hscan
      obtain ⟨rfl, rfl⟩ := hscan
      simp only [lexeme, Nat.add_zero, List.drop_zero] at ih ⊢
      rw [separatorPositions.eq_2, cuts_semicolon, List.map_cons, ih]
    · by_cases hq : d = '"' ∨ d = '\''
      · -- a quoted string: the walk goes inside it, and on after it if it is closed
        have hcomma : d ≠ ',' := by rcases hq with rfl | rfl <;> decide
        rcases hrun : quotedRun d ds with ⟨m, closed⟩
        simp only [scanAt, if_neg hsemi, if_neg hcomma, if_pos hq, hrun, Prod.mk.injEq] at hscan
        obtain ⟨rfl, rfl⟩ := hscan
        rw [cuts_open hq, cuts_of_quotedRun hrun]
        cases closed with
        | true =>
          simp only [lexeme, if_true]
          rw [separatorPositions_token (t := .quoted (String.ofList (d :: ds.take m))) (by intro h; cases h),
            ih, show pos + 1 + m = pos + m + 1 by omega]
        | false =>
          simp only [lexeme, Bool.false_eq_true, if_false]
          rw [separatorPositions_open hq, List.map_nil]
      · -- any other lexeme reads only characters the walk passes by
        have hd : Inert d := ⟨hsemi, fun h => hq (.inl h), fun h => hq (.inr h)⟩
        obtain ⟨hrun, hne⟩ := scanAt_inert hd ds
        rw [hscan] at hrun hne
        rw [cuts_inert_cons hd, cuts_drop_of_inert hrun, show pos + 1 + n = pos + n + 1 by omega, ← ih]
        cases found with
        | some t => exact separatorPositions_token (fun h => hne (congrArg some h)) _ _ _
        | none => exact separatorPositions_bad ⟨fun h => hq (.inl h), fun h => hq (.inr h)⟩ _ _ _ _

/-! ## Pieces and commands -/

/-- No piece between the separators the walk finds holds a separator of its own. -/
theorem pieces_uncut (cs : List Char) (pos : Nat) :
    ∀ piece ∈ piecesBetween cs pos ((cuts .outside pos cs).map fun k => (k, k + 1)),
      cuts .outside 0 piece.toList = [] := by
  induction h : cs.length using Nat.strong_induction_on generalizing cs pos with
  | _ len ih =>
    cases hc : cuts .outside pos cs with
    | nil =>
      intro piece hp
      rw [List.map_nil, piecesBetween, List.mem_singleton] at hp
      rw [hp, String.toList_ofList, ← cuts_eq_nil_iff]
      exact hc
    | cons k rest =>
      -- the first piece ends at the first separator; the rest of the text is split alike
      obtain ⟨p, r, rfl, rfl, hp, rfl⟩ := cuts_eq_cons hc
      intro piece hpiece
      rw [List.map_cons, piecesBetween, List.mem_cons] at hpiece
      have htake : (p ++ ';' :: r).take (pos + p.length - pos) = p := by
        rw [Nat.add_sub_cancel_left, List.take_left]
      have hdrop : (p ++ ';' :: r).drop (pos + p.length + 1 - pos) = r := by
        have hlen : pos + p.length + 1 - pos = (p ++ [';']).length := by
          rw [List.length_append, List.length_singleton]
          omega
        rw [hlen, show p ++ ';' :: r = p ++ [';'] ++ r by simp, List.drop_left]
      rw [htake, hdrop] at hpiece
      rcases hpiece with rfl | hpiece
      · rw [String.toList_ofList, ← cuts_eq_nil_iff]
        exact hp
      · refine ih r.length ?_ r _ rfl piece hpiece
        rw [← h, List.length_append, List.length_cons]
        omega

theorem inert_of_isBlank {c : Char} (h : Text.isBlank c = true) : Inert c := by
  refine ⟨?_, ?_, ?_⟩ <;> rintro rfl <;> revert h <;> decide

/-- Trimming a piece keeps it free of separators: a blank is neither a semicolon nor a quote,
and the walk never looks ahead. -/
theorem uncut_trimChars {cs : List Char} (h : cuts .outside 0 cs = []) :
    cuts .outside 0 (Text.trimChars cs) = [] := by
  have hlead : cuts .outside 0 (cs.dropWhile Text.isBlank) = [] := by
    have hblank : ∀ x ∈ cs.takeWhile Text.isBlank, Inert x :=
      fun x hx => inert_of_isBlank (List.mem_takeWhile_imp hx)
    have hsplit := cuts_inert_append hblank 0 (cs.dropWhile Text.isBlank)
    rw [List.takeWhile_append_dropWhile, h, eq_comm, cuts_eq_nil_iff] at hsplit
    exact hsplit
  have hpre := cuts_prefix .outside 0 ((cs.dropWhile Text.isBlank).rdropWhile Text.isBlank)
    ((cs.dropWhile Text.isBlank).rtakeWhile Text.isBlank)
  rw [List.rdropWhile_append_rtakeWhile, hlead, List.prefix_nil] at hpre
  rw [Text.trimChars_eq_rdropWhile]
  exact hpre

/-! ## Lexemes in order -/

/-- The lexemes of a text start no sooner than the text, come in order and do not overlap. -/
theorem scanFrom_sorted (pos : Nat) (cs : List Char) :
    (∀ l ∈ scanFrom pos cs, pos ≤ l.start) ∧
      (scanFrom pos cs).Pairwise fun l₁ l₂ => l₁.stop ≤ l₂.start := by
  fun_induction scanFrom pos cs with
  | case1 => exact ⟨fun l hl => (by cases hl), .nil⟩
  | case2 pos d ds _ ih => exact ⟨fun l hl => Nat.le_of_succ_le (ih.1 l hl), ih.2⟩
  | case3 pos d ds _ found n _ lexeme ih =>
    -- the rest of the text starts where this lexeme stops
    refine ⟨fun l hl => ?_, .cons (fun l hl => ih.1 l hl) ih.2⟩
    rcases List.mem_cons.mp hl with rfl | hl
    · exact le_refl pos
    · have := ih.1 l hl
      omega

theorem mem_separatorPositions {L : List Lexed} {p : Nat × Nat} (h : p ∈ separatorPositions L) :
    ∃ l ∈ L, l.lexeme = .token .semicolon ∧ p = (l.start, l.stop) := by
  induction L with
  | nil => cases h
  | cons l rest ih =>
    rw [separatorPositions.eq_2] at h
    split at h
    · next hsemi =>
      rcases List.mem_cons.mp h with rfl | h
      · exact ⟨l, List.mem_cons_self, hsemi, rfl⟩
      · obtain ⟨l', hl', hs, hp⟩ := ih h
        exact ⟨l', List.mem_cons_of_mem l hl', hs, hp⟩
    · split at h
      · cases h
      · cases h
      · obtain ⟨l', hl', hs, hp⟩ := ih h
        exact ⟨l', List.mem_cons_of_mem l hl', hs, hp⟩
    · obtain ⟨l', hl', hs, hp⟩ := ih h
      exact ⟨l', List.mem_cons_of_mem l hl', hs, hp⟩

/-- No separator falls inside a quoted token: both are lexemes, and lexemes do not overlap. -/
theorem separator_outside_quoted (pos : Nat) (cs : List Char) :
    ∀ l ∈ scanFrom pos cs, (∃ q, l.lexeme = .token (.quoted q)) →
      ∀ p ∈ separatorPositions (scanFrom pos cs), p.2 ≤ l.start ∨ l.stop ≤ p.1 := by
  rintro l hl ⟨q, hq⟩ p hp
  obtain ⟨l', hl', hsemi, rfl⟩ := mem_separatorPositions hp
  have hne : l ≠ l' := by
    rintro rfl
    rw [hq] at hsemi
    cases hsemi
  have hsym : (scanFrom pos cs).Pairwise fun l₁ l₂ => l₁.stop ≤ l₂.start ∨ l₂.stop ≤ l₁.start :=
    (scanFrom_sorted pos cs).2.imp Or.inl
  exact (@List.Pairwise.forall _ _ _ ⟨fun _ _ h => h.symm⟩ hsym l hl l' hl' hne).symm

/-! ## Commands of an action -/

/-- The commands of an action, and splitting them again. Every command is non-empty and
trimmed, and splitting it again gives it back alone: the piece it was trimmed from held no
separator, and trimming adds none. No separator falls inside a quoted token, so each quoted
string lies within one command; and staging an action appends its commands in order. -/
theorem action_commands_resplit (a : String) :
    (∀ c ∈ splitCommands a, c ≠ "" ∧ Text.trimBlank c = c ∧ splitCommands c = [c]) ∧
    (∀ l ∈ Command.scan a, (∃ q, l.lexeme = .token (.quoted q)) →
      ∀ p ∈ separatorPositions (Command.scan a), p.2 ≤ l.start ∨ l.stop ≤ p.1) ∧
    ∀ queue : ActionQueue, (queue.stage a).commands = queue.commands ++ splitCommands a := by
  refine ⟨fun c hc => ?_, separator_outside_quoted 0 a.toList, fun _ => rfl⟩
  unfold splitCommands at hc
  obtain ⟨piece, hpiece, hc⟩ := List.mem_filterMap.mp hc
  dsimp only at hc
  split at hc
  · cases hc
  · next hne =>
    cases hc
    rw [scan, separatorPositions_scanFrom] at hpiece
    have hcut : cuts .outside 0 (Text.trimBlank piece).toList = [] := by
      rw [Text.trimBlank_toList]
      exact uncut_trimChars (pieces_uncut a.toList 0 piece hpiece)
    have htrim : Text.trimBlank (Text.trimBlank piece) = Text.trimBlank piece :=
      Text.trimBlank_of_trimmed (Text.trimmed_trimBlank piece)
    refine ⟨fun h => hne (by rw [h]; rfl), htrim, ?_⟩
    unfold splitCommands
    rw [scan, separatorPositions_scanFrom, hcut, List.map_nil, piecesBetween, String.ofList_toList,
      List.filterMap_cons, List.filterMap_nil]
    dsimp only
    rw [htrim, if_neg hne]

end SimControl
