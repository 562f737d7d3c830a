import Mathlib
import SimControl.Command.Parse
import SimControl.Proofs.QuotedRoundTrip
/-!
# A quoted literal is one token

The lexer finds a quoted string by its grammar alone: a quote, then characters other than that
quote and the backslash or a backslash with any character but a line feed, then the quote again
(`QuotedText`). The reader of quoted strings is a separate piece of code, yet every literal it
accepts is in that grammar (`quotedText_of_decodeBody`), so the lexer reads such a literal as a
single token that covers the whole text (`scanBytes_of_decode`). A literal written by `encode`
can therefore be typed back after SEND or EXPECT (`quoted_literal_reads_back`).

* `quotedRun_append`: the scan of a quoted token stops at the first quote of its own kind that
  no backslash takes.
* `scanFrom_word_gap`: a command word followed by a blank is one token.
-/

namespace SimControl.Command

open Text.Quoted

/-- The text between the quotes of a quoted token delimited by `q`: characters other than `q`
and the backslash, and pairs of a backslash and any character but a line feed. -/
inductive QuotedText (q : Char) : List Char → Prop
  | nil : QuotedText q []
  | plain {c : Char} {cs : List Char} : c ≠ q → c ≠ '\\' → QuotedText q cs → QuotedText q (c :: cs)
  | escaped {d : Char} {cs : List Char} : d ≠ '\n' → QuotedText q cs →
      QuotedText q ('\\' :: d :: cs)

theorem QuotedText.append_of_plain {q : Char} {pre post : List Char}
    (hpre : ∀ c ∈ pre, c ≠ q ∧ c ≠ '\\') (hpost : QuotedText q post) : QuotedText q (pre ++ post) := by
  induction pre with
  | nil => exact hpost
  | cons c cs ih =>
    have hc := hpre c List.mem_cons_self
    exact .plain hc.1 hc.2 (ih fun c' hc' => hpre c' (List.mem_cons_of_mem c hc'))

/-! ## The lexer's side -/

/-- The scan of a quoted token reads its text and stops at the closing quote. -/
theorem quotedRun_append {q : Char} (hq : q ≠ '\\') {body : List Char} (h : QuotedText q body)
    (rest : List Char) : quotedRun q (body ++ q :: rest) = (body.length + 1, true) := by
  induction h with
  | nil =>
    rw [List.nil_append, quotedRun.eq_def]
    simp
  | @plain c cs hcq hcb _ ih =>
    rw [List.cons_append, quotedRun.eq_def]
    simp only [hcq, hcb, if_false, ih, List.length_cons]
  | @escaped d cs hd _ ih =>
    rw [List.cons_append, List.cons_append, quotedRun.eq_def]
    simp only [Ne.symm hq, if_false, if_true, hd, ih, List.length_cons]

/-- A quoted literal in the grammar is one token, whatever follows it. -/
theorem scanFrom_quoted_append {q : Char} (hq : q = '"' ∨ q = '\'') {body : List Char}
    (h : QuotedText q body) (pos : Nat) (rest : List Char) :
    scanFrom pos (q :: (body ++ q :: rest)) =
      ⟨.token (.quoted (String.ofList (q :: (body ++ [q])))), pos, pos + body.length + 2⟩ ::
        scanFrom (pos + body.length + 2) rest := by
  have hgap : isGap q = false := by rcases hq with rfl | rfl <;> rfl
  have hsemi : q ≠ ';' := by rcases hq with rfl | rfl <;> decide
  have hcomma : q ≠ ',' := by rcases hq with rfl | rfl <;> decide
  have hbs : q ≠ '\\' := by rcases hq with rfl | rfl <;> decide
  have hrun := quotedRun_append hbs h rest
  have hsplit : body ++ q :: rest = (body ++ [q]) ++ rest := by simp
  have hlen : body.length + 1 = (body ++ [q]).length := by simp
  have htake : (body ++ q :: rest).take (body.length + 1) = body ++ [q] := by
    rw [hsplit, hlen, List.take_left]
  have hdrop : (body ++ q :: rest).drop (body.length + 1) = rest := by
    rw [hsplit, hlen, List.drop_left]
  rw [scanFrom.eq_2]
  simp only [hgap, Bool.false_eq_true, if_false, scanAt, hsemi, hcomma, hq, if_true, hrun, htake,
    hdrop]
  simp only [Nat.add_assoc]

/-- A quoted literal in the grammar is one token, wherever it starts. -/
theorem scanFrom_quoted {q : Char} (hq : q = '"' ∨ q = '\'') {body : List Char}
    (h : QuotedText q body) (pos : Nat) :
    scanFrom pos (q :: (body ++ [q])) =
      [⟨.token (.quoted (String.ofList (q :: (body ++ [q])))), pos, pos + body.length + 2⟩] := by
  rw [scanFrom_quoted_append hq h pos [], scanFrom.eq_1]

/-- The lexer's position along characters against their UTF-8 bytes: moving to the end of the
characters passes their bytes. -/
theorem advanceTo_length (cs : List Char) (i b : Nat) :
    advanceTo cs i b (i + cs.length) = ([], i + cs.length, b + (cs.map Char.utf8Size).sum) := by
  induction cs generalizing i b with
  | nil => rfl
  | cons c cs ih =>
    have hi : ¬(i + (c :: cs).length ≤ i) := by simp
    rw [advanceTo, if_neg hi, List.length_cons, show i + (cs.length + 1) = i + 1 + cs.length by omega,
      ih, List.map_cons, List.sum_cons]
    simp only [Nat.add_assoc, Nat.add_comm 1]

theorem advanceTo_self (cs : List Char) (i b : Nat) : advanceTo cs i b i = (cs, i, b) := by
  cases cs with
  | nil => rfl
  | cons c cs => simp [advanceTo]

theorem utf8ByteSize_ofList (l : List Char) : (String.ofList l).utf8ByteSize = (l.map Char.utf8Size).sum := by
  induction l with
  | nil => rfl
  | cons c l ih =>
    have h : String.ofList (c :: l) = String.singleton c ++ String.ofList l := by
      rw [String.singleton_eq_ofList, ← String.ofList_append]
      rfl
    rw [h, String.utf8ByteSize_append, String.utf8ByteSize_singleton, ih, List.map_cons,
      List.sum_cons]

/-! ## The reader's side -/

/-- The characters that extra escape digits take are digits the reader accepts. -/
theorem isSome_of_mem_take_moreDigits {digit : Char → Option Nat} {radix : Nat} :
    ∀ (n acc : Nat) (cs : List Char), ∀ c ∈ cs.take (moreDigits digit radix n acc cs).2,
      (digit c).isSome
  | 0, _, _ => by simp [moreDigits]
  | _ + 1, _, [] => by simp [moreDigits]
  | n + 1, acc, c :: cs => by
    intro c' hc'
    simp only [moreDigits] at hc'
    cases hd : digit c with
    | none => simp [hd] at hc'
    | some d =>
      simp only [hd, List.take_succ_cons, List.mem_cons] at hc'
      rcases hc' with rfl | hc'
      · simp [hd]
      · exact isSome_of_mem_take_moreDigits n _ cs c' hc'

/-- The digits after an escape are no quote and no backslash. -/
theorem plain_of_mem_take_escape? {e : Char} {tail : List Char} {b : UInt8} {k : Nat}
    (h : escape? e tail = some (b, k)) : ∀ c ∈ tail.take k, c ≠ '"' ∧ c ≠ '\'' ∧ c ≠ '\\' := by
  have hoct : ∀ c, (octalDigit? c).isSome → c ≠ '"' ∧ c ≠ '\'' ∧ c ≠ '\\' := by
    intro c hc
    refine ⟨?_, ?_, ?_⟩ <;> (rintro rfl; simp [octalDigit?] at hc)
  have hhex : ∀ c, (hexDigit? c).isSome → c ≠ '"' ∧ c ≠ '\'' ∧ c ≠ '\\' := by
    intro c hc
    refine ⟨?_, ?_, ?_⟩ <;> (rintro rfl; simp [hexDigit?] at hc)
  unfold escape? at h
  split at h
  · -- a named escape takes no digits
    simp only [Option.some.injEq, Prod.mk.injEq] at h
    rw [← h.2]
    simp
  · split at h
    · simp only [Option.some.injEq, Prod.mk.injEq] at h
      rw [← h.2]
      exact fun c hc => hoct c (isSome_of_mem_take_moreDigits _ _ _ c hc)
    · split at h
      · simp only [Option.some.injEq, Prod.mk.injEq] at h
        rw [← h.2]
        exact fun c hc => hhex c (isSome_of_mem_take_moreDigits _ _ _ c hc)
      · cases h

/-- Every body the reader accepts is in the lexer's grammar. -/
theorem quotedText_of_decodeBody {q : Char} (hq : q = '"' ∨ q = '\'') {pos : Nat}
    {body : List Char} {d : List UInt8} (h : decodeBody q pos body = .ok d) : QuotedText q body := by
  fun_induction decodeBody q pos body generalizing d with
  | case1 => exact .nil
  | case2 => cases h
  | case3 => cases h
  | case4 pos e tail b k hesc _ ih =>
    cases hrest : decodeBody q (pos + 2 + k) (tail.drop k) with
    | error f => rw [hrest] at h; cases h
    | ok d' =>
      -- the escape takes `k` digits, which are plain characters of the grammar
      have hline : e ≠ '\n' := by
        rintro rfl
        cases hesc
      have hdigits : ∀ c ∈ tail.take k, c ≠ q ∧ c ≠ '\\' := by
        intro c hc
        obtain ⟨h₁, h₂, h₃⟩ := plain_of_mem_take_escape? hesc c hc
        exact ⟨by rcases hq with rfl | rfl <;> assumption, h₃⟩
      have htail := QuotedText.append_of_plain hdigits (ih hrest)
      rw [List.take_append_drop] at htail
      exact .escaped hline htail
  | case5 => cases h
  | case6 pos c rest hbs hcq ih =>
    cases hrest : decodeBody q (pos + c.utf8Size) rest with
    | error f => rw [hrest] at h; cases h
    | ok d' => exact .plain hcq hbs (ih hrest)

theorem delimited?_eq_some {cs body : List Char} {q : Char} (h : delimited? cs = some (q, body)) :
    (q = '"' ∨ q = '\'') ∧ cs = q :: (body ++ [q]) := by
  match cs, h with
  | q' :: c :: rest, h =>
    simp only [delimited?] at h
    split at h
    · rename_i hcond
      simp only [Option.some.injEq, Prod.mk.injEq] at h
      obtain ⟨rfl, rfl⟩ := h
      obtain ⟨ys, hys⟩ := List.getLast?_eq_some_iff.mp hcond.2
      refine ⟨hcond.1, ?_⟩
      rw [hys, List.dropLast_concat]
    · cases h

/-! ## Whole lines -/

/-- Every literal the reader accepts is one quoted token over the whole text. -/
theorem scan_of_decode {s : String} {d : List UInt8} (h : decode s = .ok d) :
    scan s = [⟨.token (.quoted s), 0, s.length⟩] := by
  unfold decode decodeChars at h
  split at h
  · cases h
  · rename_i q body hdel
    obtain ⟨hq, hcs⟩ := delimited?_eq_some hdel
    have hlen : s.length = body.length + 2 := by
      rw [← String.length_toList, hcs]
      simp
    rw [scan, hcs, scanFrom_quoted hq (quotedText_of_decodeBody hq h), ← hcs, String.ofList_toList,
      hlen, Nat.zero_add]

/-- The same with the byte offsets the lexer reports: the token spans the whole UTF-8 text. -/
theorem scanBytes_of_decode {s : String} {d : List UInt8} (h : decode s = .ok d) :
    scanBytes s = [(.token (.quoted s), 0, s.utf8ByteSize)] := by
  have hbytes : s.utf8ByteSize = (s.toList.map Char.utf8Size).sum := by
    rw [← utf8ByteSize_ofList, String.ofList_toList]
  have hend := advanceTo_length s.toList 0 0
  rw [Nat.zero_add, Nat.zero_add, String.length_toList] at hend
  rw [scanBytes, scan_of_decode h, spansFrom, advanceTo_self]
  simp only [hend, spansFrom, hbytes, List.reverse_singleton]

/-- A word of word characters, followed by a blank, is one token; the scan goes on after the
blank. -/
theorem scanFrom_word_gap {c : Char} {cs : List Char} (hw : ∀ x ∈ c :: cs, isWordChar x = true)
    {t : Token} (ht : classifyWord (c :: cs) = some t) (pos : Nat) (rest : List Char) :
    scanFrom pos (c :: cs ++ ' ' :: rest) =
      ⟨.token t, pos, pos + cs.length + 1⟩ :: scanFrom (pos + cs.length + 2) rest := by
  have hc := hw c List.mem_cons_self
  have hcs : ∀ x ∈ cs, isWordChar x = true := fun x hx => hw x (List.mem_cons_of_mem c hx)
  simp only [isWordChar, Bool.not_eq_true', Bool.or_eq_false_iff, decide_eq_false_iff_not] at hc
  obtain ⟨⟨⟨⟨⟨hgap, hsemi⟩, hcomma⟩, hdq⟩, hsq⟩, hbr⟩ := hc
  have hrun : (cs ++ ' ' :: rest).takeWhile isWordChar = cs := by
    rw [List.takeWhile_append_of_pos hcs, List.takeWhile_cons_of_neg (by decide), List.append_nil]
  have hblank : scanFrom (pos + cs.length + 1) (' ' :: rest) = scanFrom (pos + cs.length + 2) rest := by
    rw [scanFrom, if_pos (by decide)]
  rw [List.cons_append, scanFrom, if_neg (by simp [hgap])]
  simp only [scanAt, hsemi, hcomma, hdq, hsq, hbr, or_self, if_false, hrun, List.take_left',
    List.drop_left', ht, hblank]

theorem readSend_quoted (line x : String) (i j : Nat) :
    readSend.run ⟨line, [⟨.token (.quoted x), i, j⟩]⟩ = .ok (.send Switches.empty none 0 0 x, ⟨line, []⟩) := by
  have htimes : sendTimes 0 0 [⟨.token (.quoted x), i, j⟩] = (0, 0, [⟨.token (.quoted x), i, j⟩]) := by
    rw [sendTimes]
  simp only [readSend, switches, onRest, line?, word?, peek, advance, quoted, expectEnd, remainder,
    StateT.run_bind]
  simp only [StateT.run, get, getThe, MonadStateOf.get, StateT.get, bind, Except.bind, pure,
    StateT.pure, Except.pure, set, StateT.set, liftM, monadLift, MonadLift.monadLift, StateT.lift,
    modify, modifyGet, MonadStateOf.modifyGet, switchesFrom, htimes, StateT.modifyGet, StateT.bind,
    List.head?, Option.map, List.drop]

theorem readExpect_quoted (line x : String) (i j : Nat) :
    readExpect.run ⟨line, [⟨.token (.quoted x), i, j⟩]⟩ =
      .ok (.expect Switches.empty none 0 0 x none, ⟨line, []⟩) :=
  rfl

/-- A command word, a blank and a literal the reader accepts are two tokens. -/
theorem scan_keyword_literal (w : String) (c : Char) (cs : List Char) (hcs : w.toList = c :: cs)
    (hw : ∀ x ∈ c :: cs, isWordChar x = true) (ht : classifyWord (c :: cs) = some (.word w))
    {e : String} {d : List UInt8} (he : decode e = .ok d) :
    scan (w ++ " " ++ e) =
      [⟨.token (.word w), 0, cs.length + 1⟩,
       ⟨.token (.quoted e), cs.length + 2, cs.length + 2 + e.length⟩] := by
  unfold decode decodeChars at he
  split at he
  · cases he
  · rename_i q body hdel
    obtain ⟨hq, hlit⟩ := delimited?_eq_some hdel
    have hlen : e.length = body.length + 2 := by
      rw [← String.length_toList, hlit]
      simp
    have hchars : (w ++ " " ++ e).toList = c :: cs ++ ' ' :: e.toList := by
      simp [String.toList_append, hcs]
    rw [scan, hchars, scanFrom_word_gap hw ht, hlit,
      scanFrom_quoted hq (quotedText_of_decodeBody hq he), ← hlit, String.ofList_toList, hlen]
    simp only [Nat.zero_add, Nat.add_assoc]

private theorem send_chars : ∀ x ∈ ['S', 'E', 'N', 'D'], isWordChar x = true := by
  intro x hx
  simp only [List.mem_cons, List.not_mem_nil, or_false] at hx
  rcases hx with rfl | rfl | rfl | rfl <;> rfl

theorem expect_chars : ∀ x ∈ ['E', 'X', 'P', 'E', 'C', 'T'], isWordChar x = true := by
  intro x hx
  simp only [List.mem_cons, List.not_mem_nil, or_false] at hx
  rcases hx with rfl | rfl | rfl | rfl | rfl | rfl <;> rfl

/-- SEND and a literal the reader accepts queue that literal, with no switches, no line and
no times. -/
theorem parse_send_literal {e : String} {d : List UInt8} (he : decode e = .ok d) :
    parse ("SEND " ++ e) = .ok (.send Switches.empty none 0 0 e) := by
  have hscan := scan_keyword_literal "SEND" 'S' ['E', 'N', 'D'] rfl send_chars rfl he
  have hhash : "SEND".startsWith "#" = false := by simp
  rw [show "SEND " ++ e = "SEND" ++ " " ++ e from rfl, parse, hscan]
  simp only [hhash, Bool.false_eq_true, if_false, show lookup "SEND" commandWords = .ok .send from rfl,
    bind, Except.bind, readArguments, readSend_quoted]
  rfl

/-- EXPECT and a literal the reader accepts define a rule with that pattern and nothing else. -/
theorem parse_expect_literal {e : String} {d : List UInt8} (he : decode e = .ok d) :
    parse ("EXPECT " ++ e) = .ok (.expect Switches.empty none 0 0 e none) := by
  have hscan := scan_keyword_literal "EXPECT" 'E' ['X', 'P', 'E', 'C', 'T'] rfl expect_chars
    rfl he
  have hhash : "EXPECT".startsWith "#" = false := by simp
  rw [show "EXPECT " ++ e = "EXPECT" ++ " " ++ e from rfl, parse, hscan]
  simp only [hhash, Bool.false_eq_true, if_false,
    show lookup "EXPECT" commandWords = .ok .expect from rfl, bind, Except.bind, readArguments,
    readExpect_quoted]
  rfl

/-- Quoted literals read back: every literal the quoted-string reader accepts is read by the
lexer as one quoted token spanning its whole UTF-8 text; so for every byte string, SEND and a
blank followed by its written literal queue exactly that literal with no switches, no line and
no times, and EXPECT and a blank followed by it define a rule whose pattern reads back as the
bytes. -/
theorem quoted_literal_reads_back :
    (∀ (s : String) (d : List UInt8), decode s = .ok d →
      scanBytes s = [(.token (.quoted s), 0, s.utf8ByteSize)]) ∧
    (∀ d : List UInt8, parse ("SEND " ++ encode d) = .ok (.send Switches.empty none 0 0 (encode d))) ∧
    (∀ d : List UInt8, parse ("EXPECT " ++ encode d) =
      .ok (.expect Switches.empty none 0 0 (encode d) none) ∧ decode (encode d) = .ok d) :=
  ⟨fun _ _ h => scanBytes_of_decode h, fun d => parse_send_literal (decode_encode d),
    fun d => ⟨parse_expect_literal (decode_encode d), decode_encode d⟩⟩

/-- The bytes `"'` are written with an escaped double quote, and the five characters are one
token. -/
theorem quoted_literal_reads_back_of_escaped_quote :
    encode [34, 39] = "\"\\\"'\"" ∧ decode (encode [34, 39]) = .ok [34, 39] ∧
      scanBytes (encode [34, 39]) = [(.token (.quoted "\"\\\"'\""), 0, 5)] := by
  have henc : encode [34, 39] = "\"\\\"'\"" := rfl
  refine ⟨henc, decode_encode _, ?_⟩
  rw [quoted_literal_reads_back.1 _ _ (decode_encode _), henc]
  rfl

end SimControl.Command
