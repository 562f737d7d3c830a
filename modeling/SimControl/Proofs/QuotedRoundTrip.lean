import Mathlib.Data.String.Defs
import SimControl.Text.Quoted
/-!
# Every byte string survives quoting

`encode` writes bytes as a quoted literal and `decode` reads a literal back. The main
statement, `encode_round_trip`: reading what was written gives back exactly the bytes, for
every byte string; the literal is ASCII, starts and ends with the same quote, and that quote is
`'` exactly when the bytes hold a `"` and no `'`.

The reading is one step per escape or character, so the proof is one step lemma per written
byte (`decodeBody_encodeByte_append`): each of the four ways a byte is written (a named escape,
a backslash before the delimiting quote, the printable character itself, three octal digits)
is read back as that byte and leaves the rest of the literal untouched. The octal escape is the
delicate one: the reader takes up to three digits, and the writer always writes exactly three,
so a digit written after it stays a character of its own.
-/

namespace SimControl.Text.Quoted

/-! ## ASCII characters -/

private theorem byteArray_toList_loop (bs : ByteArray) (i : Nat) (r : List UInt8) :
    ByteArray.toList.loop bs i r = r.reverse ++ bs.data.toList.drop i := by
  fun_induction ByteArray.toList.loop bs i r with
  | case1 i r h ih =>
    have hi : i < bs.data.toList.length := by rw [Array.length_toList]; exact h
    rw [ih, List.reverse_cons, List.append_assoc, List.singleton_append,
      List.drop_eq_getElem_cons hi]
    simp only [ByteArray.get!, getElem!_pos bs.data i h, Array.getElem_toList]
  | case2 i r h =>
    have hi : bs.data.toList.length ≤ i := by rw [Array.length_toList]; exact Nat.le_of_not_lt h
    rw [List.drop_eq_nil_of_le hi, List.append_nil]

theorem toNat_ofNat_of_lt {n : Nat} (h : n < 128) : (Char.ofNat n).toNat = n := by
  have hv : n.isValidChar := Or.inl (by omega)
  show (dite n.isValidChar (fun h => Char.ofNatAux n h) _).toNat = n
  rw [dif_pos hv]
  exact BitVec.toNat_ofNatLT _ _

theorem utf8Size_of_toNat_lt {c : Char} (h : c.toNat < 128) : c.utf8Size = 1 := by
  have hv : c.val.toNat < 128 := h
  unfold Char.utf8Size
  dsimp only
  rw [if_pos (UInt32.le_iff_toNat_le.mpr (by simp; omega))]

/-- An ASCII character is the one byte of its code. -/
theorem charBytes_of_toNat_lt {c : Char} (h : c.toNat < 128) : charBytes c = [c.toNat.toUInt8] := by
  simp only [charBytes, String.toUTF8_eq_toByteArray, ByteArray.toList, byteArray_toList_loop,
    List.reverse_nil, List.nil_append, List.drop_zero, String.singleton_eq_ofList,
    String.toByteArray_ofList, List.utf8Encode_singleton, List.toList_data_toByteArray,
    String.utf8EncodeChar_eq_singleton (utf8Size_of_toNat_lt h)]
  rfl

/-! ## Octal digits -/

private theorem octal_digits :
    ∀ x < 8, octalDigit? (Char.ofNat (48 + x)) = some x ∧ namedEscape? (Char.ofNat (48 + x)) = none ∧
      (Char.ofNat (48 + x)).toNat < 128 := by
  decide

/-- The three digits of a byte read back as that byte, whatever follows them. -/
theorem escape?_octal3 (b : UInt8) (rest : List Char) :
    ∃ d₁ d₂ d₃, octal3 b = [d₁, d₂, d₃] ∧ escape? d₁ (d₂ :: d₃ :: rest) = some (b, 2) := by
  have hb := b.toNat_lt
  obtain ⟨h₁, h₁', -⟩ := octal_digits (b.toNat / 64) (by omega)
  obtain ⟨h₂, -, -⟩ := octal_digits (b.toNat / 8 % 8) (by omega)
  obtain ⟨h₃, -, -⟩ := octal_digits (b.toNat % 8) (by omega)
  -- the digits build the byte's value again, modulo 256 at each step
  have hval : ((b.toNat / 64 * 8 + b.toNat / 8 % 8) % 256 * 8 + b.toNat % 8) % 256 = b.toNat := by
    omega
  refine ⟨_, _, _, rfl, ?_⟩
  simp only [escape?, h₁', h₁, moreDigits, h₂, h₃, hval, UInt8.ofNat_toNat]

/-! ## Reading one written byte -/

theorem decodeBody_nil (q : Char) (pos : Nat) : decodeBody q pos [] = .ok [] := by
  rw [decodeBody.eq_def]

/-- A backslash and an escape the reader knows stand for the escape's byte. -/
theorem decodeBody_escape {q e : Char} {pos : Nat} {tail : List Char} {b : UInt8} {k : Nat}
    (h : escape? e tail = some (b, k)) :
    decodeBody q pos ('\\' :: e :: tail) = (decodeBody q (pos + 2 + k) (tail.drop k)).map (b :: ·) := by
  rw [decodeBody.eq_def]
  simp only [if_true]
  split
  · rename_i hn
    rw [h] at hn
    cases hn
  · rename_i b' k' hs
    rw [h] at hs
    cases hs
    rfl

/-- A character other than a backslash or the delimiting quote stands for its own bytes. -/
theorem decodeBody_plain {q c : Char} {pos : Nat} {rest : List Char} (hc : c ≠ '\\') (hq : c ≠ q) :
    decodeBody q pos (c :: rest) = (decodeBody q (pos + c.utf8Size) rest).map (charBytes c ++ ·) := by
  rw [decodeBody.eq_def]
  simp only [hc, hq, if_false]

/-- A printable ASCII character that is neither a backslash nor the quote is read back as its
byte. -/
theorem decodeBody_printable {q : Char} {pos : Nat} {rest : List Char} {b : UInt8}
    (hlo : 32 ≤ b.toNat) (hhi : b.toNat ≤ 126) (hbs : b ≠ 92) (hq : b.toNat ≠ q.toNat) :
    decodeBody q pos (Char.ofNat b.toNat :: rest) =
      (decodeBody q (pos + 1) rest).map (b :: ·) := by
  have hcode := toNat_ofNat_of_lt (show b.toNat < 128 by omega)
  have hbs' : Char.ofNat b.toNat ≠ '\\' := by
    intro h
    have := congrArg Char.toNat h
    rw [hcode] at this
    exact hbs (UInt8.toNat_inj.mp this)
  have hq' : Char.ofNat b.toNat ≠ q := fun h => hq (h ▸ hcode).symm
  rw [decodeBody_plain hbs' hq', utf8Size_of_toNat_lt (by omega),
    charBytes_of_toNat_lt (by omega), hcode, Nat.toUInt8_eq, UInt8.ofNat_toNat]
  rfl

/-- Each written byte is read back as that byte, and the reading goes on right after it. -/
theorem decodeBody_encodeByte_append {q : Char} (hq : q = '"' ∨ q = '\'') (b : UInt8) (pos : Nat)
    (rest : List Char) :
    decodeBody q pos (encodeByte q b ++ rest) =
      (decodeBody q (pos + (encodeByte q b).length) rest).map (b :: ·) := by
  unfold encodeByte
  split
  case h_1 | h_2 | h_3 | h_4 | h_5 | h_6 | h_7 =>
    -- a named escape: a backslash and a letter
    exact decodeBody_escape (k := 0) rfl
  rename_i hbs
  split
  · -- the delimiting quote, behind a backslash
    rename_i hquote
    have hesc : escape? q rest = some (b, 0) := by
      rcases hq with rfl | rfl
      · have : b = 34 := UInt8.toNat_inj.mp hquote
        subst this
        rfl
      · have : b = 39 := UInt8.toNat_inj.mp hquote
        subst this
        rfl
    rw [List.cons_append, List.cons_append, List.nil_append, decodeBody_escape hesc]
    rfl
  · split
    · -- a printable character, as it is
      rename_i hquote hprint
      rw [List.cons_append, List.nil_append,
        decodeBody_printable hprint.1 hprint.2 (fun h => hbs h) hquote]
      rfl
    · -- three octal digits
      obtain ⟨d₁, d₂, d₃, hdigits, hesc⟩ := escape?_octal3 b rest
      rw [hdigits, List.cons_append, List.cons_append, List.cons_append, List.cons_append,
        List.nil_append, decodeBody_escape hesc]
      rfl

/-- The body of a literal reads back as the bytes it was written from. -/
theorem decodeBody_flatMap_encodeByte {q : Char} (hq : q = '"' ∨ q = '\'') (data : List UInt8)
    (pos : Nat) : decodeBody q pos (data.flatMap (encodeByte q)) = .ok data := by
  induction data generalizing pos with
  | nil => exact decodeBody_nil q pos
  | cons b rest ih =>
    rw [List.flatMap_cons, decodeBody_encodeByte_append hq, ih]
    rfl

/-! ## The whole literal -/

/-- A body between two equal quotes is taken out again. -/
theorem delimited?_quote {q : Char} (hq : q = '"' ∨ q = '\'') (body : List Char) :
    delimited? (q :: (body ++ [q])) = some (q, body) := by
  cases body with
  | nil => simp [delimited?, hq]
  | cons c cs =>
    rw [List.cons_append, delimited?, ← List.cons_append, List.getLast?_concat,
      List.dropLast_concat, if_pos ⟨hq, rfl⟩]

theorem quoteFor_eq (data : List UInt8) : quoteFor data = '"' ∨ quoteFor data = '\'' := by
  unfold quoteFor
  split
  · exact .inr rfl
  · exact .inl rfl

theorem decode_encode (data : List UInt8) : decode (encode data) = .ok data := by
  rw [decode, encode, String.toList_ofList, decodeChars, encodeChars, List.cons_append,
    delimited?_quote (quoteFor_eq data)]
  exact decodeBody_flatMap_encodeByte (quoteFor_eq data) data 1

theorem isAscii_of_mem_octal3 (b : UInt8) : ∀ c ∈ octal3 b, c.isAscii := by
  have hb := b.toNat_lt
  simp only [octal3, List.forall_mem_cons, Char.isAscii, decide_eq_true_eq]
  exact ⟨(octal_digits _ (by omega)).2.2, (octal_digits _ (by omega)).2.2,
    (octal_digits _ (by omega)).2.2, nofun⟩

/-- Every character the writer puts down for a byte is ASCII. -/
theorem isAscii_of_mem_encodeByte {q : Char} (hq : q.isAscii) (b : UInt8) :
    ∀ c ∈ encodeByte q b, c.isAscii := by
  unfold encodeByte
  split
  case h_1 | h_2 | h_3 | h_4 | h_5 | h_6 | h_7 =>
    -- a backslash and a letter
    intro c hc
    simp only [List.mem_cons, List.mem_nil_iff, or_false] at hc
    rcases hc with rfl | rfl <;> rfl
  split
  · simp only [List.forall_mem_cons]
    exact ⟨rfl, hq, nofun⟩
  · split
    · rename_i hprint
      intro c hc
      rw [List.mem_singleton] at hc
      subst hc
      simp only [Char.isAscii, decide_eq_true_eq, toNat_ofNat_of_lt (show b.toNat < 128 by omega)]
      omega
    · rw [List.forall_mem_cons]
      exact ⟨rfl, isAscii_of_mem_octal3 b⟩

/-- The literal written for any data is ASCII. -/
theorem isAscii_of_mem_encodeChars (data : List UInt8) : ∀ c ∈ encodeChars data, c.isAscii := by
  have hq : (quoteFor data).isAscii := by rcases quoteFor_eq data with h | h <;> rw [h] <;> rfl
  intro c hc
  simp only [encodeChars, List.mem_append, List.mem_cons, List.mem_flatMap, List.not_mem_nil,
    or_false] at hc
  rcases hc with (rfl | ⟨b, -, hb⟩) | rfl
  · exact hq
  · exact isAscii_of_mem_encodeByte hq b c hb
  · exact hq

/-- The writer uses `'` exactly when the data holds a `"` and no `'`. -/
theorem quoteFor_eq_single_iff (data : List UInt8) :
    quoteFor data = '\'' ↔ (34 : UInt8) ∈ data ∧ (39 : UInt8) ∉ data := by
  unfold quoteFor
  by_cases h₁ : (34 : UInt8) ∈ data <;> by_cases h₂ : (39 : UInt8) ∈ data <;> simp [h₁, h₂]

/-- Quoting every byte string: reading the literal written for `data` gives back `data`; the
literal is ASCII and is delimited by one quote at each end, `'` (byte 39) exactly when the data
holds a `"` (byte 34) and no `'`, and `"` otherwise. -/
theorem encode_round_trip (data : List UInt8) :
    decode (encode data) = .ok data ∧
    (∀ c ∈ (encode data).toList, c.isAscii) ∧
    ∃ q body, (encode data).toList = q :: (body ++ [q]) ∧ (q = '"' ∨ q = '\'') ∧
      (q = '\'' ↔ (34 : UInt8) ∈ data ∧ (39 : UInt8) ∉ data) := by
  have hchars : (encode data).toList = encodeChars data := by rw [encode, String.toList_ofList]
  refine ⟨decode_encode data, hchars ▸ isAscii_of_mem_encodeChars data, quoteFor data,
    data.flatMap (encodeByte (quoteFor data)), ?_, quoteFor_eq data, quoteFor_eq_single_iff data⟩
  rw [hchars, encodeChars, List.cons_append]

end SimControl.Text.Quoted
