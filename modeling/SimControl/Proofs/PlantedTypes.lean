import SimControl.Command.Parse
import SimControl.Proofs.BreakSummary
/-!
# Only the machine plants breakpoints

Three breakpoint types are planted by the command loop for itself and never typed: step-over
(NEXT), user, and the temporary flag (GO UNTIL an address). A set of types is `Unplanted` when
it has none of them. The types a BREAK command asks for come from its switches, and a switch is
an ASCII letter, one of the low 26 bits; so every BREAK the reader accepts asks for unplanted
types (`asksLetters_of_parse`).

* `Reader.Yields`: every value a reader gives satisfies a property; one lemma per way of
  putting readers together, so each reader is checked by following its own steps.
-/

namespace SimControl

namespace BreakTypes

/-- Types with none of the flags the machine plants for itself: step-over, user and
temporary. -/
def Unplanted (t : BreakTypes) : Prop :=
  t.intersects stepOver = false ∧ t.intersects user = false ∧ t.intersects temp = false

/-- Types meet a union exactly when they meet a part of it. -/
theorem union_intersects (a b c : BreakTypes) :
    (a.union b).intersects c = (a.intersects c || b.intersects c) := by
  apply Bool.eq_iff_iff.mpr
  rw [Bool.or_eq_true, intersects_eq_true_iff, intersects_eq_true_iff, intersects_eq_true_iff]
  simp only [union, UInt32.toBitVec_or, BitVec.getLsbD_or, Bool.or_eq_true]
  constructor
  · rintro ⟨i, ha | hb, hc, hm⟩
    · exact Or.inl ⟨i, ha, hc, hm⟩
    · exact Or.inr ⟨i, hb, hc, hm⟩
  · rintro (⟨i, ha, hc, hm⟩ | ⟨i, hb, hc, hm⟩)
    · exact ⟨i, Or.inl ha, hc, hm⟩
    · exact ⟨i, Or.inr hb, hc, hm⟩

@[simp] theorem intersects_empty (t : BreakTypes) : t.intersects empty = false := by
  simp only [intersects, empty, UInt32.and_zero, UInt32.zero_and, bne_self_eq_false]

/-- The temporary flag with any other types meets the temporary flag. -/
theorem temp_union_intersects_temp (d : BreakTypes) : (temp.union d).intersects temp = true := by
  rw [union_intersects, Bool.or_eq_true]
  exact Or.inl (by decide)

theorem Unplanted.union {a b : BreakTypes} (ha : a.Unplanted) (hb : b.Unplanted) :
    (a.union b).Unplanted := by
  obtain ⟨ha₁, ha₂, ha₃⟩ := ha
  obtain ⟨hb₁, hb₂, hb₃⟩ := hb
  simp only [Unplanted, union_intersects, ha₁, ha₂, ha₃, hb₁, hb₂, hb₃, Bool.or_self, and_self]

theorem Unplanted.withoutSpace {a : BreakTypes} (ha : a.Unplanted) : a.withoutSpace.Unplanted := by
  simp only [Unplanted, withoutSpace_intersects]
  exact ha

/-- Types that meet no dynamic type meet neither step-over nor user, and back. -/
theorem intersects_dynamic (t : BreakTypes) :
    t.intersects dynamic = (t.intersects stepOver || t.intersects user) := by
  have h : dynamic = stepOver.union user := by decide
  rw [h]
  apply Bool.eq_iff_iff.mpr
  rw [Bool.or_eq_true, intersects_eq_true_iff, intersects_eq_true_iff, intersects_eq_true_iff]
  simp only [union, UInt32.toBitVec_or, BitVec.getLsbD_or, Bool.or_eq_true]
  constructor
  · rintro ⟨i, ht, hs | hu, hm⟩
    · exact Or.inl ⟨i, ht, hs, hm⟩
    · exact Or.inr ⟨i, ht, hu, hm⟩
  · rintro (⟨i, ht, hs, hm⟩ | ⟨i, ht, hu, hm⟩)
    · exact ⟨i, ht, Or.inl hs, hm⟩
    · exact ⟨i, ht, Or.inr hu, hm⟩

/-- Types made of switches meet no type outside the letters. -/
theorem ofSwitches_intersects {sw : Switches} (h : sw.bits &&& Switches.letterMask = sw.bits)
    {t : BreakTypes} (ht : Switches.letterMask &&& t.bits = 0) : (ofSwitches sw).intersects t = false := by
  simp only [intersects, ofSwitches, bne_eq_false_iff_eq]
  rw [← h, UInt32.and_assoc sw.bits, ht, UInt32.and_zero, UInt32.zero_and]

/-- Types made of letter switches are unplanted. -/
theorem unplanted_ofSwitches {sw : Switches} (h : sw.bits &&& Switches.letterMask = sw.bits) :
    (ofSwitches sw).Unplanted :=
  ⟨ofSwitches_intersects h (by decide), ofSwitches_intersects h (by decide),
    ofSwitches_intersects h (by decide)⟩

end BreakTypes

/-! ## Switches are letters -/

namespace Switches

/-- No bit above the letters is set. -/
def Letters (s : Switches) : Prop := s.bits &&& letterMask = s.bits

theorem letters_empty : empty.Letters := by
  unfold Letters
  decide

theorem Letters.union {a b : Switches} (ha : a.Letters) (hb : b.Letters) : (a.union b).Letters := by
  unfold Letters at *
  show (a.bits ||| b.bits) &&& letterMask = a.bits ||| b.bits
  have hd : (a.bits ||| b.bits) &&& letterMask = (a.bits &&& letterMask) ||| (b.bits &&& letterMask) := by
    apply UInt32.toBitVec_inj.mp
    simp only [UInt32.toBitVec_or, UInt32.toBitVec_and]
    exact BitVec.and_or_distrib_right
  rw [hd, ha, hb]

private theorem shift_masked : ∀ k : Nat, k < 26 →
    ((1 : UInt32) <<< k.toUInt32) &&& letterMask = (1 : UInt32) <<< k.toUInt32 := by
  decide

/-- The switch of a letter is one of the 26 letter bits. -/
theorem letters_of_letter? {c : Char} {s : Switches} (h : letter? c = some s) : s.Letters := by
  unfold letter? at h
  dsimp only at h
  split at h
  · rename_i hu
    cases h
    obtain ⟨h₁, h₂⟩ := hu
    have h₁' : 65 ≤ c.toUpper.toNat := h₁
    have h₂' : c.toUpper.toNat ≤ 90 := h₂
    have hA : 'A'.toNat = 65 := rfl
    exact shift_masked _ (by omega)
  · cases h

theorem letters_of_addLetters {acc s : Switches} {cs : List Char} (hacc : acc.Letters)
    (h : addLetters acc cs = some s) : s.Letters := by
  induction cs generalizing acc with
  | nil =>
    cases h
    exact hacc
  | cons c cs ih =>
    obtain ⟨l, hl, hrest⟩ := Option.bind_eq_some_iff.mp h
    exact ih (hacc.union (letters_of_letter? hl)) hrest

theorem letters_of_parseToken {token : String} {s : Switches} (h : parseToken token = .ok s) :
    s.Letters := by
  unfold parseToken at h
  split at h
  · split at h
    · cases h
      exact letters_of_addLetters letters_empty (by assumption)
    · cases h
  · cases h

end Switches

/-! ## What a reader gives -/

namespace Command

/-- Every value the reader gives, from any cursor, satisfies `P`. -/
def Yields {α : Type} (P : α → Prop) (r : Reader α) : Prop :=
  ∀ c v c', r.run c = .ok (v, c') → P v

/-- A reader run in sequence succeeds when its first part does and the rest succeeds from
where the first left off. -/
theorem run_bind_eq_ok {α β : Type} {x : Reader α} {f : α → Reader β} {c c' : Cursor} {b : β}
    (h : (x >>= f).run c = .ok (b, c')) :
    ∃ a c₁, x.run c = .ok (a, c₁) ∧ (f a).run c₁ = .ok (b, c') := by
  rw [StateT.run_bind] at h
  cases hx : x.run c with
  | error e =>
    rw [hx] at h
    cases h
  | ok p =>
    rw [hx] at h
    exact ⟨p.1, p.2, rfl, h⟩

namespace Yields

variable {α β : Type} {P : β → Prop}

theorem bind {Q : α → Prop} {x : Reader α} {f : α → Reader β} (hx : Yields Q x)
    (hf : ∀ a, Q a → Yields P (f a)) : Yields P (x >>= f) := by
  intro c v c' h
  obtain ⟨a, c₁, hx', hf'⟩ := run_bind_eq_ok h
  exact hf a (hx c a c₁ hx') c₁ v c' hf'

/-- A reader whose every continuation yields `P` yields `P`, whatever it reads first. -/
theorem bind_any {x : Reader α} {f : α → Reader β} (hf : ∀ a, Yields P (f a)) :
    Yields P (x >>= f) :=
  bind (Q := fun _ => True) (fun _ _ _ _ => trivial) fun a _ => hf a

theorem pure {b : β} (h : P b) : Yields P (Pure.pure b) := by
  intro c v c' hr
  cases hr
  exact h

theorem throw (e : Fault) : Yields P (MonadExcept.throw e : Reader β) := by
  intro c v c' hr
  cases hr

theorem throw_bind (e : Fault) (f : α → Reader β) :
    Yields P ((MonadExcept.throw e : Reader α) >>= f) :=
  bind (Q := fun _ => False) (throw e) fun _ h => h.elim

/-- A result lifted into a reader is the value it holds. -/
theorem lift (e : Except Fault β) : Yields (fun b => e = .ok b) (liftM e : Reader β) := by
  intro c v c' h
  cases e with
  | error err => cases h
  | ok b =>
    cases h
    rfl

theorem map {f : α → β} {x : Reader α} (h : ∀ a, P (f a)) : Yields P (f <$> x) := by
  rw [map_eq_pure_bind]
  exact bind_any fun a => pure (h a)

theorem comp_map {f : α → β} {x : Reader α} (h : Yields (fun a => P (f a)) x) :
    Yields P (f <$> x) := by
  rw [map_eq_pure_bind]
  exact bind h fun _ ha => pure ha

end Yields

theorem letters_of_switchesFrom {acc sw : Switches} {ls rest : List Lexed} (hacc : acc.Letters)
    (h : switchesFrom acc ls = .ok (sw, rest)) : sw.Letters := by
  fun_induction switchesFrom acc ls with
  | case1 acc _ _ _ _ sw' hsw ih => exact ih (hacc.union (Switches.letters_of_parseToken hsw)) h
  | case2 => cases h
  | case3 =>
    cases h
    exact hacc

theorem yields_switches : Yields Switches.Letters switches := by
  unfold switches onRest
  refine Yields.bind_any fun cur => Yields.bind (Yields.lift _) fun p hp => ?_
  obtain ⟨sw, rest⟩ := p
  exact Yields.bind_any fun _ => Yields.pure (letters_of_switchesFrom Switches.letters_empty hp)

/-- The types a BREAK command asks for are unplanted; other commands ask for none. -/
def AsksLetters : Command → Prop
  | .setBreak types _ _ => types.Unplanted
  | _ => True

theorem yields_readBreak (withAction : Bool) : Yields AsksLetters (readBreak withAction) := by
  unfold readBreak
  refine Yields.bind yields_switches fun sw hsw => Yields.bind_any fun targets =>
    Yields.bind_any fun semi => ?_
  have hsw' := BreakTypes.unplanted_ofSwitches hsw
  split
  · split
    · exact Yields.bind_any fun _ => Yields.throw_bind _ _
    · exact Yields.bind_any fun _ => Yields.pure hsw'
  · refine Yields.bind_any fun _ => Yields.pure ?_
    split
    · exact hsw'
    · trivial

/-- A command that names no breakpoints: anything but BREAK, NOBREAK and SHOW. -/
def Plain : Command → Prop
  | .setBreak .. | .clearBreak .. | .report _ => False
  | _ => True

/-- A property that every command but BREAK, NOBREAK and SHOW has holds of whatever command
the arguments of a keyword are read into, if the reader of that keyword gives it when the
keyword is one of those three. -/
theorem yields_readArguments_of_keyword {P : Command → Prop} (w : String) (k : Keyword)
    (hbrk : k = .brk → Yields P (readBreak true)) (hnobrk : k = .noBrk → Yields P (readBreak false))
    (hshow : k = .display → Yields P readShow) (hplain : ∀ cmd, cmd.Plain → P cmd) :
    Yields P (readArguments w k) := by
  cases k with
  | brk => exact hbrk rfl
  | noBrk => exact hnobrk rfl
  | display => exact hshow rfl
  | expect =>
    show Yields _ readExpect
    unfold readExpect
    exact Yields.bind_any fun _ => Yields.bind_any fun _ => Yields.bind_any fun _ =>
      Yields.bind_any fun _ => Yields.bind_any fun _ => Yields.bind_any fun _ =>
        Yields.pure (hplain _ trivial)
  | noExpect =>
    show Yields _ readNoExpect
    unfold readNoExpect
    exact Yields.bind_any fun _ => Yields.bind_any fun _ => Yields.bind_any fun _ =>
      Yields.pure (hplain _ trivial)
  | send =>
    show Yields _ readSend
    unfold readSend
    exact Yields.bind_any fun _ => Yields.bind_any fun _ => Yields.bind_any fun _ =>
      Yields.bind_any fun _ => Yields.bind_any fun _ => Yields.pure (hplain _ trivial)
  | noSend =>
    exact Yields.bind_any fun _ => Yields.bind_any fun _ => Yields.pure (hplain _ trivial)
  | step => exact Yields.map fun _ => hplain _ trivial
  | nextStep => exact Yields.map fun _ => hplain _ trivial
  | go =>
    show Yields _ readGo
    unfold readGo
    exact Yields.bind_any fun _ => Yields.bind_any fun _ => Yields.pure (hplain _ trivial)
  | run =>
    show Yields _ readRun
    unfold readRun
    refine Yields.bind_any fun w? => ?_
    dsimp only
    split <;> exact Yields.bind_any fun _ => Yields.bind_any fun _ => Yields.pure (hplain _ trivial)
  | cont => exact Yields.bind_any fun _ => Yields.pure (hplain _ trivial)
  | load => exact Yields.map fun _ => hplain _ trivial
  | runFile => exact Yields.map fun _ => hplain _ trivial
  | echo => exact Yields.bind_any fun _ => Yields.pure (hplain _ trivial)
  | exit | quit => exact Yields.pure (hplain _ trivial)
  | queue | time => exact Yields.throw _

/-- A property that the readers of BREAK, NOBREAK and SHOW give, and that every other command
has, holds of whatever command a keyword's arguments are read into. -/
theorem yields_readArguments_of {P : Command → Prop} (hbreak : ∀ b, Yields P (readBreak b))
    (hshow : Yields P readShow) (hplain : ∀ cmd, cmd.Plain → P cmd) (w : String) (k : Keyword) :
    Yields P (readArguments w k) :=
  yields_readArguments_of_keyword w k (fun _ => hbreak true) (fun _ => hbreak false) (fun _ => hshow)
    hplain

/-- A command read from a line is blank, or is what the arguments of its keyword were read
into. -/
theorem of_parse {P : Command → Prop} (hblank : P .blank)
    (hargs : ∀ w k, Yields P (readArguments w k)) {line : String} {cmd : Command}
    (h : parse line = .ok cmd) : P cmd := by
  unfold parse at h
  split at h
  · cases h
    exact hblank
  · split at h
    · cases h
      exact hblank
    · rename_i w _
      split at h
      · cases h
        exact hblank
      · cases hk : lookup w commandWords with
        | error e =>
          rw [hk] at h
          cases h
        | ok k =>
          rw [hk] at h
          simp only [bind, Except.bind] at h
          split at h
          · cases h
          · rename_i p hr
            simp only [pure, Except.pure, Except.ok.injEq] at h
            subst h
            exact hargs w k _ p.1 p.2 hr
    · cases h
    · cases h

/-- SHOW reads its item, then nothing may follow: a property of the report of breakpoints at
any target list the address list reader gives, and of every other report, holds of what SHOW
reads. -/
theorem yields_readShow_of {P : Command → Prop}
    (hbreaks : Yields (fun ts => P (.report (.breaks ts))) addressList)
    (hother : ∀ item, (∀ ts, item ≠ .breaks ts) → P (.report item)) : Yields P readShow := by
  unfold readShow
  refine Yields.bind_any fun w? => ?_
  split
  · refine Yields.bind_any fun k => ?_
    dsimp only
    -- every item but the breaks is built outright, and none of them is a report of breaks
    split
    · exact Yields.bind (Yields.comp_map hbreaks) fun _ h => Yields.bind_any fun _ => Yields.pure h
    · refine Yields.bind_any fun _ => Yields.bind_any fun _ => Yields.bind (Yields.pure ?_)
        fun item hq => Yields.bind_any fun _ => Yields.pure (hother item hq)
      exact fun _ h => by cases h
    · refine Yields.bind (Yields.map ?_) fun item hq =>
        Yields.bind_any fun _ => Yields.pure (hother item hq)
      exact fun _ _ h => by cases h
    all_goals
      refine Yields.bind (Yields.pure ?_) fun item hq =>
        Yields.bind_any fun _ => Yields.pure (hother item hq)
      exact fun _ h => by cases h
  · exact Yields.throw _

/-- Whatever keyword starts the line, its reader gives a command that asks for letters only. -/
theorem yields_readArguments (w : String) (k : Keyword) : Yields AsksLetters (readArguments w k) :=
  yields_readArguments_of yields_readBreak
    (yields_readShow_of (fun _ _ _ _ => trivial) fun _ _ => trivial)
    (fun cmd hcmd => by cases cmd <;> trivial) w k

/-- Every BREAK command read from a line asks for letter types only: none of step-over, user
or temporary. -/
theorem asksLetters_of_parse {line : String} {cmd : Command} (h : parse line = .ok cmd) :
    cmd.AsksLetters :=
  of_parse trivial yields_readArguments h

end Command

end SimControl
