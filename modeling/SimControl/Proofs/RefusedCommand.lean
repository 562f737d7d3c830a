import SimControl.Session
import SimControl.Proofs.BreakDebounce
/-!
# A refused command changes nothing

Every command other than DO checks all it can refuse before it changes anything: the parse,
the line named, the quoted data, the address ranges, and the checks of a breakpoint or an
expect rule. What it does after the first change cannot fail. So a command that fails leaves
the session as it found it: the breakpoints, the pending actions, every line's expect rules and
send queue, the scheduler, the machine, and the output written so far.

BREAK over an address list sets one breakpoint per address, each a change of its own; whether
a set is granted depends only on the machine's types, the types asked for and the action, so
the first address is granted exactly when every address is (`run_setEach`).

* `FailsClean`, `NeverFails`, `ReadOnly`: what a computation of the session may do to the
  state, with one lemma per way of putting computations together.
* `refused_command_changes_nothing`: a command line that is not DO and fails leaves the
  session unchanged; a BREAK that succeeds carries the breakpoint at every address listed.

DO is left out: a file runs its lines one by one, each keeping what it did, and the first
failing line ends the file with the failure.
-/

namespace SimControl

/-! ## Granting a set -/

/-- The machine supports the letters of its default type. -/
theorem BreakTypeTable.supported_of_default (tt : BreakTypeTable) {i : Nat} (hi : i < 32)
    (h : tt.defaultTypes.bits.toBitVec[i] = true) : tt.supported.bits.toBitVec[i] = true := by
  -- the union over the entries only adds bits to the default it starts from
  have step : ∀ (es : List BreakTypeDesc) (acc : BreakTypes), acc.bits.toBitVec[i] = true →
      (es.foldl (fun acc e => acc.union ((BreakTypes.letter? e.letter).getD BreakTypes.empty))
        acc).bits.toBitVec[i] = true := by
    intro es
    induction es with
    | nil => exact fun _ h => h
    | cons e rest ih =>
      intro acc hacc
      apply ih
      simp [BreakTypes.union, hacc]
  exact step tt.entries tt.defaultTypes h

/-- Step-over with the default type added asks for no letter the machine lacks. -/
theorem BreakTypeTable.unsupported_stepOver_isEmpty (tt : BreakTypeTable) :
    ((BreakTypes.stepOver.withoutSpace.union tt.defaultTypes).letters.inter
      tt.supported.letters.compl).isEmpty = true := by
  have hstep : BreakTypes.stepOver.withoutSpace.bits &&& Switches.letterMask = 0 := by decide
  simp only [BreakTypes.letters, Switches.ofBits, Switches.inter, Switches.compl,
    Switches.isEmpty, BreakTypes.union, beq_iff_eq]
  apply uint32_eq_of_getElem_eq
  intro i hi
  have hs := congrArg (fun v : UInt32 => v.toBitVec[i]) hstep
  have hsupp := tt.supported_of_default hi
  simp only [UInt32.toBitVec_and, UInt32.toBitVec_or, UInt32.toBitVec_not, BitVec.getElem_and,
    BitVec.getElem_or, BitVec.getElem_not, UInt32.toBitVec_zero, BitVec.getElem_zero] at hs hsupp ⊢
  revert hs hsupp
  cases BreakTypes.stepOver.withoutSpace.bits.toBitVec[i] <;>
    cases tt.defaultTypes.bits.toBitVec[i] <;> cases tt.supported.bits.toBitVec[i] <;>
    cases Switches.letterMask.toBitVec[i] <;> simp

namespace BreakTable

/-- The types a granted set gives its record: those asked for without their space, with the
machine's default added when none, or only step-over, is asked for. -/
def grantedTypes (tt : BreakTypeTable) (types : BreakTypes) : BreakTypes :=
  if types.withoutSpace.isEmpty || types.withoutSpace == BreakTypes.stepOver then
    types.withoutSpace.union tt.defaultTypes
  else types.withoutSpace

variable {b b' : BreakTable} {a : Address} {types : BreakTypes} {count : Nat}
  {action : Option String}

/-- Whether a set is granted depends on the machine's types, the types asked for and the
action alone: not on the records, the address or the count. -/
theorem set_ok_of_ok (h : b.set a types count action = .ok b') (b₂ : BreakTable)
    (htt : b₂.typeTable = b.typeTable) (a₂ : Address) (count₂ : Nat) :
    ∃ b₃, b₂.set a₂ types count₂ action = .ok b₃ := by
  unfold set at h ⊢
  rw [htt]
  dsimp only at h ⊢
  generalize (if types.withoutSpace.isEmpty || types.withoutSpace == BreakTypes.stepOver then
    types.withoutSpace.union b.typeTable.defaultTypes else types.withoutSpace) = t at h ⊢
  split at h
  · cases h
  · rename_i hu
    rw [if_neg hu]
    split at h
    · cases h
    · rename_i hd
      rw [if_neg hd]
      exact ⟨_, rfl⟩

theorem typeTable_of_set (h : b.set a types count action = .ok b') :
    b'.typeTable = b.typeTable := by
  obtain ⟨t, upd, -, -, -, rfl⟩ := set_eq_ok h
  rfl

/-- A granted set puts a record of the granted types at its address and takes no types away
anywhere. -/
theorem exists_types_of_set (h : b.set a types count action = .ok b') (a' : Address)
    (T : BreakTypes) :
    (∃ r ∈ b'.at? a', r.types = T) ↔
      (∃ r ∈ b.at? a', r.types = T) ∨ (a = a' ∧ grantedTypes b.typeTable types = T) := by
  obtain ⟨t, upd, ht, -, hupd, rfl⟩ := set_eq_ok h
  change (∃ r ∈ (b.withChain a _).at? a', r.types = T) ↔ _
  rw [at?_withChain]
  split
  · rename_i ha
    subst ha
    rw [exists_types_setChain (fun r => (hupd r).1), ht]
    simp only [grantedTypes, true_and]
  · rename_i ha
    simp [ha]

/-- The machine's own step-over breakpoint is always granted: it asks for the default's
letters, which the machine supports, and carries no action. -/
theorem set_stepOver_ok (b : BreakTable) (a : Address) :
    ∃ b', b.set a BreakTypes.stepOver 0 none = .ok b' := by
  have hso : (BreakTypes.stepOver.withoutSpace.isEmpty ||
      BreakTypes.stepOver.withoutSpace == BreakTypes.stepOver) = true := by decide
  unfold set
  dsimp only
  rw [if_pos hso, if_neg, if_neg]
  · exact ⟨_, rfl⟩
  · simp
  · simp [BreakTypeTable.unsupported_stepOver_isEmpty]

end BreakTable

namespace Session

variable {α β : Type}

/-! ## What a computation does to the state -/

/-- A computation that fails only before it changes anything: a failed run leaves the state
it started from. -/
def FailsClean (x : SessionM α) : Prop := ∀ s e s', x.run s = .error e s' → s' = s

/-- A computation that never fails. -/
def NeverFails (x : SessionM α) : Prop := ∀ s e s', x.run s ≠ .error e s'

/-- A computation that only reads the state. -/
def ReadOnly (x : SessionM α) : Prop := ∀ s a s', x.run s = .ok a s' → s' = s

theorem NeverFails.failsClean {x : SessionM α} (h : NeverFails x) : FailsClean x :=
  fun s e s' hx => absurd hx (h s e s')

/-- A check that reads the state and fails clean, followed by a computation that fails
clean, fails clean. -/
theorem FailsClean.bind {x : SessionM α} {f : α → SessionM β} (hx : FailsClean x)
    (hr : ReadOnly x) (hf : ∀ a, FailsClean (f a)) : FailsClean (x >>= f) := by
  intro s e s' h
  rw [EStateM.run_bind] at h
  cases hxs : x.run s with
  | ok a s₁ =>
    rw [hxs] at h
    rw [hr s a s₁ hxs] at h
    exact hf a s e s' h
  | error e₁ s₁ =>
    rw [hxs] at h
    cases h
    exact hx s _ _ hxs

/-- A computation that fails clean, followed by one that cannot fail, fails clean. -/
theorem FailsClean.bind_neverFails {x : SessionM α} {f : α → SessionM β} (hx : FailsClean x)
    (hf : ∀ a, NeverFails (f a)) : FailsClean (x >>= f) := by
  intro s e s' h
  rw [EStateM.run_bind] at h
  cases hxs : x.run s with
  | ok a s₁ =>
    rw [hxs] at h
    exact absurd h (hf a s₁ e s')
  | error e₁ s₁ =>
    rw [hxs] at h
    cases h
    exact hx s _ _ hxs

theorem NeverFails.bind {x : SessionM α} {f : α → SessionM β} (hx : NeverFails x)
    (hf : ∀ a, NeverFails (f a)) : NeverFails (x >>= f) := by
  intro s e s' h
  rw [EStateM.run_bind] at h
  cases hxs : x.run s with
  | ok a s₁ =>
    rw [hxs] at h
    exact hf a s₁ e s' h
  | error e₁ s₁ => exact hx s e₁ s₁ hxs

theorem ReadOnly.bind {x : SessionM α} {f : α → SessionM β} (hx : ReadOnly x)
    (hf : ∀ a, ReadOnly (f a)) : ReadOnly (x >>= f) := by
  intro s b s' h
  rw [EStateM.run_bind] at h
  cases hxs : x.run s with
  | ok a s₁ =>
    rw [hxs] at h
    rw [hf a s₁ b s' h]
    exact hx s a s₁ hxs
  | error e₁ s₁ =>
    rw [hxs] at h
    cases h

/-- A failed check ends the computation where it stands; a passed one hands its value on.
Only the values the check can give need a continuation that fails clean. -/
theorem FailsClean.orFail_bind {r : Except Fault α} {f : α → SessionM β}
    (hf : ∀ a, r = .ok a → FailsClean (f a)) : FailsClean (orFail r >>= f) := by
  cases r with
  | error e =>
    intro s e' s' h
    cases h
    rfl
  | ok a => exact hf a rfl

theorem NeverFails.forM {l : List α} {f : α → SessionM PUnit} (hf : ∀ a, NeverFails (f a)) :
    NeverFails (l.forM f) := by
  induction l with
  | nil => exact fun _ _ _ h => nomatch h
  | cons a rest ih =>
    unfold List.forM
    exact (hf a).bind fun _ => ih

theorem neverFails_pure (a : α) : NeverFails (pure a : SessionM α) := fun _ _ _ h => nomatch h

theorem readOnly_pure (a : α) : ReadOnly (pure a : SessionM α) := fun _ _ _ h => by
  cases h
  rfl

theorem neverFails_get : NeverFails (get : SessionM Session) := fun _ _ _ h => nomatch h

theorem readOnly_get : ReadOnly (get : SessionM Session) := fun _ _ _ h => by
  cases h
  rfl

theorem neverFails_modify (f : Session → Session) : NeverFails (modify f : SessionM PUnit) :=
  fun _ _ _ h => nomatch h

theorem neverFails_modifyGet (f : Session → α × Session) :
    NeverFails (modifyGet f : SessionM α) := fun _ _ _ h => nomatch h

theorem failsClean_throw (e : Fault) : FailsClean (throw e : SessionM α) := fun _ _ _ h => by
  cases h
  rfl

theorem readOnly_throw (e : Fault) : ReadOnly (throw e : SessionM α) := fun _ _ _ h => nomatch h

theorem failsClean_orFail (r : Except Fault α) : FailsClean (orFail r) := by
  cases r with
  | ok a => exact (neverFails_pure a).failsClean
  | error e => exact failsClean_throw e

theorem readOnly_orFail (r : Except Fault α) : ReadOnly (orFail r) := by
  cases r with
  | ok a => exact readOnly_pure a
  | error e => exact readOnly_throw e

/-! ## The steps of a command -/

theorem neverFails_say (text : String) : NeverFails (say text) := neverFails_modify _

theorem neverFails_modifyContext (f : Context → Context) : NeverFails (modifyContext f) :=
  neverFails_modify _

/-- A change of the context that may be refused is refused before it is made. -/
theorem failsClean_updateContext (f : Context → Except Fault Context) :
    FailsClean (updateContext f) :=
  neverFails_get.failsClean.bind readOnly_get fun _ =>
    (failsClean_orFail _).bind_neverFails fun _ => neverFails_modify _

/-- A change of the context that is always granted never fails. -/
theorem neverFails_updateContext {f : Context → Except Fault Context}
    (hf : ∀ c, ∃ c', f c = .ok c') : NeverFails (updateContext f) := by
  refine neverFails_get.bind fun s => ?_
  obtain ⟨c', hc'⟩ := hf s.ctx
  show NeverFails (orFail (f s.ctx) >>= _)
  rw [hc']
  exact (neverFails_pure c').bind fun _ => neverFails_modify _

theorem failsClean_resolveLine (name : Option String) : FailsClean (resolveLine name) :=
  neverFails_get.failsClean.bind readOnly_get fun _ => failsClean_orFail _

theorem readOnly_resolveLine (name : Option String) : ReadOnly (resolveLine name) :=
  readOnly_get.bind fun _ => readOnly_orFail _

theorem failsClean_readText (path : String) : FailsClean (readText path) := by
  refine neverFails_get.failsClean.bind readOnly_get fun s => ?_
  split
  · exact (neverFails_pure _).failsClean
  · exact failsClean_throw _

theorem readOnly_readText (path : String) : ReadOnly (readText path) := by
  refine readOnly_get.bind fun s => ?_
  split
  · exact readOnly_pure _
  · exact readOnly_throw _

theorem neverFails_resetAt (start : Address) : NeverFails (resetAt start) := neverFails_modify _

theorem neverFails_runMachine : NeverFails runMachine := neverFails_modifyGet _

theorem neverFails_reportStop (stop : Stop) : NeverFails (reportStop stop) :=
  neverFails_get.bind fun _ => neverFails_say _

/-- LOAD reads and parses the file before it touches the machine. -/
theorem failsClean_loadProgram (path : String) : FailsClean (loadProgram path) := by
  refine (failsClean_readText path).bind (readOnly_readText path) fun text => ?_
  split
  · exact failsClean_throw _
  · exact ((neverFails_modify _).bind fun _ => neverFails_resetAt _).failsClean

/-- NOBREAK reads its ranges before it clears anything, and clearing cannot fail. -/
theorem failsClean_clearBreakpoints (types : BreakTypes) (targets : List Command.BreakTarget) :
    FailsClean (clearBreakpoints types targets) := by
  unfold clearBreakpoints
  split
  · exact (neverFails_get.bind fun _ => neverFails_modifyContext _).failsClean
  · split
    · exact (neverFails_modifyContext _).failsClean
    · exact (failsClean_orFail _).bind_neverFails fun _ =>
        NeverFails.forM fun _ => neverFails_modifyContext _

/-- SHOW works out its whole report, which only reads, before it writes it. -/
theorem failsClean_showItem (item : Command.ShowItem) : FailsClean (showItem item) := by
  refine neverFails_get.failsClean.bind readOnly_get fun s => ?_
  dsimp only
  cases item with
  | breaks targets => exact (failsClean_orFail _).bind_neverFails fun _ => neverFails_say _
  | expect line pattern =>
    exact (failsClean_resolveLine line).bind (readOnly_resolveLine line) fun _ =>
      ((neverFails_pure _).bind fun _ => neverFails_say _).failsClean
  | send line =>
    exact (failsClean_resolveLine line).bind (readOnly_resolveLine line) fun _ =>
      ((neverFails_pure _).bind fun _ => neverFails_say _).failsClean
  | queue => exact ((neverFails_pure _).bind fun _ => neverFails_say _).failsClean
  | time => exact ((neverFails_pure _).bind fun _ => neverFails_say _).failsClean

theorem neverFails_runFor (n : Int) : NeverFails (runFor n) :=
  (neverFails_modifyContext _).bind fun _ => neverFails_runMachine.bind fun _ =>
    (neverFails_modifyContext _).bind fun _ => neverFails_pure _

theorem neverFails_clearExpect (i : Nat) (pattern : Option String) :
    NeverFails (clearExpect i pattern) := neverFails_modifyContext _

/-! ## BREAK over an address list -/

theorem run_updateContext (f : Context → Except Fault Context) (s : Session) :
    (updateContext f).run s = match f s.ctx with
      | .ok c => .ok () { s with ctx := c }
      | .error e => .error e s := by
  show (orFail (f s.ctx) >>= fun c => modify fun s => { s with ctx := c }).run s = _
  cases f s.ctx <;> rfl

/-- The sets of BREAK over a list of addresses with their counts. -/
def setEach (types : BreakTypes) (action : Option String) (list : List (Address × Nat)) :
    SessionM Unit :=
  list.forM fun (a, count) => updateContext fun c => c.brkSet a types count action

section SetEach

variable {types : BreakTypes} {action : Option String}

/-- Once a set of some types and action is granted on a machine, the sets of a whole list are:
each address gains a record of the granted types, and no types go anywhere. -/
theorem run_setEach_of_ok {b₀ b₁ : BreakTable} {a₀ : Address} {c₀ : Nat}
    (hg : b₀.set a₀ types c₀ action = .ok b₁) (list : List (Address × Nat)) (s : Session)
    (hs : s.ctx.breaks.typeTable = b₀.typeTable) :
    ∃ s', (setEach types action list).run s = .ok () s' ∧
      s'.ctx.breaks.typeTable = b₀.typeTable ∧
      ∀ a T, (∃ r ∈ s'.ctx.breaks.at? a, r.types = T) ↔
        (∃ r ∈ s.ctx.breaks.at? a, r.types = T) ∨
          (a ∈ list.map (·.1) ∧ BreakTable.grantedTypes b₀.typeTable types = T) := by
  induction list generalizing s with
  | nil => exact ⟨s, rfl, hs, fun a T => by simp⟩
  | cons p rest ih =>
    obtain ⟨a, n⟩ := p
    obtain ⟨b₂, hb₂⟩ := BreakTable.set_ok_of_ok hg s.ctx.breaks hs a n
    obtain ⟨s', hrun, htt, hcar⟩ :=
      ih { s with ctx := { s.ctx with breaks := b₂ } } ((BreakTable.typeTable_of_set hb₂).trans hs)
    refine ⟨s', ?_, htt, fun a' T => ?_⟩
    · simp only [setEach, List.forM, EStateM.run_bind, run_updateContext, Context.brkSet, hb₂,
        Except.map]
      exact hrun
    · rw [hcar]
      show ((∃ r ∈ b₂.at? a', r.types = T) ∨ _) ↔ _
      rw [BreakTable.exists_types_of_set hb₂, hs, List.map_cons, List.mem_cons]
      constructor
      · rintro ((h | ⟨rfl, hT⟩) | ⟨hm, hT⟩)
        · exact Or.inl h
        · exact Or.inr ⟨Or.inl rfl, hT⟩
        · exact Or.inr ⟨Or.inr hm, hT⟩
      · rintro (h | ⟨rfl | hm, hT⟩)
        · exact Or.inl (Or.inl h)
        · exact Or.inl (Or.inr ⟨rfl, hT⟩)
        · exact Or.inr ⟨hm, hT⟩

/-- BREAK over a list of addresses either fails at the first with nothing changed, or sets
them all: each address gains a record of the granted types, and no types go anywhere. -/
theorem run_setEach (list : List (Address × Nat)) (s : Session) :
    (∃ e, (setEach types action list).run s = .error e s) ∨
    ∃ s', (setEach types action list).run s = .ok () s' ∧
      ∀ a T, (∃ r ∈ s'.ctx.breaks.at? a, r.types = T) ↔
        (∃ r ∈ s.ctx.breaks.at? a, r.types = T) ∨
          (a ∈ list.map (·.1) ∧ BreakTable.grantedTypes s.ctx.breaks.typeTable types = T) := by
  cases list with
  | nil => exact Or.inr ⟨s, rfl, fun a T => by simp⟩
  | cons p rest =>
    obtain ⟨a, n⟩ := p
    -- the first set decides for all of them
    cases hset : s.ctx.breaks.set a types n action with
    | error e =>
      refine Or.inl ⟨e, ?_⟩
      simp only [setEach, List.forM, EStateM.run_bind, run_updateContext, Context.brkSet, hset,
        Except.map]
    | ok b₁ =>
      obtain ⟨s', hrun, -, hcar⟩ := run_setEach_of_ok hset ((a, n) :: rest) s rfl
      exact Or.inr ⟨s', hrun, hcar⟩

theorem failsClean_setEach (list : List (Address × Nat)) :
    FailsClean (setEach types action list) := by
  intro s e s' h
  rcases run_setEach list s with ⟨e', he⟩ | ⟨s'', hs'', -⟩
  · rw [he] at h
    cases h
    rfl
  · rw [hs''] at h
    cases h

end SetEach

theorem failsClean_setBreakpoints (types : BreakTypes) (targets : List Command.BreakTarget)
    (action : Option String) : FailsClean (setBreakpoints types targets action) := by
  unfold setBreakpoints
  split
  · exact neverFails_get.failsClean.bind readOnly_get fun _ => failsClean_updateContext _
  · exact (failsClean_orFail _).bind (readOnly_orFail _) fun list => failsClean_setEach list

/-! ## NEXT and GO -/

/-- NEXT's step-over breakpoint is always granted. -/
theorem brkSet_stepOver_ok (c : Context) (a : Address) :
    ∃ c', c.brkSet a BreakTypes.stepOver 0 none = .ok c' := by
  obtain ⟨b', hb'⟩ := BreakTable.set_stepOver_ok c.breaks a
  exact ⟨_, by rw [Context.brkSet, hb']; rfl⟩

theorem neverFails_stepOverOnce : NeverFails stepOverOnce := by
  refine neverFails_get.bind fun s => ?_
  dsimp only
  split
  · exact (neverFails_updateContext fun c => brkSet_stepOver_ok c _).bind fun _ =>
      neverFails_runMachine.bind fun _ => (neverFails_modifyContext _).bind fun _ =>
        neverFails_pure _
  · exact neverFails_runFor 1

theorem neverFails_stepOverTimes (n : Nat) : NeverFails (stepOverTimes n) := by
  induction n with
  | zero => exact neverFails_reportStop _
  | succ n ih =>
    rw [stepOverTimes]
    refine neverFails_stepOverOnce.bind fun stop => neverFails_get.bind fun s => ?_
    split
    · exact neverFails_reportStop _
    · exact ih

/-- What GO does before it runs the machine: plants the temporary breakpoint or expect rule of
its condition, and gives the pattern of a temporary rule. -/
def goSetup : Option Command.Until → SessionM (Option String)
  | none => pure none
  | some (.address a) => do
    updateContext fun c => c.brkSet a (BreakTypes.temp.union c.breaks.typeTable.defaultTypes) 0 none
    pure none
  | some (.output pattern) => do
    let c := (← get).ctx
    if (c.lines[0]?.bind fun l => l.expect.find? pattern).isSome then
      throw (.expectRuleExists pattern)
    updateContext fun c => c.expSet 0 pattern 0 0 Switches.empty none
    pure (some pattern)

/-- What GO does once the machine has stopped: drops the temporary breakpoints and rule and
says why it stopped. -/
def goFinish (temporary : Option String) : SessionM Unit := do
  let stop ← runMachine
  modifyContext fun c => { c with breaks := c.breaks.clearAll BreakTypes.temp }
  match temporary with
  | some pattern =>
    modifyContext fun c => c.modifyLine 0 fun l => { l with expect := l.expect.clear pattern }
  | none => pure ()
  reportStop stop

/-- What GO does after its setup: moves the program counter, if asked, and runs. -/
def goRun (start : Option Address) (temporary : Option String) : SessionM Unit := do
  match start with
  | some a =>
    modify fun s => { s with machine := { s.machine with pc := a },
                             ctx := { s.ctx with breaks := s.ctx.breaks.newPc 0 } }
  | none => pure ()
  goFinish temporary

theorem go_eq (start : Option Address) (cond : Option Command.Until) :
    go start cond = goSetup cond >>= goRun start := by
  cases cond with
  | none => rfl
  | some u =>
    cases u with
    | address a =>
      simp only [goSetup, bind_assoc, pure_bind]
      rfl
    | output p =>
      simp only [goSetup, bind_assoc]
      unfold go
      dsimp only
      congr 1
      funext s
      split
      · rfl
      · simp only [bind_assoc, pure_bind]
        rfl

/-- GO's setup checks for a rule of the operator's before it plants its own. -/
theorem failsClean_goSetup (cond : Option Command.Until) : FailsClean (goSetup cond) := by
  cases cond with
  | none => exact (neverFails_pure _).failsClean
  | some u =>
    cases u with
    | address a =>
      exact (failsClean_updateContext _).bind_neverFails fun _ => neverFails_pure _
    | output p =>
      refine neverFails_get.failsClean.bind readOnly_get fun s => ?_
      dsimp only
      split
      · exact (failsClean_throw _).bind (readOnly_throw _) fun _ =>
          (failsClean_updateContext _).bind_neverFails fun _ => neverFails_pure _
      · exact (failsClean_updateContext _).bind_neverFails fun _ => neverFails_pure _

theorem neverFails_goFinish (temporary : Option String) : NeverFails (goFinish temporary) := by
  unfold goFinish
  refine neverFails_runMachine.bind fun stop => (neverFails_modifyContext _).bind fun _ => ?_
  dsimp only
  split
  · exact (neverFails_modifyContext _).bind fun _ => neverFails_reportStop stop
  · exact neverFails_reportStop stop

theorem neverFails_goRun (start : Option Address) (temporary : Option String) :
    NeverFails (goRun start temporary) := by
  unfold goRun
  dsimp only
  split
  · exact (neverFails_modify _).bind fun _ => neverFails_goFinish temporary
  · exact neverFails_goFinish temporary

theorem failsClean_go (start : Option Address) (cond : Option Command.Until) :
    FailsClean (go start cond) := by
  rw [go_eq]
  exact (failsClean_goSetup cond).bind_neverFails (neverFails_goRun start)

/-! ## A command line -/

/-- Every command but DO checks all it can refuse before it changes anything. -/
theorem failsClean_execute (fuel : Nat) (text : String)
    (hdo : ∀ file, Command.parse text ≠ .ok (.runFile file)) :
    FailsClean (execute fuel text) := by
  cases fuel with
  | zero =>
    rw [execute]
    exact (neverFails_pure _).failsClean
  | succ fuel =>
    rw [execute]
    refine FailsClean.orFail_bind fun cmd hcmd => ?_
    cases cmd with
    | blank => exact (neverFails_pure _).failsClean
    | setBreak types targets action => exact failsClean_setBreakpoints types targets action
    | clearBreak types targets => exact failsClean_clearBreakpoints types targets
    | expect sw line count after pattern action =>
      exact (failsClean_resolveLine line).bind (readOnly_resolveLine line) fun _ =>
        failsClean_updateContext _
    | noExpect line pattern =>
      exact (failsClean_resolveLine line).bind (readOnly_resolveLine line) fun i =>
        (neverFails_clearExpect i pattern).failsClean
    | send sw line after delay data =>
      exact (failsClean_resolveLine line).bind (readOnly_resolveLine line) fun _ =>
        (failsClean_orFail _).bind_neverFails fun _ => neverFails_modifyContext _
    | noSend line =>
      exact (failsClean_resolveLine line).bind (readOnly_resolveLine line) fun _ =>
        (neverFails_modifyContext _).failsClean
    | report item => exact failsClean_showItem item
    | step n => exact ((neverFails_runFor _).bind fun stop => neverFails_reportStop stop).failsClean
    | stepOver n => exact (neverFails_stepOverTimes n).failsClean
    | go start cond => exact failsClean_go start cond
    | run start =>
      exact ((neverFails_resetAt _).bind fun _ => neverFails_runMachine.bind fun stop =>
        neverFails_reportStop stop).failsClean
    | resume => exact (neverFails_runMachine.bind fun stop => neverFails_reportStop stop).failsClean
    | load file => exact failsClean_loadProgram file
    | runFile file => exact absurd hcmd (hdo file)
    | echo t => exact (neverFails_say _).failsClean
    | exit => exact (neverFails_modify _).failsClean

theorem run_command_setBreak {line : String} {types : BreakTypes}
    {targets : List Command.BreakTarget} {action : Option String}
    (hp : Command.parse line = .ok (.setBreak types targets action)) (s : Session) :
    (command line).run s = (setBreakpoints types targets action).run s := by
  rw [command, show workBudget = 16777215 + 1 from rfl, execute, EStateM.run_bind, hp]
  rfl

/-- A BREAK that succeeds carries a breakpoint of the granted types at every address it
lists. -/
theorem setBreakpoints_sets_all {types : BreakTypes} {targets : List Command.BreakTarget}
    {action : Option String} {list : List (Address × Nat)} (haddr : addresses targets = .ok list)
    {s s' : Session} (h : (setBreakpoints types targets action).run s = .ok () s') :
    ∀ p ∈ list, ∃ r ∈ s'.ctx.breaks.at? p.1,
      r.types = BreakTable.grantedTypes s.ctx.breaks.typeTable types := by
  unfold setBreakpoints at h
  split at h
  · -- no targets name no addresses
    rename_i hnil
    rw [List.isEmpty_iff.mp hnil] at haddr
    cases haddr
    nofun
  · rw [EStateM.run_bind, haddr] at h
    change (setEach types action list).run s = .ok () s' at h
    intro p hp
    rcases run_setEach list s with ⟨e, he⟩ | ⟨s'', hs'', hcar⟩
    · rw [he] at h
      cases h
    · rw [hs''] at h
      cases h
      exact (hcar p.1 _).mpr (Or.inr ⟨List.mem_map_of_mem hp, rfl⟩)

/-- A command line other than DO that fails leaves the session exactly as it was: the
breakpoints, the pending actions, every line's expect rules and send queue, the scheduler,
the machine and the output. So BREAK over an address list sets a breakpoint at every address
or at none: when it succeeds, every address listed carries a record of the granted types. -/
theorem refused_command_changes_nothing (line : String)
    (hdo : ∀ file, Command.parse line ≠ .ok (.runFile file)) (s : Session) :
    (∀ e s', (command line).run s = .error e s' → s' = s) ∧
    (∀ types targets action list s',
      Command.parse line = .ok (.setBreak types targets action) →
      addresses targets = .ok list → (command line).run s = .ok () s' →
      ∀ p ∈ list, ∃ r ∈ s'.ctx.breaks.at? p.1,
        r.types = BreakTable.grantedTypes s.ctx.breaks.typeTable types) :=
  ⟨failsClean_execute workBudget line hdo s, fun _ _ _ _ _ hp haddr h =>
    setBreakpoints_sets_all haddr ((run_command_setBreak hp s).symm.trans h)⟩

/-- After BREAK 5, two BREAK lines over addresses 1 to 2: with the unsupported type Z the line
fails, which leaves the session as it was; with the default type it succeeds, and both
addresses carry the breakpoint. -/
theorem refused_command_changes_nothing_of_breaks :
    let s := (exec (command "BREAK 5") (Session.new {} false {})).2
    let bad := "BREAK -Z 1-2"
    let good := "BREAK 1-2"
    let targets : List Command.BreakTarget := [⟨.span (Address.ofNat 1) (Address.ofNat 2), 0⟩]
    (Command.parse bad = .ok (.setBreak ((BreakTypes.letter? 'Z').getD .empty) targets none) ∧
      (exec (command bad) s).1.isOk = false ∧
      (∀ file, Command.parse bad ≠ .ok (.runFile file)) ∧
      ((∀ e s', (command bad).run s = .error e s' → s' = s) ∧
        (∀ types targets action list s',
          Command.parse bad = .ok (.setBreak types targets action) →
          addresses targets = .ok list → (command bad).run s = .ok () s' →
          ∀ p ∈ list, ∃ r ∈ s'.ctx.breaks.at? p.1,
            r.types = BreakTable.grantedTypes s.ctx.breaks.typeTable types))) ∧
    (Command.parse good = .ok (.setBreak BreakTypes.empty targets none) ∧
      addresses targets = .ok [(Address.ofNat 1, 0), (Address.ofNat 2, 0)] ∧
      (exec (command good) s).1 = .ok () ∧
      (∀ file, Command.parse good ≠ .ok (.runFile file)) ∧
      ((∀ e s', (command good).run s = .error e s' → s' = s) ∧
        (∀ types targets action list s',
          Command.parse good = .ok (.setBreak types targets action) →
          addresses targets = .ok list → (command good).run s = .ok () s' →
          ∀ p ∈ list, ∃ r ∈ s'.ctx.breaks.at? p.1,
            r.types = BreakTable.grantedTypes s.ctx.breaks.typeTable types))) := by
  intro s bad good targets
  have hbad : Command.parse bad = .ok (.setBreak ((BreakTypes.letter? 'Z').getD .empty) targets none) := by
    decide +kernel
  have hgood : Command.parse good = .ok (.setBreak BreakTypes.empty targets none) := by
    decide +kernel
  have hdo_bad : ∀ file, Command.parse bad ≠ .ok (.runFile file) := by
    intro file h
    rw [hbad] at h
    cases h
  have hdo_good : ∀ file, Command.parse good ≠ .ok (.runFile file) := by
    intro file h
    rw [hgood] at h
    cases h
  exact ⟨⟨hbad, by decide +kernel, hdo_bad, refused_command_changes_nothing bad hdo_bad s⟩,
    ⟨hgood, by decide +kernel, by decide +kernel, hdo_good, refused_command_changes_nothing good hdo_good s⟩⟩

end Session

end SimControl
