import Mathlib
import SimControl.Proofs.PlantedRecords
/-!
# Between commands no breakpoint is planted

NEXT over a call plants a step-over breakpoint after it, and GO UNTIL an address plants a
temporary one there; each sweeps the types it planted once the machine stops, and nothing can
fail between the planting and the sweep. BREAK asks only for letters. So in every state the
interpreter reaches, between commands, no record has the step-over, user or temporary flag,
and the machine runs RUN, CONTINUE and STEP with no dynamic type in the summary.

GO UNTIL a text plants a temporary expect rule instead, unless the operator already has a rule
for the text, and drops it once the machine stops.

* `Triple`: a Hoare triple for the interpreter, with one lemma per way of putting computations
  together, and one per step of a command.
* `keeps_commands`: the commands, DO files, their lines and the staged actions keep the table
  settled, by induction on the fuel they share.
* `Reachable`: the states reached from a fresh interpreter.
-/

namespace SimControl

namespace Session

open BreakTable Bench

variable {α β : Type}

/-! ## Hoare triples -/

/-- Run from a state satisfying `P`, a computation that succeeds with `a` ends in a state
satisfying `Q a`, and one that fails in a state satisfying `F`. -/
def Triple (P : Session → Prop) (x : SessionM α) (Q : α → Session → Prop) (F : Session → Prop) :
    Prop :=
  ∀ s, P s → (∀ a s', x.run s = .ok a s' → Q a s') ∧ (∀ e s', x.run s = .error e s' → F s')

section Triple

variable {P P' : Session → Prop} {Q Q' : α → Session → Prop} {R : β → Session → Prop}
  {F F' : Session → Prop}

theorem Triple.bind {x : SessionM α} {f : α → SessionM β} (hx : Triple P x Q F)
    (hf : ∀ a, Triple (Q a) (f a) R F) : Triple P (x >>= f) R F := by
  intro s hs
  rw [EStateM.run_bind]
  cases hxs : x.run s with
  | ok a s₁ => exact hf a s₁ ((hx s hs).1 a s₁ hxs)
  | error e s₁ =>
    refine ⟨fun b s' h => ?_, fun e' s' h => ?_⟩
    · cases h
    · cases h
      exact (hx s hs).2 e s₁ hxs

theorem Triple.weaken {x : SessionM α} (h : Triple P x Q F) (hP : ∀ s, P' s → P s)
    (hQ : ∀ a s, Q a s → Q' a s) (hF : ∀ s, F s → F' s) : Triple P' x Q' F' := by
  intro s hs
  obtain ⟨hok, herr⟩ := h s (hP s hs)
  exact ⟨fun a s' hr => hQ a s' (hok a s' hr), fun e s' hr => hF s' (herr e s' hr)⟩

theorem triple_pure (a : α) : Triple (Q a) (pure a) Q F := by
  intro s hs
  refine ⟨fun b s' h => ?_, fun _ _ h => nomatch h⟩
  cases h
  exact hs

theorem triple_get : Triple P get (fun _ => P) F := by
  intro s hs
  refine ⟨fun b s' h => ?_, fun _ _ h => nomatch h⟩
  cases h
  exact hs

theorem triple_modify {f : Session → Session} {Q : PUnit → Session → Prop}
    (hf : ∀ s, P s → Q () (f s)) : Triple P (modify f) Q F := by
  intro s hs
  refine ⟨fun b s' h => ?_, fun _ _ h => nomatch h⟩
  cases h
  exact hf s hs

theorem triple_modifyGet {f : Session → α × Session} (hf : ∀ s, P s → Q (f s).1 (f s).2) :
    Triple P (modifyGet f) Q F := by
  intro s hs
  refine ⟨fun b s' h => ?_, fun _ _ h => nomatch h⟩
  cases h
  exact hf s hs

theorem triple_throw (e : Fault) (hF : ∀ s, P s → F s) : Triple P (throw e : SessionM α) Q F := by
  intro s hs
  refine ⟨fun _ _ h => (nomatch h), fun _ s' h => ?_⟩
  cases h
  exact hF s hs

/-- A computation that starts by failing fails where it stands. -/
theorem Triple.throw_bind (e : Fault) {f : α → SessionM β} (hF : ∀ s, P s → F s) :
    Triple P (throw e >>= f) R F :=
  (triple_throw (Q := fun _ _ => False) e hF).bind fun _ _ h => h.elim

/-- A failed check fails where it stands; a passed one hands its value on. -/
theorem Triple.orFail_bind {r : Except Fault α} {f : α → SessionM β} (hF : ∀ s, P s → F s)
    (hf : ∀ a, r = .ok a → Triple P (f a) R F) : Triple P (orFail r >>= f) R F := by
  cases r with
  | error e => exact Triple.throw_bind e hF
  | ok a =>
    show Triple P (pure a >>= f) R F
    rw [pure_bind]
    exact hf a rfl

theorem Triple.forM {l : List α} {f : α → SessionM PUnit}
    (hf : ∀ a, Triple P (f a) (fun _ => P) F) : Triple P (l.forM f) (fun _ => P) F := by
  induction l with
  | nil => exact triple_pure (Q := fun _ => P) _
  | cons a rest ih =>
    unfold List.forM
    exact (hf a).bind fun _ => ih

theorem run_attempt (x : SessionM Unit) (s : Session) :
    (attempt x).run s = match x.run s with
      | .ok _ s' => .ok (.ok ()) s'
      | .error e s' => .ok (.error e) s' := by
  cases h : x.run s with
  | ok a s' =>
    simp only [EStateM.run] at h ⊢
    simp only [attempt, tryCatch, tryCatchThe, MonadExceptOf.tryCatch, EStateM.tryCatch, bind,
      EStateM.bind, h, pure, EStateM.pure]
  | error e s' =>
    simp only [EStateM.run] at h ⊢
    simp only [attempt, tryCatch, tryCatchThe, MonadExceptOf.tryCatch, EStateM.tryCatch, bind,
      EStateM.bind, h, pure, EStateM.pure]
    rfl

/-- A computation whose failures end where its successes do, caught. -/
theorem Triple.attempt {x : SessionM Unit} {Q : Session → Prop}
    (hx : Triple P x (fun _ => Q) Q) : Triple P (attempt x) (fun _ => Q) F := by
  intro s hs
  obtain ⟨hok, herr⟩ := hx s hs
  rw [run_attempt]
  cases hxs : x.run s with
  | ok a s₁ => exact ⟨fun _ _ h => by cases h; exact hok a s₁ hxs, fun _ _ h => (nomatch h)⟩
  | error e s₁ => exact ⟨fun _ _ h => by cases h; exact herr e s₁ hxs, fun _ _ h => (nomatch h)⟩

theorem triple_orFail (r : Except Fault α) (hF : ∀ s, P s → F s) :
    Triple P (orFail r) (fun _ => P) F := by
  cases r with
  | error e => exact triple_throw e hF
  | ok a => exact triple_pure (Q := fun _ => P) a

/-- A change of the context that may be refused is refused with the state as it was. -/
theorem triple_updateContext {f : Context → Except Fault Context} {Q : Session → Prop}
    (hf : ∀ s c', P s → f s.ctx = .ok c' → Q { s with ctx := c' }) (hF : ∀ s, P s → F s) :
    Triple P (updateContext f) (fun _ => Q) F := by
  intro s hs
  rw [run_updateContext]
  cases hfs : f s.ctx with
  | ok c' => exact ⟨fun _ _ h => by cases h; exact hf s c' hs hfs, fun _ _ h => (nomatch h)⟩
  | error e => exact ⟨fun _ _ h => (nomatch h), fun _ _ h => by cases h; exact hF s hs⟩

end Triple

/-! ## The table while a command runs -/

/-- The table is sweepable of the types `c` a command has planted. -/
def Planting (c : BreakTypes) (s : Session) : Prop := s.ctx.breaks.Sweepable c

/-- Between commands: nothing is planted. -/
abbrev Settled : Session → Prop := Planting BreakTypes.empty

/-- A computation that leaves the session settled, whether it succeeds or fails. -/
abbrev Keeps (x : SessionM α) : Prop := Triple Settled x (fun _ => Settled) Settled

theorem keeps_pure (a : α) : Keeps (pure a : SessionM α) := triple_pure (Q := fun _ => Settled) a

theorem Settled.planting {s : Session} (h : Settled s) (c : BreakTypes) : Planting c s :=
  BreakTable.Settled.sweepable h c

variable {c : BreakTypes} {F : Session → Prop}

/-- A change of the state that leaves the table alone. -/
theorem triple_modify_breaks {f : Session → Session} (hf : ∀ s, (f s).ctx.breaks = s.ctx.breaks) :
    Triple (Planting c) (modify f) (fun _ => Planting c) F :=
  triple_modify fun s hs => by
    unfold Planting
    rw [hf]
    exact hs

theorem triple_modifyContext {g : Context → Context} (hg : ∀ ctx, (g ctx).breaks = ctx.breaks) :
    Triple (Planting c) (modifyContext g) (fun _ => Planting c) F :=
  triple_modify_breaks fun s => hg s.ctx

theorem triple_say (text : String) : Triple (Planting c) (say text) (fun _ => Planting c) F :=
  triple_modify_breaks fun _ => rfl

theorem keeps_complain (e : Fault) : Keeps (complain e) := triple_modify_breaks fun _ => rfl

/-- A change of the context that may be refused and leaves the table alone. -/
theorem keeps_updateContext {f : Context → Except Fault Context}
    (hf : ∀ ctx ctx', f ctx = .ok ctx' → ctx'.breaks = ctx.breaks) : Keeps (updateContext f) :=
  triple_updateContext (fun s c' hs h => by
    show c'.breaks.Settled
    rw [hf s.ctx c' h]
    exact hs) fun _ hs => hs

theorem keeps_resolveLine (name : Option String) : Keeps (resolveLine name) :=
  triple_get.bind fun _ => triple_orFail _ fun _ hs => hs

theorem keeps_readText (path : String) : Keeps (readText path) := by
  refine triple_get.bind fun s => ?_
  split
  · exact keeps_pure _
  · exact triple_throw _ fun _ hs => hs

theorem triple_resetAt (start : Address) :
    Triple (Planting c) (resetAt start) (fun _ => Planting c) F :=
  triple_modify fun _ hs => Sweepable.newPc hs 0

theorem keeps_loadProgram (path : String) : Keeps (loadProgram path) := by
  refine (keeps_readText path).bind fun text => ?_
  split
  · exact triple_throw _ fun _ hs => hs
  · exact (triple_modify_breaks fun _ => by rfl).bind fun _ => triple_resetAt _

/-- A run of the machine only tests the table, which keeps it sweepable. -/
theorem triple_runMachine : Triple (Planting c) runMachine (fun _ => Planting c) F := by
  refine triple_modifyGet fun s hs => ?_
  have htested := Machine.tested_run sliceBudget s.machine s.ctx s.out
  rcases hrun : s.machine.run sliceBudget s.ctx s.out with ⟨stop, m, c', out⟩
  rw [hrun] at htested
  exact htested.sweepable hs

theorem triple_reportStop (stop : Stop) :
    Triple (Planting c) (reportStop stop) (fun _ => Planting c) F :=
  triple_get.bind fun _ => triple_say _

/-! ## Breakpoints the operator sets and clears -/

/-- A granted set keeps the table sweepable when the types it grants are unplanted or are to be
swept. -/
theorem sweepable_brkSet {ctx ctx' : Context} {a : Address} {types : BreakTypes} {count : Nat}
    {action : Option String} (hs : ctx.breaks.Sweepable c)
    (hg : (grantedTypes ctx.breaks.typeTable types).Unplanted ∨
      (grantedTypes ctx.breaks.typeTable types).intersects c = true)
    (h : ctx.brkSet a types count action = .ok ctx') : ctx'.breaks.Sweepable c := by
  unfold Context.brkSet at h
  cases hset : ctx.breaks.set a types count action with
  | error e =>
    rw [hset] at h
    cases h
  | ok b =>
    rw [hset] at h
    cases h
    exact hs.set hset hg

theorem keeps_setBreakpoints {types : BreakTypes} (ht : types.Unplanted)
    (targets : List Command.BreakTarget) (action : Option String) :
    Keeps (setBreakpoints types targets action) := by
  have hset : ∀ a count, Keeps (updateContext fun c => c.brkSet a types count action) :=
    fun _ _ => triple_updateContext (fun _ _ hs h =>
      sweepable_brkSet hs (Or.inl (unplanted_grantedTypes hs.default_unplanted ht)) h) fun _ hs => hs
  unfold setBreakpoints
  split
  · exact triple_get.bind fun _ => hset _ _
  · exact Triple.orFail_bind (fun _ hs => hs) fun list _ => Triple.forM fun _ => hset _ _

theorem Sweepable.foldl_clear {b : BreakTable} (hb : b.Sweepable c) (addrs : List Address)
    (types : BreakTypes) : (addrs.foldl (fun b a => b.clear a types) b).Sweepable c := by
  induction addrs generalizing b with
  | nil => exact hb
  | cons a rest ih => exact ih (hb.clear a types)

theorem keeps_clearBreakpoints (types : BreakTypes) (targets : List Command.BreakTarget) :
    Keeps (clearBreakpoints types targets) := by
  unfold clearBreakpoints
  split
  · exact triple_get.bind fun _ => triple_modify fun _ hs => Sweepable.clear hs _ types
  · split
    · exact triple_modify fun _ hs => Sweepable.clearAll hs types
    · refine Triple.orFail_bind (fun _ hs => hs) fun rs _ => Triple.forM fun _ => ?_
      exact triple_modify fun s hs => Sweepable.foldl_clear hs _ types

theorem keeps_showItem (item : Command.ShowItem) : Keeps (showItem item) := by
  unfold showItem
  refine triple_get.bind fun s => ?_
  dsimp only
  cases item with
  | breaks targets => exact (triple_orFail _ fun _ hs => hs).bind fun _ => triple_say _
  | expect line pattern | send line =>
    exact (keeps_resolveLine line).bind fun _ =>
      (keeps_pure _).bind fun _ => triple_say _
  | queue | time => exact (keeps_pure _).bind fun _ => triple_say _

/-! ## Commands that run the machine -/

theorem keeps_runFor (n : Int) : Keeps (runFor n) :=
  (triple_modifyContext fun _ => by rfl).bind fun _ => triple_runMachine.bind fun _ =>
    (triple_modifyContext fun _ => by rfl).bind fun _ => keeps_pure _

theorem clearMask_stepOver : clearMask BreakTypes.stepOver = BreakTypes.stepOver := by decide

theorem clearMask_temp : clearMask BreakTypes.temp = BreakTypes.temp := by decide

/-- NEXT over a call plants a step-over breakpoint after it, runs, and sweeps step-over
breakpoints: nothing between can fail. -/
theorem keeps_stepOverOnce : Keeps stepOverOnce := by
  unfold stepOverOnce
  refine triple_get.bind fun s => ?_
  dsimp only
  split
  · have hplant : Triple Settled
        (updateContext fun c => c.brkSet s.machine.pc.successor BreakTypes.stepOver 0 none)
        (fun _ => Planting BreakTypes.stepOver) Settled :=
      triple_updateContext (fun _ _ hs h => sweepable_brkSet (hs.planting _)
        (Or.inr (intersects_grantedTypes _ (by decide))) h) fun _ hs => hs
    refine hplant.bind fun _ => triple_runMachine.bind fun _ => ?_
    refine Triple.bind (Q := fun _ => Settled) ?_ fun _ => keeps_pure _
    exact triple_modify fun _ hs => by
      show Sweepable _ _
      exact (Sweepable.sweep hs clearMask_stepOver)
  · exact keeps_runFor 1

theorem keeps_stepOverTimes (n : Nat) : Keeps (stepOverTimes n) := by
  induction n with
  | zero => exact triple_reportStop _
  | succ n ih =>
    rw [stepOverTimes]
    refine keeps_stepOverOnce.bind fun stop => triple_get.bind fun _ => ?_
    split
    · exact triple_reportStop _
    · exact ih

theorem breaks_expSet {ctx ctx' : Context} {line : Nat} {pattern : String} {count after : Nat}
    {sw : Switches} {action : Option String}
    (h : ctx.expSet line pattern count after sw action = .ok ctx') : ctx'.breaks = ctx.breaks := by
  unfold Context.expSet at h
  split at h
  · cases h
    rfl
  · rename_i l _
    cases he : l.expect.set pattern count after sw action with
    | error e =>
      rw [he] at h
      cases h
    | ok e =>
      rw [he] at h
      cases h
      rfl

/-- GO UNTIL an address plants a temporary breakpoint there; GO UNTIL a text plants no
breakpoint. -/
theorem triple_goSetup (cond : Option Command.Until) :
    Triple Settled (goSetup cond) (fun _ => Planting BreakTypes.temp) Settled := by
  have hpure : ∀ t : Option String,
      Triple Settled (pure t) (fun _ => Planting BreakTypes.temp) Settled := fun t =>
    (triple_pure (Q := fun _ => Planting BreakTypes.temp) t).weaken
      (fun _ hs => Settled.planting hs _) (fun _ _ h => h) (fun _ h => h)
  cases cond with
  | none => exact hpure none
  | some u =>
    cases u with
    | address a =>
      refine Triple.bind (Q := fun _ => Planting BreakTypes.temp) ?_ fun _ =>
        triple_pure (Q := fun _ => Planting BreakTypes.temp) none
      exact triple_updateContext (fun _ _ hs h => sweepable_brkSet (hs.planting _)
        (Or.inr (intersects_grantedTypes _ (BreakTypes.temp_union_intersects_temp _))) h)
        fun _ hs => hs
    | output p =>
      refine triple_get.bind fun s => ?_
      dsimp only
      split
      · exact Triple.throw_bind _ fun _ hs => hs
      · exact (keeps_updateContext fun _ _ h => breaks_expSet h).bind fun _ => hpure (some p)

theorem triple_goFinish (temporary : Option String) :
    Triple (Planting BreakTypes.temp) (goFinish temporary) (fun _ => Settled) Settled := by
  unfold goFinish
  refine triple_runMachine.bind fun stop => Triple.bind (Q := fun _ => Settled) ?_ fun _ => ?_
  · exact triple_modify fun _ hs => Sweepable.sweep hs clearMask_temp
  · dsimp only
    split
    · exact (triple_modifyContext fun _ => by rfl).bind fun _ => triple_reportStop stop
    · exact triple_reportStop stop

theorem triple_goRun (start : Option Address) (temporary : Option String) :
    Triple (Planting BreakTypes.temp) (goRun start temporary) (fun _ => Settled) Settled := by
  unfold goRun
  dsimp only
  split
  · exact (triple_modify fun _ hs => Sweepable.newPc hs 0).bind fun _ => triple_goFinish temporary
  · exact triple_goFinish temporary

/-- GO sweeps the temporary breakpoint it planted once the machine stops. -/
theorem keeps_go (start : Option Address) (cond : Option Command.Until) : Keeps (go start cond) := by
  rw [go_eq]
  exact (triple_goSetup cond).bind fun _ => triple_goRun start _

/-! ## Commands, files and actions -/

theorem keeps_execute {fuel : Nat} (hfile : ∀ path, Keeps (doFile fuel path)) (text : String) :
    Keeps (execute (fuel + 1) text) := by
  rw [execute]
  refine Triple.orFail_bind (fun _ hs => hs) fun cmd hcmd => ?_
  cases cmd with
  | blank => exact keeps_pure _
  | setBreak types targets action =>
    exact keeps_setBreakpoints (Command.asksLetters_of_parse hcmd) targets action
  | clearBreak types targets => exact keeps_clearBreakpoints types targets
  | expect sw line count after pattern action =>
    exact (keeps_resolveLine line).bind fun _ => keeps_updateContext fun _ _ h => breaks_expSet h
  | noExpect line pattern =>
    exact (keeps_resolveLine line).bind fun _ => triple_modifyContext fun _ => by rfl
  | send sw line after delay data =>
    exact (keeps_resolveLine line).bind fun _ => Triple.orFail_bind (fun _ hs => hs) fun _ _ =>
      triple_modifyContext fun _ => by rfl
  | noSend line => exact (keeps_resolveLine line).bind fun _ => triple_modifyContext fun _ => by rfl
  | report item => exact keeps_showItem item
  | step n => exact (keeps_runFor _).bind fun stop => triple_reportStop stop
  | stepOver n => exact keeps_stepOverTimes n
  | go start cond => exact keeps_go start cond
  | run start =>
    exact (triple_resetAt _).bind fun _ => triple_runMachine.bind fun stop => triple_reportStop stop
  | resume => exact triple_runMachine.bind fun stop => triple_reportStop stop
  | load file => exact keeps_loadProgram file
  | runFile file => exact hfile file
  | echo t => exact triple_say _
  | exit => exact triple_modify_breaks fun _ => by rfl

theorem keeps_doFile {fuel : Nat} (hlines : ∀ lines, Keeps (executeLines fuel lines)) (path : String) :
    Keeps (doFile (fuel + 1) path) := by
  rw [doFile]
  refine triple_get.bind fun s => ?_
  dsimp only
  split
  · exact Triple.throw_bind _ fun _ hs => hs
  · -- the file's lines run caught, between the two changes of depth
    exact (keeps_readText path).bind fun _ => (triple_modify_breaks fun _ => by rfl).bind fun _ =>
      (Triple.attempt (hlines _)).bind fun r => (triple_modify_breaks fun _ => by rfl).bind fun _ =>
        triple_orFail r fun _ hs => hs

theorem keeps_executeLines {fuel : Nat} (hpending : Keeps (runPendingActions fuel))
    (hexec : ∀ line, Keeps (execute fuel line)) (hlines : ∀ lines, Keeps (executeLines fuel lines))
    (lines : List String) : Keeps (executeLines (fuel + 1) lines) := by
  cases lines with
  | nil => exact keeps_pure _
  | cons line rest =>
    rw [executeLines]
    refine hpending.bind fun _ => triple_get.bind fun s => ?_
    split
    · exact keeps_pure _
    · exact (hexec line).bind fun _ => hlines rest

theorem breaks_nextCommand (ctx : Context) : ctx.nextCommand.2.breaks = ctx.breaks := by
  unfold Context.nextCommand
  split
  rfl

/-- A staged command runs caught, its fault reported, and the staged commands after it follow. -/
theorem keeps_runAction {fuel : Nat} (hpending : Keeps (runPendingActions fuel))
    (hexec : ∀ line, Keeps (execute fuel line)) (cmd : String) :
    Keeps (do
      match ← attempt (execute fuel cmd) with
      | .error e => complain e
      | .ok () => pure ()
      runPendingActions fuel) := by
  refine (Triple.attempt (hexec cmd)).bind fun r => ?_
  split
  · exact (keeps_complain _).bind fun _ => hpending
  · exact hpending

theorem keeps_runPendingActions {fuel : Nat} (hpending : Keeps (runPendingActions fuel))
    (hexec : ∀ line, Keeps (execute fuel line)) : Keeps (runPendingActions (fuel + 1)) := by
  rw [runPendingActions]
  refine Triple.bind (Q := fun _ => Settled) ?_ fun cmd => ?_
  · refine triple_modifyGet fun s hs => ?_
    dsimp only
    split
    · exact hs
    · show s.ctx.nextCommand.2.breaks.Settled
      rw [breaks_nextCommand]
      exact hs
  · split
    · exact keeps_pure _
    · refine triple_get.bind fun s => ?_
      dsimp only
      split
      · exact (triple_say _).bind fun _ => keeps_runAction hpending hexec _
      · exact keeps_runAction hpending hexec _

/-- Commands, DO files, the lines of a file and the staged actions keep the session settled at
every fuel: each calls the others with less. -/
theorem keeps_commands (fuel : Nat) :
    (∀ line, Keeps (execute fuel line)) ∧ (∀ path, Keeps (doFile fuel path)) ∧
    (∀ lines, Keeps (executeLines fuel lines)) ∧ Keeps (runPendingActions fuel) := by
  induction fuel with
  | zero =>
    refine ⟨fun line => ?_, fun path => ?_, fun lines => ?_, ?_⟩
    · rw [execute]
      exact keeps_pure _
    · rw [doFile]
      exact keeps_pure _
    · rw [executeLines]
      exact keeps_pure _
    · rw [runPendingActions]
      exact keeps_pure _
  | succ fuel ih =>
    obtain ⟨hexec, hfile, hlines, hpending⟩ := ih
    exact ⟨keeps_execute hfile, keeps_doFile hlines, keeps_executeLines hpending hexec hlines,
      keeps_runPendingActions hpending hexec⟩

theorem Settled.exec {x : SessionM Unit} (hx : Keeps x) {s : Session} (hs : Settled s) :
    Settled (exec x s).2 := by
  unfold Session.exec
  cases h : x.run s with
  | ok a s' => exact (hx s hs).1 a s' h
  | error e s' => exact (hx s hs).2 e s' h

/-! ## The reachable states -/

/-- The states an interpreter reaches from a fresh one: through command lines, DO files and
staged actions at any fuel, program loads, and hand-overs of its output. -/
inductive Reachable : Session → Prop
  | new (cfg : Config) (quiet : Bool) (volume : Volume) (host : Host) :
      Reachable (Session.new cfg quiet volume host)
  | command {s : Session} (fuel : Nat) (line : String) :
      Reachable s → Reachable (exec (execute fuel line) s).2
  | file {s : Session} (fuel : Nat) (path : String) :
      Reachable s → Reachable (exec (doFile fuel path) s).2
  | actions {s : Session} (fuel : Nat) : Reachable s → Reachable (exec (runPendingActions fuel) s).2
  | load {s : Session} (path : String) : Reachable s → Reachable (exec (loadProgram path) s).2
  | drain {s : Session} : Reachable s → Reachable s.drain.2

/-- The command loop reaches no other states: a line of input and the actions it stages. -/
theorem Reachable.respond {s : Session} (hs : s.Reachable) (line : String) :
    (s.respond line).2.Reachable :=
  .drain (.actions _ (.drain (.command _ line hs)))

theorem settled_new (cfg : Config) (quiet : Bool) (volume : Volume) (host : Host) :
    Settled (Session.new cfg quiet volume host) :=
  BreakTable.settled_new Bench.breakTypeTable (by decide) (by decide)
    ⟨by decide, by decide, by decide⟩

theorem Reachable.settled {s : Session} (hs : s.Reachable) : Settled s := by
  induction hs with
  | new cfg quiet volume host => exact settled_new cfg quiet volume host
  | command fuel line _ ih => exact ih.exec ((keeps_commands fuel).1 line)
  | file fuel path _ ih => exact ih.exec ((keeps_commands fuel).2.1 path)
  | actions fuel _ ih => exact ih.exec (keeps_commands fuel).2.2.2
  | load path _ ih => exact ih.exec (keeps_loadProgram path)
  | drain _ ih => exact ih

/-! ## GO UNTIL a text -/

/-- No expect rule of the console line is for the pattern. -/
def ClearOf (p : String) (s : Session) : Prop :=
  ∀ l ∈ s.ctx.lines[0]?, ∀ rule ∈ l.expect.rules, rule.pattern ≠ p

theorem rules_clear (e : Expectations) (p : String) :
    (e.clear p).rules = e.rules.filter (·.pattern != p) := by
  unfold Expectations.clear Expectations.releaseIfUnused
  split <;> rfl

theorem clearOf_modifyLine (s : Session) (p : String) :
    ClearOf p { s with ctx := s.ctx.modifyLine 0 fun l => { l with expect := l.expect.clear p } } := by
  intro l hl rule hrule
  simp only [Context.modifyLine, List.getElem?_modify, if_pos, Option.map_eq_map,
    Option.mem_def, Option.map_eq_some_iff] at hl
  obtain ⟨l₀, -, rfl⟩ := hl
  rw [rules_clear, List.mem_filter, bne_iff_ne] at hrule
  exact hrule.2

/-- GO UNTIL a text that the operator has no rule for goes on with the text as its temporary
pattern. -/
theorem goSetup_output (p : String) :
    Triple (fun _ => True) (goSetup (some (.output p))) (fun t _ => t = some p) (fun _ => True) := by
  refine triple_get.bind fun s => ?_
  dsimp only
  split
  · exact Triple.throw_bind _ fun _ _ => trivial
  · refine (triple_updateContext (Q := fun _ => True) (fun _ _ _ _ => trivial)
      fun _ _ => trivial).bind fun _ => ?_
    exact (triple_pure (Q := fun t _ => t = some p) (some p)).weaken (fun _ _ => rfl)
      (fun _ _ h => h) (fun _ h => h)

/-- Once the machine stops, GO drops the rule for its temporary pattern. -/
theorem goRun_clears (start : Option Address) (p : String) :
    Triple (fun _ => True) (goRun start (some p)) (fun _ => ClearOf p) (fun _ => True) := by
  have hfinish : Triple (fun _ => True) (goFinish (some p)) (fun _ => ClearOf p) (fun _ => True) := by
    unfold goFinish
    refine (triple_modifyGet (Q := fun _ _ => True) fun _ _ => trivial).bind fun stop => ?_
    refine (triple_modify (Q := fun _ _ => True) fun _ _ => trivial).bind fun _ => ?_
    refine (triple_modify (Q := fun _ => ClearOf p) fun s _ => clearOf_modifyLine s p).bind
      fun _ => ?_
    -- saying why the machine stopped touches only the output
    exact triple_get.bind fun _ => triple_modify fun _ hs => hs
  unfold goRun
  dsimp only
  split
  · exact (triple_modify (Q := fun _ _ => True) fun _ _ => trivial).bind fun _ => hfinish
  · exact hfinish

theorem go_output_clears (start : Option Address) (p : String) :
    Triple (fun _ => True) (go start (some (.output p))) (fun _ => ClearOf p) (fun _ => True) := by
  rw [go_eq]
  refine (goSetup_output p).bind fun t s ht => ?_
  subst ht
  exact goRun_clears start p s trivial

/-- Between commands no breakpoint is planted. In every state the interpreter reaches from a
fresh one: no record has the step-over, user or temporary flag; every run of the machine from
the table, or from the table as RUN resets it, keeps the summary free of dynamic types at
every slice; and GO UNTIL a text that completes leaves no expect rule for the text on the
console line, while one that fails leaves the state as it was, any rule of the operator's for
the text with it. -/
theorem no_planted_breakpoints {s : Session} (hs : s.Reachable) :
    (∀ r ∈ s.ctx.breaks.records, r.types.intersects BreakTypes.stepOver = false ∧
      r.types.intersects BreakTypes.user = false ∧ r.types.intersects BreakTypes.temp = false) ∧
    (∀ (fuel : Nat) (m : Machine) (c : Context) (out : Array UInt8),
      c.breaks = s.ctx.breaks ∨ c.breaks = s.ctx.breaks.newPc 0 →
      (m.run fuel c out).2.2.1.breaks.summary.intersects BreakTypes.dynamic = false) ∧
    (∀ fuel line start p, Command.parse line = .ok (.go start (some (.output p))) →
      ((exec (execute (fuel + 1) line) s).1 = .ok () →
        ∀ l ∈ (exec (execute (fuel + 1) line) s).2.ctx.lines[0]?, ∀ rule ∈ l.expect.rules,
          rule.pattern ≠ p) ∧
      ((exec (execute (fuel + 1) line) s).1 ≠ .ok () → (exec (execute (fuel + 1) line) s).2 = s)) := by
  have hset := hs.settled
  refine ⟨fun r hr => BreakTable.Settled.records_unplanted hset r hr, ?_, ?_⟩
  · intro fuel m c out hc
    -- RUN starts from the table with its match times forgotten, which is settled too
    have hc' : c.breaks.Settled := by
      rcases hc with hc | hc
      · rw [hc]
        exact hset
      · rw [hc]
        exact Sweepable.newPc hset 0
    exact BreakTable.Settled.summary_dynamic ((Machine.tested_run fuel m c out).sweepable hc')
  · intro fuel line start p hp
    have hrun : (execute (fuel + 1) line).run s = (go start (some (.output p))).run s := by
      rw [execute, EStateM.run_bind, hp]
      rfl
    have hdo : ∀ file, Command.parse line ≠ .ok (.runFile file) := by
      intro file h
      rw [hp] at h
      cases h
    unfold Session.exec
    cases h : (execute (fuel + 1) line).run s with
    | ok a s' =>
      refine ⟨fun _ => ?_, fun hne => absurd rfl hne⟩
      rw [hrun] at h
      exact (go_output_clears start p s trivial).1 a s' h
    | error e s' =>
      exact ⟨fun hok => (by cases hok), fun _ => failsClean_execute (fuel + 1) line hdo s e s' h⟩

/-- After a BREAK on a fresh interpreter. -/
theorem no_planted_breakpoints_after_break :
    let s := (exec (execute workBudget "BREAK 4") (Session.new {} false {})).2
    s.Reachable ∧
    ((∀ r ∈ s.ctx.breaks.records, r.types.intersects BreakTypes.stepOver = false ∧
      r.types.intersects BreakTypes.user = false ∧ r.types.intersects BreakTypes.temp = false) ∧
    (∀ (fuel : Nat) (m : Machine) (c : Context) (out : Array UInt8),
      c.breaks = s.ctx.breaks ∨ c.breaks = s.ctx.breaks.newPc 0 →
      (m.run fuel c out).2.2.1.breaks.summary.intersects BreakTypes.dynamic = false) ∧
    (∀ fuel line start p, Command.parse line = .ok (.go start (some (.output p))) →
      ((exec (execute (fuel + 1) line) s).1 = .ok () →
        ∀ l ∈ (exec (execute (fuel + 1) line) s).2.ctx.lines[0]?, ∀ rule ∈ l.expect.rules,
          rule.pattern ≠ p) ∧
      ((exec (execute (fuel + 1) line) s).1 ≠ .ok () → (exec (execute (fuel + 1) line) s).2 = s))) :=
  let hs : Reachable (exec (execute workBudget "BREAK 4") (Session.new {} false {})).2 :=
    .command _ _ (.new _ _ _ _)
  ⟨hs, no_planted_breakpoints hs⟩

end Session

end SimControl
