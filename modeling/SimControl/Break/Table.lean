import Std.Data.TreeMap
import SimControl.Break.Kind
import SimControl.Fault
import SimControl.Text.Blank
/-!
# The breakpoint table

Each address may carry several breakpoint records, at most one per exact set of types. The
machine tests the table at instruction boundaries and memory accesses; the command loop sets,
clears and shows breakpoints.

A record remembers, for each of the eight debounce spaces, the simulated time at which it last
matched. It cannot match again in the same space at the same instant, so an access checked
from more than one place, or checked again after the simulation resumes, counts once.

The records are kept by address in a search tree, each address with its records in the order
they were created; `records` lists them all in address order.
-/

namespace SimControl

/-- One breakpoint: an address, an exact set of types, a repeat count, an optional action,
and when it last matched in each debounce space. -/
structure BreakRecord where
  address : Address
  types : BreakTypes
  /-- Further matches needed before the breakpoint fires. -/
  count : Nat
  action : Option String
  /-- The time of the last match in each debounce space. -/
  timeFired : Vector (Option Int) 8
  deriving DecidableEq

namespace BreakRecord

/-- A fresh record with no count, action or matches. -/
def fresh (a : Address) (t : BreakTypes) : BreakRecord :=
  ⟨a, t, 0, none, Vector.replicate 8 none⟩

/-- When the record last matched in a space, if it has. -/
def firedAt (r : BreakRecord) (space : Nat) : Option Int :=
  (r.timeFired[space]?).join

/-- The record with its match time in a space set. -/
def stamp (r : BreakRecord) (space : Nat) (t : Option Int) : BreakRecord :=
  { r with timeFired := r.timeFired.setIfInBounds space t }

/-- How SHOW BREAK lists a record: `100:\tE[3]; echo hit`. -/
def render (r : BreakRecord) : String :=
  r.address.toOctal ++ ":\t" ++ r.types.render ++
    (if r.count > 0 then "[" ++ toString r.count ++ "]" else "") ++
    (match r.action with
     | some a => "; " ++ a
     | none => "")

end BreakRecord

/-- A breakpoint that fired: where, which of the tested types it matched, and its action. -/
structure BreakHit where
  address : Address
  types : BreakTypes
  action : Option String
  deriving DecidableEq

/-- The breakpoint table. -/
structure BreakTable where
  typeTable : BreakTypeTable
  /-- The records of each address that carries any, in the order they were created. -/
  chains : Std.TreeMap Address (List BreakRecord)
  /-- The union of the types of all records, the temporary flag left out. -/
  summary : BreakTypes
  /-- Where the last breakpoint fired and which types it matched. -/
  lastMatch : Option (Address × BreakTypes)

namespace BreakTable

/-- An empty table for a machine's breakpoint types. -/
def new (tt : BreakTypeTable) : BreakTable := ⟨tt, ∅, BreakTypes.empty, none⟩

/-- Removes every breakpoint. -/
def init (b : BreakTable) : BreakTable := new b.typeTable

/-- Every record, by address, the records of one address in creation order. -/
def records (b : BreakTable) : List BreakRecord := b.chains.toList.flatMap (·.2)

/-- The table holds no breakpoint. -/
def isEmpty (b : BreakTable) : Bool := b.chains.isEmpty

/-- The records at an address, in creation order. -/
def at? (b : BreakTable) (a : Address) : List BreakRecord := b.chains.getD a []

/-- The addresses from `low` to `high` that carry breakpoints, ascending. -/
def addressesIn (b : BreakTable) (low high : Address) : List Address :=
  b.chains.keys.filter fun a => low ≤ a ∧ a ≤ high

/-- The record at an address whose types are exactly the given ones, spaces ignored. -/
def find? (b : BreakTable) (a : Address) (t : BreakTypes) : Option BreakRecord :=
  (b.at? a).find? (·.types == t.withoutSpace)

/-- Whether a record is the one a test selects: with `anyType`, one that has some of the
types and has not matched in the space at that time; otherwise one with exactly the types. -/
def selects (t : BreakTypes) (anyType : Bool) (space : Nat) (now : Int) (r : BreakRecord) :
    Bool :=
  if anyType then r.types.intersects t && r.firedAt space != some now else r.types == t

/-- The first record at an address that a test selects. -/
def findEx? (b : BreakTable) (a : Address) (t : BreakTypes) (anyType : Bool) (space : Nat)
    (now : Int) : Option BreakRecord :=
  (b.at? a).find? (selects t.withoutSpace anyType space now)

/-- The union of the types of records, the temporary flag left out. -/
def summaryOf (rs : List BreakRecord) : BreakTypes :=
  rs.foldl (fun acc r => acc.union (r.types.inter BreakTypes.temp.compl)) BreakTypes.empty

/-- The table with the records of an address replaced; an address left with none is dropped. -/
def withChain (b : BreakTable) (a : Address) (rs : List BreakRecord) : BreakTable :=
  { b with chains := if rs.isEmpty then b.chains.erase a else b.chains.insert a rs }

/-- The union of the types of the records of every address, the temporary flag left out:
`summaryOf` of all the records, worked out address by address. -/
def summaryOfChains (chains : Std.TreeMap Address (List BreakRecord)) : BreakTypes :=
  chains.foldl (fun acc _ rs =>
    rs.foldl (fun acc r => acc.union (r.types.inter BreakTypes.temp.compl)) acc) BreakTypes.empty

/-- The table with its summary worked out again from its records. -/
def resummarize (b : BreakTable) : BreakTable := { b with summary := summaryOfChains b.chains }

/-- Applies a change to the first record that satisfies `p`. -/
def updateFirst (p : BreakRecord → Bool) (f : BreakRecord → BreakRecord) :
    List BreakRecord → List BreakRecord
  | [] => []
  | x :: rest => if p x then f x :: rest else x :: updateFirst p f rest

/-- Sets or updates the breakpoint at an address with exactly the given types. No types, or
only step-over, means the machine's default types added. An action that is blank or missing
leaves any action there alone. Unsupported letters, or an action on a dynamic breakpoint,
refuse the whole request. -/
def set (b : BreakTable) (a : Address) (types : BreakTypes) (count : Nat) (action : Option String) :
    Except Fault BreakTable :=
  let t := types.withoutSpace
  let t := if t.isEmpty || t == BreakTypes.stepOver then t.union b.typeTable.defaultTypes else t
  let unsupported := t.letters.inter b.typeTable.supported.letters.compl
  if !unsupported.isEmpty then .error (.unknownBreakpointType unsupported)
  else
    let action := action.bind fun s => let s := Text.trimBlank s; if s.isEmpty then none else some s
    if t.intersects BreakTypes.dynamic && action.isSome then .error .actionOnDynamicBreakpoint
    else
      let same := fun (r : BreakRecord) => r.types == t
      let update := fun (r : BreakRecord) =>
        { r with count := count, action := if action.isSome then action else r.action }
      let chain := b.at? a
      let chain :=
        if chain.any same then updateFirst same update chain
        else chain ++ [update (BreakRecord.fresh a t)]
      .ok { b.withChain a chain with summary := b.summary.union (t.inter BreakTypes.temp.compl) }

/-- The types a clear or a show applies to: the given ones, or every type when none are. -/
def clearMask (t : BreakTypes) : BreakTypes :=
  let t := t.withoutSpace
  if t.isEmpty then BreakTypes.empty.compl else t

/-- Removes the breakpoints at an address that have any of the types (all of them if none
are given). -/
def clear (b : BreakTable) (a : Address) (types : BreakTypes) : BreakTable :=
  let m := clearMask types
  let b := if b.chains.contains a then
      b.withChain a ((b.at? a).filter fun r => !r.types.intersects m)
    else b
  b.resummarize

/-- Removes the breakpoints at every address that have any of the types (all of them if none
are given). -/
def clearAll (b : BreakTable) (types : BreakTypes) : BreakTable :=
  let m := clearMask types
  let chains := b.chains.filterMap fun _ rs =>
    let rs := rs.filter fun r => !r.types.intersects m
    if rs.isEmpty then none else some rs
  resummarize { b with chains := chains }

/-- Tests for a breakpoint at an address with any of the types; the space carried by the
types selects the debounce space. Dynamic breakpoints match any test while they exist. A
record that matches with a count above one counts down and does not fire; one that fires is
deleted if it is temporary. -/
def test (b : BreakTable) (a : Address) (types : BreakTypes) (now : Int) :
    Option BreakHit × BreakTable :=
  let space := types.space
  let t := types.withoutSpace
  let t := if b.summary.intersects BreakTypes.dynamic then t.union BreakTypes.dynamic else t
  let chain := b.at? a
  match chain.findIdx? (selects t true space now) with
  | none => (none, b)
  | some i =>
    match chain[i]? with
    | none => (none, b)
    | some r =>
      let r := r.stamp space (some now)
      if r.count > 1 then
        (none, b.withChain a (chain.set i { r with count := r.count - 1 }))
      else
        let r := { r with count := 0 }
        let matched := t.inter r.types
        let hit : BreakHit := ⟨a, matched, r.action⟩
        let b :=
          if r.types.intersects BreakTypes.temp then (b.withChain a (chain.eraseIdx i)).resummarize
          else b.withChain a (chain.set i r)
        (some hit, { b with lastMatch := some (a, matched) })

/-- Forgets when breakpoints with any of the types last matched in a space, so that they can
match again at the current instant. -/
def clearSpace (b : BreakTable) (space : Nat) (types : BreakTypes) : BreakTable :=
  let m := clearMask types
  { b with chains := b.chains.map fun _ rs =>
      rs.map fun r => if r.types.intersects m then r.stamp space none else r }

/-- The machine starts at a new program counter: forgets the match times in the first
`spaces` spaces, in all eight if `spaces` is zero or more than eight. -/
def newPc (b : BreakTable) (spaces : Nat) : BreakTable :=
  let n := if spaces = 0 || spaces > 8 then 8 else spaces
  { b with chains := b.chains.map fun _ rs =>
      rs.map fun r => (List.range n).foldl (fun r i => r.stamp i none) r }

/-- The message for the last breakpoint that fired: the type's description if the table has
one for exactly its letters, the letters otherwise. -/
def lastMatchMessage (b : BreakTable) : Option String :=
  b.lastMatch.map fun (a, t) =>
    match b.typeTable.describe t with
    | some d => d ++ " Breakpoint: " ++ a.toOctal8
    | none => t.letters.render ++ " Breakpoint at: " ++ a.toOctal8

/-- SHOW BREAK for one address: its records with any of the types, a line each, or nothing. -/
def show? (b : BreakTable) (a : Address) (types : BreakTypes) : Option String :=
  let m := clearMask types
  match (b.at? a).filter (·.types.intersects m) with
  | [] => none
  | rs => some ("\n".intercalate (rs.map BreakRecord.render))

/-- SHOW BREAK for every record with any of the types, each line ended. -/
def showAll (b : BreakTable) (types : BreakTypes) : String :=
  let m := clearMask types
  String.join ((b.records.filter (·.types.intersects m)).map fun r => r.render ++ "\n")

end BreakTable

end SimControl
