import CongestionControl.Lib.VersionMap
import CongestionControl.Pevm.Types

/-!
# The multi-version memory

The functions of `mv_memory.rs`, with the reads of an absolute value from `vm.rs`. `data` is a map
of maps: the outer `Option` says whether a location has a `BTreeMap` at all, the inner one whether a
transaction has an entry in it.
-/

namespace CongestionControl.Pevm

open Function (update)
open VersionMap

abbrev ReadSet (L : Type) := List (L × List ReadOrigin)

abbrev WriteSet (L V : Type) := List (L × V)

abbrev Versions (V : Type) := TxIdx → Option (MemoryEntry V)

structure LastLocations (L : Type) where
  read : ReadSet L
  write : List L

structure MvMemory (L V : Type) where
  data : L → Option (Versions V)
  lastLocations : TxIdx → LastLocations L

def swapRemove {α : Type} (l : List α) (idx : Nat) : List α :=
  match l.getLast? with
  | some x => (l.set idx x).dropLast
  | none => l

namespace MvMemory

variable {L V : Type} [DecidableEq L]

def new (estimatedLocations : List (L × List TxIdx)) : MvMemory L V where
  data := estimatedLocations.foldl (fun data p => update data p.1
    (some fun txIdx => if txIdx ∈ p.2 then some .estimate else none)) fun _ => none
  lastLocations _ := ⟨[], []⟩

def entry (m : MvMemory L V) (location : L) (txIdx : TxIdx) : Option (MemoryEntry V) :=
  (m.data location).bind fun written => written txIdx

def removeEntry (data : L → Option (Versions V)) (location : L) (txIdx : TxIdx) :
    L → Option (Versions V) :=
  update data location ((data location).map fun written => update written txIdx none)

def insertEntry (data : L → Option (Versions V)) (location : L) (txIdx : TxIdx)
    (e : MemoryEntry V) : L → Option (Versions V) :=
  update data location (some (update ((data location).getD fun _ => none) txIdx (some e)))

/-- The `while` loop of `record` from position `idx` on: the previous locations that the new write
set does not mention lose their entry and their place in the list. -/
def removeStale (writeSet : WriteSet L V) (txIdx : TxIdx) :
    Nat → (L → Option (Versions V)) → List L → Nat → (L → Option (Versions V)) × List L
  | 0, data, write, _ => (data, write)
  | fuel + 1, data, write, idx =>
    match write[idx]? with
    | none => (data, write)
    | some prevLocation =>
      if writeSet.all fun p => p.1 ≠ prevLocation then
        removeStale writeSet txIdx fuel (removeEntry data prevLocation txIdx)
          (swapRemove write idx) idx
      else removeStale writeSet txIdx fuel data write (idx + 1)

def recordWrite (version : TxVersion) (acc : (L → Option (Versions V)) × List L × Bool)
    (p : L × V) : (L → Option (Versions V)) × List L × Bool :=
  let (data, write, wroteNewLocation) := acc
  let data := insertEntry data p.1 version.txIdx (.data version.txIncarnation p.2)
  if p.1 ∈ write then (data, write, wroteNewLocation) else (data, write ++ [p.1], true)

def record (m : MvMemory L V) (version : TxVersion) (readSet : ReadSet L)
    (writeSet : WriteSet L V) : MvMemory L V × Bool :=
  let prevWrite := (m.lastLocations version.txIdx).write
  -- Every pass of the loop either drops a location or moves on to the next one.
  let (data, write) := removeStale writeSet version.txIdx prevWrite.length m.data prevWrite 0
  let (data, write, wroteNewLocation) := writeSet.foldl (recordWrite version) (data, write, false)
  (⟨data, update m.lastLocations version.txIdx ⟨readSet, write⟩⟩, wroteNewLocation)

/-- The loop over the prior origins of one location; `bound` is the position of the iterator. -/
def validateOrigins (written : Versions V) : TxIdx → List ReadOrigin → Bool
  | _, [] => true
  | bound, .mvMemory priorVersion :: rest =>
    match lastBelow written bound with
    | some (closestIdx, .data txIncarnation _) =>
      if closestIdx ≠ priorVersion.txIdx ∨ priorVersion.txIncarnation ≠ txIncarnation then false
      else validateOrigins written closestIdx rest
    | _ => false
  | bound, .storage :: rest =>
    match lastBelow written bound with
    | some _ => false
    | none => validateOrigins written bound rest

def validateReadLocations (m : MvMemory L V) (txIdx : TxIdx) : Bool :=
  (m.lastLocations txIdx).read.all fun p =>
    match m.data p.1 with
    | some written => validateOrigins written txIdx p.2
    | none => p.2.length = 1 ∧ p.2.getLast? = some .storage

def convertWritesToEstimates (m : MvMemory L V) (txIdx : TxIdx) : MvMemory L V :=
  { m with
    data := (m.lastLocations txIdx).write.foldl (fun data location =>
      update data location ((data location).map fun written =>
        update written txIdx (some .estimate))) m.data }

end MvMemory

inductive ReadError
  | blockingEstimate (txIdx : TxIdx)
  | inconsistentRead
  deriving DecidableEq, Repr

namespace ReadSet

variable {L : Type} [DecidableEq L]

def origins (readSet : ReadSet L) (location : L) : List ReadOrigin :=
  (readSet.lookup location).getD []

def setOrigins (readSet : ReadSet L) (location : L) (os : List ReadOrigin) : ReadSet L :=
  if readSet.any fun p => p.1 = location then
    readSet.map fun p => if p.1 = location then (location, os) else p
  else readSet ++ [(location, os)]

/-- A second read of a location has to find the origin of the first one. -/
def pushOrigin (readOrigins : List ReadOrigin) (origin : ReadOrigin) :
    Except ReadError (List ReadOrigin) :=
  match readOrigins.getLast? with
  | some prevOrigin => if prevOrigin ≠ origin then .error .inconsistentRead else .ok readOrigins
  | none => .ok (readOrigins ++ [origin])

end ReadSet

def MvMemory.readStorage {L V : Type} [DecidableEq L] (m : MvMemory L V) (storage : L → V)
    (txIdx : TxIdx) (readSet : ReadSet L) (location : L) : Except ReadError (V × ReadSet L) := do
  let readOrigins := readSet.origins location
  let closest := if txIdx > 0 then (m.data location).bind fun written => lastBelow written txIdx
    else none
  match closest with
  | some (closestIdx, .data txIncarnation value) =>
    let os ← ReadSet.pushOrigin readOrigins (.mvMemory ⟨closestIdx, txIncarnation⟩)
    return (value, readSet.setOrigins location os)
  | some (closestIdx, .estimate) => .error (.blockingEstimate closestIdx)
  | none =>
    let os ← ReadSet.pushOrigin readOrigins .storage
    return (storage location, readSet.setOrigins location os)

end CongestionControl.Pevm
