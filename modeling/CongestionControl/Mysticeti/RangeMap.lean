import CongestionControl.Lib.HashOrder

/-!
# Range maps

`range_map.rs`: a tree map from the start of a range to the range and its value. The mutation function
passes a state along, as the closures of the source change what they capture. A function returns `none`
where the source would panic, and the loop also if its fuel runs out.
-/

namespace CongestionControl.Mysticeti

structure Range (K : Type) where
  start : K
  stop : K
  deriving DecidableEq, Repr

structure RangeItem (K V : Type) where
  startIncluded : K
  endExcluded : K
  v : Option V
  deriving DecidableEq, Repr

structure RangeMap (K V : Type) where
  map : HashMap K (RangeItem K V)

namespace RangeMap

variable {K V S : Type} [LinearOrder K]

def empty : RangeMap K V := ⟨∅⟩

def isEmpty (m : RangeMap K V) : Bool := m.map.keys = ∅

/-- `map.range_mut(..=k).last()`. -/
def lowerBound (m : RangeMap K V) (k : K) : Option (K × RangeItem K V) :=
  let below := m.map.keys.filter (· ≤ k)
  if h : below.Nonempty then (m.map.lookup (below.max' h)).map (below.max' h, ·) else none

/-- The first key of `map.range(range)`, which panics on a range that starts behind its end. -/
def upperBound (m : RangeMap K V) (range : Range K) : Option (Option K) :=
  if range.stop < range.start then none
  else
    let inside := m.map.keys.filter fun k => range.start ≤ k ∧ k < range.stop
    some (if h : inside.Nonempty then some (inside.min' h) else none)

def insert (m : RangeMap K V) (k : K) (item : RangeItem K V) : RangeMap K V :=
  ⟨m.map.insert k item⟩

def remove (m : RangeMap K V) (k : K) : RangeMap K V := ⟨m.map.erase k⟩

def insertVacant (m : RangeMap K V) (k : K) (item : RangeItem K V) : Option (RangeMap K V) :=
  if k ∈ m.map then none else some (m.insert k item)

def startingAt (m : RangeMap K V) (k : K) : Option (RangeMap K V × Option (RangeItem K V)) :=
  match m.lowerBound k with
  | none => some (m, none)
  | some (lowerBoundK, lowerBoundV) =>
    if lowerBoundK = k then some (m, some lowerBoundV)
    else if k < lowerBoundV.endExcluded then
      let newItem := { lowerBoundV with startIncluded := k }
      let m := m.insert lowerBoundK { lowerBoundV with endExcluded := k }
      (m.insertVacant k newItem).map fun m => (m, some newItem)
    else some (m, none)

/-- The item to be changed, at the start of the range, and the range that is left for later. -/
def overlap (m : RangeMap K V) (range : Range K) (start : Option (RangeItem K V)) :
    Option (RangeMap K V × RangeItem K V × Option (Range K)) :=
  match start with
  | some start =>
    if start.endExcluded = range.stop then some (m, start, none)
    else if range.stop < start.endExcluded then do
      -- The item goes on behind the range: its tail becomes an item of its own.
      let m := m.insert range.start { start with endExcluded := range.stop }
      let m := m.insert range.stop { start with startIncluded := range.stop }
      let item ← m.map.lookup range.start
      some (m, item, none)
    else some (m, start, some ⟨start.endExcluded, range.stop⟩)
  | none => do
    let upperBound ← m.upperBound range
    match upperBound with
    | some upperBoundStart =>
      let newItem := ⟨range.start, upperBoundStart, none⟩
      let m ← m.insertVacant range.start newItem
      some (m, newItem, some ⟨upperBoundStart, range.stop⟩)
    | none =>
      let newItem := ⟨range.start, range.stop, none⟩
      let m ← m.insertVacant range.start newItem
      some (m, newItem, none)

def mutateStep (f : S → Range K → Option V → Option (S × Option V)) (s : S) (m : RangeMap K V)
    (range : Range K) : Option (S × RangeMap K V × Option (Range K)) := do
  let (m, start) ← m.startingAt range.start
  let (m, item, nextRange) ← m.overlap range start
  let (s, v) ← f s ⟨item.startIncluded, item.endExcluded⟩ item.v
  let m := m.insert range.start { item with v }
  if v.isNone then
    if item.startIncluded ∈ m.map then some (s, m.remove item.startIncluded, nextRange) else none
  else some (s, m, nextRange)

def mutateLoop (f : S → Range K → Option V → Option (S × Option V)) :
    Nat → S → RangeMap K V → Range K → Option (S × RangeMap K V)
  | 0, _, _, _ => none
  | fuel + 1, s, m, range => do
    let (s, m, nextRange) ← mutateStep f s m range
    match nextRange with
    | some range => mutateLoop f fuel s m range
    | none => some (s, m)

def mutateRange (f : S → Range K → Option V → Option (S × Option V)) (s : S) (m : RangeMap K V)
    (range : Range K) : Option (S × RangeMap K V) :=
  mutateLoop f (2 * m.map.keys.card + 2) s m range

end RangeMap

end CongestionControl.Mysticeti
