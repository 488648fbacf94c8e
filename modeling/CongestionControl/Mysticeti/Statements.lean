import CongestionControl.Mysticeti.RangeMap
import CongestionControl.Mysticeti.ThresholdClock

/-!
# Statements

The statements that a block of `types.rs` carries, and the block with all of its fields. Offsets are
`u64` in the source: a function returns `none` where one would overflow.
-/

namespace CongestionControl.Mysticeti

structure Transaction where
  data : List UInt8
  deriving DecidableEq, Repr

structure TransactionLocator where
  block : BlockReference
  offset : Nat
  deriving DecidableEq, Repr

structure TransactionLocatorRange where
  block : BlockReference
  offsetStartInclusive : Nat
  offsetEndExclusive : Nat
  deriving DecidableEq, Repr

def TransactionLocator.cmp (self other : TransactionLocator) : Ordering :=
  (self.block.cmp other.block).then (compare self.offset other.offset)

def TransactionLocatorRange.cmp (self other : TransactionLocatorRange) : Ordering :=
  (self.block.cmp other.block).then
    ((compare self.offsetStartInclusive other.offsetStartInclusive).then
      (compare self.offsetEndExclusive other.offsetEndExclusive))

inductive Vote
  | accept
  | reject (other : Option TransactionLocator)
  deriving DecidableEq, Repr

inductive BaseStatement
  | share (tx : Transaction)
  | vote (locator : TransactionLocator) (vote : Vote)
  | voteRange (range : TransactionLocatorRange)
  deriving DecidableEq, Repr

structure SignedBlock extends StatementBlock where
  statements : List BaseStatement
  metaCreationTimeNs : Nat
  epochMarker : Bool
  signature : List UInt8
  deriving DecidableEq, Repr

namespace TransactionLocatorRange

def new (block : BlockReference) (range : Range Nat) : TransactionLocatorRange :=
  ⟨block, range.start, range.stop⟩

/-- The sum overflows at the largest offset. -/
def one (locator : TransactionLocator) : Option TransactionLocatorRange :=
  if locator.offset + 1 < 2 ^ 64 then some ⟨locator.block, locator.offset, locator.offset + 1⟩
  else none

def range (r : TransactionLocatorRange) : Range Nat :=
  ⟨r.offsetStartInclusive, r.offsetEndExclusive⟩

def locators (r : TransactionLocatorRange) : List TransactionLocator :=
  (List.range' r.offsetStartInclusive (r.offsetEndExclusive - r.offsetStartInclusive)).map
    (TransactionLocator.mk r.block)

def len (r : TransactionLocatorRange) : Nat := r.offsetEndExclusive - r.offsetStartInclusive

def maxLen : Nat := 1024 * 1024

end TransactionLocatorRange

inductive RangeError
  | endBeforeStart (endExclusive startInclusive : Nat)
  | tooLarge (len : Nat)
  | endTooLarge (endExclusive : Nat)
  deriving DecidableEq, Repr

def TransactionLocatorRange.verify (r : TransactionLocatorRange) : Except RangeError Unit :=
  if ¬ r.offsetStartInclusive ≤ r.offsetEndExclusive then
    throw (.endBeforeStart r.offsetEndExclusive r.offsetStartInclusive)
  else if ¬ r.len < maxLen then throw (.tooLarge r.len)
  else if ¬ r.offsetEndExclusive < maxLen then throw (.endTooLarge r.offsetEndExclusive)
  else pure ()

def VoteRangeBuilder.add (range : Option (Range Nat)) (offset : Nat) :
    Option (Range Nat) × Option (Range Nat) :=
  match range with
  | some range =>
    if range.stop = offset then (some ⟨range.start, offset + 1⟩, none)
    else (some ⟨offset, offset + 1⟩, some range)
  | none => (some ⟨offset, offset + 1⟩, none)

def BaseStatement.isShare : BaseStatement → Bool
  | share _ => true
  | _ => false

def sharedRangesFrom : Nat → Option (Range Nat) → List BaseStatement → List (Range Nat)
  | _, range, [] => range.toList
  | offset, range, statement :: statements =>
    if statement.isShare then
      let (range, complete) := VoteRangeBuilder.add range offset
      complete.toList ++ sharedRangesFrom (offset + 1) range statements
    else sharedRangesFrom (offset + 1) range statements

namespace SignedBlock

def sharedRanges (b : SignedBlock) : List TransactionLocatorRange :=
  (sharedRangesFrom 0 none b.statements).map (.new b.reference)

def sharedTransactions (b : SignedBlock) : List (TransactionLocator × Transaction) :=
  b.statements.zipIdx.filterMap fun (statement, pos) =>
    match statement with
    | .share tx => some (⟨b.reference, pos⟩, tx)
    | _ => none

def epochChanged (b : SignedBlock) : Bool := b.epochMarker

end SignedBlock

end CongestionControl.Mysticeti
