import CongestionControl.Lib.Bytes

/-!
# The write-ahead log

`wal.rs`: a file of entries, each a header of 16 bytes and a payload, seen through mappings of a fixed
size that no entry crosses. What a mapping shows behind the end of the file is zero. The checksum is a
parameter. A function returns `none` where the source would panic; positions are natural numbers.
-/

namespace CongestionControl.Mysticeti.Wal

abbrev Tag := UInt32

def mapSize : Nat := 0x10000000

def headerLenBytes : Nat := 8 + 8

def maxEntrySize : Nat := mapSize - headerLenBytes

def offset (p : Nat) : Nat := p / mapSize * mapSize

/-- The length has 32 bits and stands above the checksum; the tag stands above the length. -/
def combineHeader (crc len : Nat) (tag : Tag) : Option Nat :=
  if len ≤ 2 ^ 32 - 1 then some (crc + len * 2 ^ 64 + tag.toNat * 2 ^ (64 + 32)) else none

def splitHeader (combined : Nat) : Nat × Nat × Tag :=
  (combined % 2 ^ 64, combined / 2 ^ 64 % 2 ^ 32, UInt32.ofNat (combined / 2 ^ (64 + 32)))

structure WalWriter where
  file : List UInt8
  pos : Nat

variable (crc : List UInt8 → UInt32)

def WalWriter.open (file : List UInt8) : WalWriter := ⟨file, file.length⟩

/-- The zeros that a writer at a position puts in front of an entry of the given length, header
included. -/
def extraLen (pos len : Nat) : Nat :=
  if offset pos ≠ offset (pos + len - 1) then offset (pos + len - 1) - pos else 0

def WalWriter.writev (w : WalWriter) (tag : Tag) (v : List (List UInt8)) :
    Option (Nat × WalWriter) :=
  let vLen := (v.map List.length).sum
  let len := vLen + headerLenBytes
  if ¬ len ≤ mapSize then none
  else do
    let extra := List.replicate (extraLen w.pos len) 0
    let pos := w.pos + extra.length
    let header ← combineHeader (crc v.flatten).toNat len tag
    some (pos, ⟨w.file ++ (extra ++ Bytes.toLe headerLenBytes header ++ v.flatten), pos + len⟩)

def mapOffset (file : List UInt8) (offset : Nat) : List UInt8 :=
  (file.drop offset ++ List.replicate mapSize 0).take mapSize

/-- A slice must not start behind its end or reach behind the end of the bytes. -/
def slice (bytes : List UInt8) (start stop : Nat) : Option (List UInt8) :=
  if start ≤ stop ∧ stop ≤ bytes.length then some ((bytes.drop start).take (stop - start)) else none

/-- The outer `none` is a panic; the inner one says that there is no entry at the position. -/
def tryRead (file : List UInt8) (position : Nat) : Option (Option (Tag × List UInt8)) := do
  let bytes := mapOffset file (offset position)
  let bufOffset := position - offset position
  let header ← slice bytes bufOffset (bufOffset + headerLenBytes)
  let (expected, len, tag) := splitHeader (Bytes.ofLe header)
  if len = 0 then
    if expected = 0 then some none else none
  else do
    let payload ← slice bytes (bufOffset + headerLenBytes) (bufOffset + len)
    if (crc payload).toNat = expected then some (some (tag, payload)) else none

def read (file : List UInt8) (position : Nat) : Option (Tag × List UInt8) :=
  (tryRead crc file position).join

structure Entry where
  position : Nat
  tag : Tag
  data : List UInt8
  deriving DecidableEq, Repr

def Entry.stop (e : Entry) : Nat := e.position + (e.data.length + headerLenBytes)

/-- The entry at a position before the end; the outer `none` is a panic. -/
def tryPosition (file : List UInt8) (endPosition : Nat) (position : Nat) :
    Option (Option Entry) :=
  if endPosition ≤ position then some none
  else (tryRead crc file position).map (Option.map fun (tag, data) => ⟨position, tag, data⟩)

def nextStartOffset (position : Nat) : Nat := offset position + mapSize

def firstInMap (position : Nat) : Bool := position = offset position

def next (file : List UInt8) (endPosition : Nat) (position : Nat) : Option (Option Entry) := do
  match ← tryPosition crc file endPosition position with
  | some item => some (some item)
  | none =>
    if firstInMap position then some none
    else tryPosition crc file endPosition (nextStartOffset position)

def iterate (file : List UInt8) (endPosition : Nat) : Nat → Nat → Option (List Entry)
  | 0, _ => none
  | fuel + 1, position => do
    match ← next crc file endPosition position with
    | some item => (iterate file endPosition fuel item.stop).map (item :: ·)
    | none => some []

def iterUntil (w : WalWriter) : Option (List Entry) := iterate crc w.file w.pos (w.pos + 1) 0

inductive WalOp
  | writev (tag : Tag) (v : List (List UInt8))
  | reopen

def WalOp.written : WalOp → Option (Tag × List UInt8)
  | writev tag v => some (tag, v.flatten)
  | reopen => none

def WalWriter.run (w : WalWriter) : List WalOp → Option (List Entry × WalWriter)
  | [] => some ([], w)
  | .reopen :: ops => WalWriter.run (WalWriter.open w.file) ops
  | .writev tag v :: ops => do
    let (position, w) ← w.writev crc tag v
    let (entries, w) ← WalWriter.run w ops
    some (⟨position, tag, v.flatten⟩ :: entries, w)

end CongestionControl.Mysticeti.Wal
