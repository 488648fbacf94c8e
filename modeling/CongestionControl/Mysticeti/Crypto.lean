import CongestionControl.Lib.Bytes
import CongestionControl.Mysticeti.Statements

/-!
# What is hashed and signed

`crypto.rs`: the bytes of a block that the signature covers, the digest, and the check of a block. The
hash function and the signature scheme are parameters. A digest is a number of 32 bytes.
-/

namespace CongestionControl.Mysticeti

def u64Bytes (n : Nat) : List UInt8 := Bytes.toBe 8 n

def u128Bytes (n : Nat) : List UInt8 := Bytes.toBe 16 n

def digestBytes (digest : BlockDigest) : List UInt8 := Bytes.toBe 32 digest

def BlockReference.cryptoHash (r : BlockReference) : List UInt8 :=
  u64Bytes r.authority ++ u64Bytes r.round ++ digestBytes r.digest

def TransactionLocator.cryptoHash (l : TransactionLocator) : List UInt8 :=
  l.block.cryptoHash ++ u64Bytes l.offset

def TransactionLocatorRange.cryptoHash (r : TransactionLocatorRange) : List UInt8 :=
  r.block.cryptoHash ++ u64Bytes r.offsetStartInclusive ++ u64Bytes r.offsetEndExclusive

def epochMarkerBytes (epochMarker : Bool) : List UInt8 := if epochMarker then [1] else [0]

/-- A tag and the bytes of the statement; those of a transaction have no length in front of them. -/
def BaseStatement.cryptoHash : BaseStatement → List UInt8
  | share tx => 0 :: tx.data
  | vote id .accept => 1 :: id.cryptoHash
  | vote id (.reject none) => 2 :: id.cryptoHash
  | vote id (.reject (some other)) => 3 :: (id.cryptoHash ++ other.cryptoHash)
  | voteRange range => 4 :: range.cryptoHash

def SignedBlock.digestWithoutSignature (b : SignedBlock) : List UInt8 :=
  u64Bytes b.author ++ u64Bytes b.round ++
    (b.includes.flatMap BlockReference.cryptoHash ++
      b.statements.flatMap BaseStatement.cryptoHash) ++
    (u128Bytes b.metaCreationTimeNs ++ epochMarkerBytes b.epochMarker)

def BlockReference.InRange (r : BlockReference) : Prop :=
  r.authority < 2 ^ 64 ∧ r.round < 2 ^ 64 ∧ r.digest < 2 ^ 256

def TransactionLocator.InRange (l : TransactionLocator) : Prop := l.block.InRange ∧ l.offset < 2 ^ 64

def TransactionLocatorRange.InRange (r : TransactionLocatorRange) : Prop :=
  r.block.InRange ∧ r.offsetStartInclusive < 2 ^ 64 ∧ r.offsetEndExclusive < 2 ^ 64

def BaseStatement.InRange : BaseStatement → Prop
  | share _ => True
  | vote id .accept => id.InRange
  | vote id (.reject none) => id.InRange
  | vote id (.reject (some other)) => id.InRange ∧ other.InRange
  | voteRange range => range.InRange

/-- The numbers fit the machine types of the source. -/
structure SignedBlock.InRange (b : SignedBlock) : Prop where
  reference : b.reference.InRange
  includes : ∀ r ∈ b.includes, r.InRange
  statements : ∀ s ∈ b.statements, s.InRange
  creationTime : b.metaCreationTimeNs < 2 ^ 128

/-- The fields that the signature is meant to cover are the same. -/
def SignedBlock.SameContent (b b' : SignedBlock) : Prop :=
  b.author = b'.author ∧ b.round = b'.round ∧ b.includes = b'.includes ∧
    b.statements = b'.statements ∧ b.metaCreationTimeNs = b'.metaCreationTimeNs ∧
    b.epochMarker = b'.epochMarker

def BaseStatement.shareLength : BaseStatement → Option Nat
  | share tx => some tx.data.length
  | _ => none

def SignedBlock.shareLengths (b : SignedBlock) : List Nat :=
  b.statements.filterMap BaseStatement.shareLength

structure Crypto where
  hash : List UInt8 → BlockDigest
  sign : AuthorityIndex → BlockDigest → List UInt8
  verify : AuthorityIndex → List UInt8 → BlockDigest → Bool

namespace Crypto

variable (crypto : Crypto)

def blockDigest (b : SignedBlock) : BlockDigest :=
  crypto.hash (b.digestWithoutSignature ++ b.signature)

def verifyBlock (b : SignedBlock) : Bool :=
  crypto.verify b.author b.signature (crypto.hash b.digestWithoutSignature)

end Crypto

namespace SignedBlock

def new (crypto : Crypto) (authority : AuthorityIndex) (round : RoundNumber)
    (includes : List BlockReference) (statements : List BaseStatement) (metaCreationTimeNs : Nat)
    (epochMarker : Bool) (signature : List UInt8) : SignedBlock :=
  let block (digest : BlockDigest) : SignedBlock :=
    { reference := ⟨authority, round, digest⟩, includes, statements, metaCreationTimeNs, epochMarker,
      signature }
  block (crypto.blockDigest (block 0))

def newWithSigner (crypto : Crypto) (authority : AuthorityIndex) (round : RoundNumber)
    (includes : List BlockReference) (statements : List BaseStatement) (metaCreationTimeNs : Nat)
    (epochMarker : Bool) : SignedBlock :=
  let unsigned := new crypto authority round includes statements metaCreationTimeNs epochMarker []
  new crypto authority round includes statements metaCreationTimeNs epochMarker
    (crypto.sign authority (crypto.hash unsigned.digestWithoutSignature))

end SignedBlock

inductive BlockError
  | digest (calculated provided : BlockDigest)
  | signature
  | range (error : RangeError)
  | header (error : VerifyError)
  deriving DecidableEq, Repr

def BaseStatement.verify : BaseStatement → Except RangeError Unit
  | share _ => pure ()
  | vote _ _ => pure ()
  | voteRange range => range.verify

def SignedBlock.verify (crypto : Crypto) (committee : Committee) (b : SignedBlock) :
    Except BlockError Unit :=
  if crypto.blockDigest b ≠ b.reference.digest then
    throw (.digest (crypto.blockDigest b) b.reference.digest)
  else if ¬ committee.knownAuthority b.author then throw (.header (.unknownAuthor b.author))
  else if b.round = genesisRound then throw (.header .genesis)
  else if ¬ crypto.verifyBlock b then throw .signature
  else do
    (b.includes.forM (b.verifyInclude committee)).mapError .header
    (b.statements.forM BaseStatement.verify).mapError .range
    if thresholdClockValidNonGenesis b.toStatementBlock committee = some true then pure ()
    else throw (.header .thresholdClock)

end CongestionControl.Mysticeti
