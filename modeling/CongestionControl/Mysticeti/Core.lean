import CongestionControl.Mysticeti.BlockManager
import CongestionControl.Mysticeti.Crypto
import CongestionControl.Mysticeti.Linearizer
import CongestionControl.Mysticeti.UniversalCommitter
import CongestionControl.Mysticeti.Wal

/-!
# The core of a node

`core.rs` with the recovery from the log in `state.rs` and `block_store.rs`, and `epoch_close.rs`. The
manager and the store look only at references; a table beside them has the blocks. The log is the list
of its entries with their positions. A function returns `none` where the source would panic. The
executor, the metrics and the indexes of the store for other nodes are left out.
-/

namespace CongestionControl.Mysticeti

inductive InternalEpochStatus
  | opened
  | beginChange
  | safeToClose
  deriving DecidableEq, Repr

structure EpochManager where
  epochStatus : InternalEpochStatus
  changeAggregator : StakeAggregator
  deriving DecidableEq

namespace EpochManager

def new : EpochManager := ⟨.opened, .new⟩

def epochChangeBegun (e : EpochManager) : EpochManager :=
  match e.epochStatus with
  | .opened => { e with epochStatus := .beginChange }
  | _ => e

/-- A quorum of marked blocks is an error as long as the change has not begun. -/
def observeCommittedBlock (committee : Committee) (e : EpochManager) (block : SignedBlock) :
    Option EpochManager :=
  if block.epochChanged then do
    let (changeAggregator, isQuorum) ← e.changeAggregator.add block.author committee
    if isQuorum ∧ e.epochStatus = .opened then none else some { e with changeAggregator }
  else some e

def changing (e : EpochManager) : Bool := e.epochStatus ≠ .opened

end EpochManager

inductive MetaStatement
  | includeBlock (reference : BlockReference)
  | payload (statements : List BaseStatement)
  deriving DecidableEq, Repr

/-- An own block, and the position of the first entry that was still pending behind it. -/
structure OwnBlockData where
  nextEntry : Nat
  block : SignedBlock
  deriving DecidableEq, Repr

structure CommitData where
  leader : BlockReference
  subDag : List BlockReference
  deriving DecidableEq, Repr

inductive WalEntry
  | block (block : SignedBlock)
  | payload (statements : List BaseStatement)
  | ownBlock (data : OwnBlockData)
  | state (state : List UInt8)
  | commit (commits : List CommitData) (state : List UInt8)
  deriving DecidableEq, Repr

def walPositionMax : Nat := 2 ^ 64 - 1

structure Log where
  entries : List (Nat × WalEntry)
  pos : Nat
  deriving DecidableEq

namespace Log

def empty : Log := ⟨[], 0⟩

def write (size : WalEntry → Nat) (log : Log) (entry : WalEntry) : Option (Nat × Log) :=
  let len := size entry + Wal.headerLenBytes
  let position := log.pos + Wal.extraLen log.pos len
  if len ≤ Wal.mapSize ∧ position + len ≤ walPositionMax then
    some (position, ⟨log.entries ++ [(position, entry)], position + len⟩)
  else none

end Log

/-- The state that is rebuilt from the log: `RecoveredStateBuilder` and the store that is filled beside
it. -/
structure RecoveredState where
  pending : List (Nat × MetaStatement)
  lastOwnBlock : Option OwnBlockData
  state : Option (List UInt8)
  unprocessedBlocks : List SignedBlock
  lastCommittedLeader : Option BlockReference
  committedBlocks : Finset BlockReference
  blockStore : BlockStore
  signedBlocks : HashMap StatementBlock SignedBlock

namespace RecoveredState

def new : RecoveredState := ⟨[], none, none, [], none, ∅, .empty, ∅⟩

def insertPending : List (Nat × MetaStatement) → Nat → MetaStatement → List (Nat × MetaStatement)
  | [], pos, statement => [(pos, statement)]
  | (p, s) :: pending, pos, statement =>
    if pos < p then (pos, statement) :: (p, s) :: pending
    else if pos = p then (pos, statement) :: pending
    else (p, s) :: insertPending pending pos statement

def addUnloaded (r : RecoveredState) (block : SignedBlock) : RecoveredState :=
  { r with
    blockStore := r.blockStore.insertBlock block.toStatementBlock
    signedBlocks := r.signedBlocks.insert block.toStatementBlock block }

def block (r : RecoveredState) (pos : Nat) (block : SignedBlock) : RecoveredState :=
  { r with
    pending := insertPending r.pending pos (.includeBlock block.reference)
    unprocessedBlocks := r.unprocessedBlocks ++ [block] }

def payload (r : RecoveredState) (pos : Nat) (statements : List BaseStatement) : RecoveredState :=
  { r with pending := insertPending r.pending pos (.payload statements) }

/-- The pending entries before `next_entry` are in the block. -/
def ownBlock (r : RecoveredState) (data : OwnBlockData) : RecoveredState :=
  { r with
    pending := r.pending.filter fun (pos, _) => data.nextEntry ≤ pos
    unprocessedBlocks := r.unprocessedBlocks ++ [data.block]
    lastOwnBlock := some data }

def recordState (r : RecoveredState) (state : List UInt8) : RecoveredState :=
  { r with state := some state, unprocessedBlocks := [] }

def commitData (r : RecoveredState) (commits : List CommitData) : RecoveredState :=
  { r with
    lastCommittedLeader := (commits.getLast?.map CommitData.leader).or r.lastCommittedLeader
    committedBlocks := r.committedBlocks ∪ (commits.flatMap CommitData.subDag).toFinset }

def replay (r : RecoveredState) : Nat × WalEntry → RecoveredState
  | (pos, .block b) => (r.block pos b).addUnloaded b
  | (pos, .payload statements) => r.payload pos statements
  | (_, .ownBlock data) => (r.ownBlock data).addUnloaded data.block
  | (_, .state state) => r.recordState state
  | (_, .commit commits _) => r.commitData commits

def «open» (log : Log) : RecoveredState := log.entries.foldl replay new

end RecoveredState

structure BlockHandler (H : Type) where
  handleBlocks : H → List SignedBlock → Bool → Option (H × List BaseStatement)
  handleProposal : H → SignedBlock → Option H
  state : H → List UInt8
  recoverState : H → List UInt8 → Option H

/-- What a node is started with; the size is that of a serialized log entry. -/
structure CoreConfig (H : Type) where
  crypto : Crypto
  committee : Committee
  authority : AuthorityIndex
  handler : BlockHandler H
  numberOfLeaders : Nat
  enablePipelining : Bool
  roundsInEpoch : RoundNumber
  order : IterOrder BlockReference
  size : WalEntry → Nat

structure Core (H : Type) where
  blockManager : BlockManager
  /-- The blocks that the manager or the store has, with all of their fields. -/
  signedBlocks : HashMap StatementBlock SignedBlock
  pending : List (Nat × MetaStatement)
  lastOwnBlock : OwnBlockData
  blockHandler : H
  thresholdClock : ThresholdClockAggregator
  lastCommitLeader : BlockReference
  /-- The committed blocks, which the source keeps in the commit observer. -/
  committedBlocks : Finset BlockReference
  epochManager : EpochManager
  log : Log

def SignedBlock.newGenesis (crypto : Crypto) (authority : AuthorityIndex) : SignedBlock :=
  .new crypto authority genesisRound [] [] 0 false (List.replicate 64 0)

namespace Core

variable {H : Type} (cfg : CoreConfig H)

def blockStore (c : Core H) : BlockStore := c.blockManager.blockStore

def lastProposed (c : Core H) : RoundNumber := c.lastOwnBlock.block.round

def epochChanging (c : Core H) : Bool := c.epochManager.changing

def getBlock (c : Core H) (reference : BlockReference) : Option SignedBlock :=
  (c.blockStore.getBlock reference).bind c.signedBlocks.lookup

def storeBlock (c : Core H) (block : SignedBlock) : Core H :=
  { c with
    blockManager := { c.blockManager with
      blockStore := c.blockStore.insertBlock block.toStatementBlock }
    signedBlocks := c.signedBlocks.insert block.toStatementBlock block }

/-- `BlockWriter::insert_block`, and what `add_blocks` does for a block that was processed. -/
def noteProcessed (c : Core H) (block : SignedBlock) : Option (Core H) := do
  let (position, log) ← c.log.write cfg.size (.block block)
  let thresholdClock ← c.thresholdClock.addBlock block.reference cfg.committee
  some { c with
    log, thresholdClock, pending := c.pending ++ [(position, .includeBlock block.reference)] }

def runBlockHandler (c : Core H) (processed : List SignedBlock) : Option (Core H) := do
  let (blockHandler, statements) ←
    cfg.handler.handleBlocks c.blockHandler processed (!c.epochChanging)
  let (position, log) ← c.log.write cfg.size (.payload statements)
  some { c with blockHandler, log, pending := c.pending ++ [(position, .payload statements)] }

def keepFirst (signedBlocks : HashMap StatementBlock SignedBlock) (block : SignedBlock) :
    HashMap StatementBlock SignedBlock :=
  if block.toStatementBlock ∈ signedBlocks then signedBlocks
  else signedBlocks.insert block.toStatementBlock block

def addBlocks (fuel : Nat) (c : Core H) (blocks : List SignedBlock) :
    Option (Core H × List SignedBlock) := do
  let signedBlocks := blocks.foldl keepFirst c.signedBlocks
  let (blockManager, headers) ←
    c.blockManager.run cfg.order fuel (blocks.map SignedBlock.toStatementBlock)
  let processed ← headers.mapM signedBlocks.lookup
  let c ← processed.foldlM (noteProcessed cfg) { c with blockManager, signedBlocks }
  let c ← c.runBlockHandler cfg processed
  some (c, processed)

def tooHigh (clockRound : RoundNumber) : Nat × MetaStatement → Bool
  | (_, .includeBlock reference) => clockRound ≤ reference.round
  | (_, .payload _) => false

def taken (c : Core H) : List (Nat × MetaStatement) :=
  c.pending.takeWhile fun s => !tooHigh c.thresholdClock.getRound s

def kept (c : Core H) : List (Nat × MetaStatement) :=
  c.pending.dropWhile fun s => !tooHigh c.thresholdClock.getRound s

def includeRefs (statements : List (Nat × MetaStatement)) : List BlockReference :=
  statements.filterMap fun
    | (_, .includeBlock reference) => some reference
    | (_, .payload _) => none

def payloads (statements : List (Nat × MetaStatement)) : List BaseStatement :=
  statements.flatMap fun
    | (_, .includeBlock _) => []
    | (_, .payload payload) => payload

def referencesInBlock (c : Core H) : List BlockReference :=
  c.lastOwnBlock.block.includes ++
    (includeRefs c.taken).flatMap fun reference =>
      ((c.blockStore.getBlock reference).map StatementBlock.includes).getD []

def newIncludes (c : Core H) : List BlockReference :=
  c.lastOwnBlock.block.reference ::
    (includeRefs c.taken).filter fun reference => reference ∉ c.referencesInBlock

def newStatements (c : Core H) : List BaseStatement :=
  if c.epochChanging then [] else payloads c.taken

def newBlock (c : Core H) (timeNs : Nat) : SignedBlock :=
  .newWithSigner cfg.crypto cfg.authority c.thresholdClock.getRound c.newIncludes c.newStatements
    timeNs c.epochChanging

def nextEntry (c : Core H) : Nat := (c.kept.head?.map Prod.fst).getD walPositionMax

def tryNewBlock (c : Core H) (timeNs : Nat) : Option (Option SignedBlock × Core H) :=
  if c.thresholdClock.getRound ≤ c.lastProposed then some (none, c)
  else
    let block := c.newBlock cfg timeNs
    if c.lastOwnBlock.block.author ≠ cfg.authority then none
    else if Wal.maxEntrySize / 2 < cfg.size (.block block) then none
    else do
      let thresholdClock ← c.thresholdClock.addBlock block.reference cfg.committee
      let blockHandler ← cfg.handler.handleProposal c.blockHandler block
      let lastOwnBlock := ⟨c.nextEntry, block⟩
      let (_, log) ← c.log.write cfg.size (.ownBlock lastOwnBlock)
      some (some block,
        { c with pending := c.kept, thresholdClock, blockHandler, lastOwnBlock, log }.storeBlock block)

def committer (c : Core H) : UniversalCommitter :=
  UniversalCommitterBuilder.build
    ⟨cfg.committee, minimumWaveLength, cfg.numberOfLeaders, cfg.enablePipelining, le_rfl⟩
    c.blockStore cfg.order

/-- The rest of `try_commit`: the leader is kept, and the change of the epoch begins. -/
def commitLeaders (c : Core H) : Option (Core H × List StatementBlock) := do
  let (lastCommitLeader, sequence) ← tryCommit (c.committer cfg) c.lastCommitLeader
  let epochManager :=
    if cfg.roundsInEpoch < lastCommitLeader.round then c.epochManager.epochChangeBegun
    else c.epochManager
  some ({ c with lastCommitLeader, epochManager }, sequence)

def commitDataOf (commit : CommittedSubDag) : CommitData :=
  ⟨commit.anchor, commit.blocks.map StatementBlock.reference⟩

def handleCommittedSubdag (c : Core H) (committed : List CommittedSubDag) (state : List UInt8) :
    Option (Core H) := do
  let blocks ← (committed.flatMap CommittedSubDag.blocks).mapM fun b => c.getBlock b.reference
  let epochManager ← blocks.foldlM (EpochManager.observeCommittedBlock cfg.committee) c.epochManager
  let commits := committed.map commitDataOf
  let (_, log) ← c.log.write cfg.size (.state (cfg.handler.state c.blockHandler))
  let (_, log) ← log.write cfg.size (.commit commits state)
  some { c with
    epochManager, log
    committedBlocks := c.committedBlocks ∪ (commits.flatMap CommitData.subDag).toFinset }

def beforeGenesis (blockHandler : H) (log : Log) (r : RecoveredState)
    (lastOwnBlock : OwnBlockData) : Core H where
  blockManager := .new r.blockStore cfg.committee.len
  signedBlocks := r.signedBlocks
  pending := r.pending
  lastOwnBlock := lastOwnBlock
  blockHandler := blockHandler
  thresholdClock := .new 0
  lastCommitLeader := r.lastCommittedLeader.getD .default
  committedBlocks := r.committedBlocks
  epochManager := .new
  log := log

def initGenesis (c : Core H) : Option (Core H) := do
  let others := ((List.range cfg.committee.len).filter (· ≠ cfg.authority)).map
    (SignedBlock.newGenesis cfg.crypto)
  let own := SignedBlock.newGenesis cfg.crypto cfg.authority
  let c ← others.foldlM (fun c block => (c.storeBlock block).noteProcessed cfg block) c
  let thresholdClock ← c.thresholdClock.addBlock own.reference cfg.committee
  let lastOwnBlock := ⟨walPositionMax, own⟩
  let (_, log) ← c.log.write cfg.size (.ownBlock lastOwnBlock)
  some ({ c with thresholdClock, lastOwnBlock, log }.storeBlock own)

def rebuildClock (c : Core H) : Option (Core H) := do
  let thresholdClock ← (includeRefs c.pending).foldlM
    (fun (t : ThresholdClockAggregator) reference => t.addBlock reference cfg.committee) (.new 0)
  some { c with thresholdClock }

def replayUnprocessed (c : Core H) (unprocessedBlocks : List SignedBlock) : Option (Core H) :=
  if unprocessedBlocks = [] then some c else c.runBlockHandler cfg unprocessedBlocks

def recoverHandler (blockHandler : H) : Option (List UInt8) → Option H
  | some state => cfg.handler.recoverState blockHandler state
  | none => some blockHandler

def «open» (blockHandler : H) (log : Log) : Option (Core H) := do
  let r := RecoveredState.open log
  let c ← match r.lastOwnBlock with
    | some own => rebuildClock cfg (beforeGenesis cfg blockHandler log r own)
    | none =>
      if r.pending ≠ [] then none
      else
        let unset := ⟨walPositionMax, SignedBlock.newGenesis cfg.crypto cfg.authority⟩
        initGenesis cfg (beforeGenesis cfg blockHandler log r unset)
  let blockHandler ← recoverHandler cfg blockHandler r.state
  replayUnprocessed cfg { c with blockHandler } r.unprocessedBlocks

end Core

def Acceptable {H : Type} (cfg : CoreConfig H) (b : SignedBlock) : Prop :=
  b.verify cfg.crypto cfg.committee = .ok () ∧ b.author ≠ cfg.authority

/-- The calls of a core, with the block that is proposed. Between them the state of the block handler
may change from outside. -/
inductive Core.Step {H : Type} (cfg : CoreConfig H) (env : H → H → Prop) :
    Core H → Option SignedBlock → Core H → Prop
  | addBlocks {c c' : Core H} {fuel : Nat} {blocks processed : List SignedBlock}
      (acceptable : ∀ b ∈ blocks, Acceptable cfg b)
      (call : c.addBlocks cfg fuel blocks = some (c', processed)) : Step cfg env c none c'
  | tryNewBlock {c c' : Core H} {timeNs : Nat} {block : Option SignedBlock}
      (call : c.tryNewBlock cfg timeNs = some (block, c')) : Step cfg env c block c'
  | commitLeaders {c c' : Core H} {sequence : List StatementBlock}
      (call : c.commitLeaders cfg = some (c', sequence)) : Step cfg env c none c'
  | handleCommittedSubdag {c c' : Core H} {committed : List CommittedSubDag} {state : List UInt8}
      (call : c.handleCommittedSubdag cfg committed state = some c') : Step cfg env c none c'
  | external {c : Core H} {h : H} (change : env c.blockHandler h) :
      Step cfg env c none { c with blockHandler := h }

/-- A core is opened on an empty log and runs without a stop; the blocks that it has proposed, the last
one first. -/
inductive Core.Run {H : Type} (cfg : CoreConfig H) (env : H → H → Prop) :
    List SignedBlock → Core H → Prop
  | open {h : H} {c : Core H} (call : Core.open cfg h .empty = some c) : Run cfg env [] c
  | step {c c' : Core H} {proposed : List SignedBlock} {block : Option SignedBlock}
      (run : Run cfg env proposed c) (step : Core.Step cfg env c block c') :
      Run cfg env (block.toList ++ proposed) c'

end CongestionControl.Mysticeti
