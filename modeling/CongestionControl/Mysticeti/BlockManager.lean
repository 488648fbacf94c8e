import CongestionControl.Mysticeti.BlockStore

/-!
# The block manager

`block_manager.rs`: incoming blocks are suspended until all blocks they include are in the store. The
positions in the log are left out. A function returns `none` where the source would panic, and the loop
also if its fuel runs out.
-/

namespace CongestionControl.Mysticeti

structure BlockManager where
  blocksPending : HashMap BlockReference StatementBlock
  blockReferencesWaiting : HashMap BlockReference (Finset BlockReference)
  missing : List (Finset BlockReference)
  blockStore : BlockStore

namespace BlockManager

def new (blockStore : BlockStore) (committeeLen : Nat) : BlockManager :=
  ⟨∅, ∅, List.replicate committeeLen ∅, blockStore⟩

def modifyMissing (m : BlockManager) (authority : AuthorityIndex)
    (f : Finset BlockReference → Finset BlockReference) : Option BlockManager :=
  if authority < m.missing.length then some { m with missing := m.missing.modify authority f }
  else none

def noteMissing (m : BlockManager) (includedReference : BlockReference) : Option BlockManager :=
  if includedReference ∈ m.blocksPending then some m
  else m.modifyMissing includedReference.authority (insert includedReference)

def checkInclude (blockReference : BlockReference) (acc : BlockManager × Bool)
    (includedReference : BlockReference) : Option (BlockManager × Bool) :=
  let (m, processed) := acc
  if m.blockStore.blockExists includedReference then some (m, processed)
  else
    let waiting := (m.blockReferencesWaiting.lookup includedReference).getD ∅
    let m := { m with
      blockReferencesWaiting :=
        m.blockReferencesWaiting.insert includedReference (insert blockReference waiting) }
    (m.noteMissing includedReference).map fun m => (m, false)

/-- The loop body over the blocks that were waiting for a block: one that waits for nothing else is
put at the front of the queue. -/
def unlock (acc : BlockManager × List StatementBlock) (waitingBlockReference : BlockReference) :
    Option (BlockManager × List StatementBlock) :=
  let (m, blocks) := acc
  (m.blocksPending.lookup waitingBlockReference).map fun block =>
    if block.includes.all fun itemRef => itemRef ∉ m.blockReferencesWaiting then
      ({ m with blocksPending := m.blocksPending.erase waitingBlockReference }, block :: blocks)
    else (m, blocks)

def process (order : IterOrder BlockReference) (m : BlockManager) (block : StatementBlock)
    (blocks : List StatementBlock) : Option (BlockManager × List StatementBlock) :=
  let m := { m with blockStore := m.blockStore.insertBlock block }
  match m.blockReferencesWaiting.lookup block.reference with
  | some waitingReferences =>
    let m := { m with
      blockReferencesWaiting := m.blockReferencesWaiting.erase block.reference }
    (order.toList waitingReferences).foldlM unlock (m, blocks)
  | none => some (m, blocks)

/-- One pass of the main loop for a block taken from the queue: the manager, the queue, and the block
if it was processed. -/
def step (order : IterOrder BlockReference) (m : BlockManager) (block : StatementBlock)
    (blocks : List StatementBlock) :
    Option (BlockManager × List StatementBlock × List StatementBlock) :=
  if m.blockStore.blockExists block.reference ∨ block.reference ∈ m.blocksPending then
    some (m, blocks, [])
  else do
    let (m, processed) ← block.includes.foldlM (checkInclude block.reference) (m, true)
    let m ← m.modifyMissing block.reference.authority (·.erase block.reference)
    if processed then
      (m.process order block blocks).map fun (m, blocks) => (m, blocks, [block])
    else
      some ({ m with blocksPending := m.blocksPending.insert block.reference block }, blocks, [])

def run (order : IterOrder BlockReference) :
    Nat → BlockManager → List StatementBlock → Option (BlockManager × List StatementBlock)
  | _, m, [] => some (m, [])
  | 0, _, _ :: _ => none
  | fuel + 1, m, block :: blocks => do
    let (m, blocks, processed) ← m.step order block blocks
    let (m, newlyProcessed) ← run order fuel m blocks
    return (m, processed ++ newlyProcessed)

/-- A block of the batch is looked at at most twice and a pending one once. -/
def addBlocks (order : IterOrder BlockReference) (m : BlockManager) (blocks : List StatementBlock) :
    Option (BlockManager × List StatementBlock) :=
  m.run order (2 * blocks.length + m.blocksPending.keys.card) blocks

end BlockManager

end CongestionControl.Mysticeti
