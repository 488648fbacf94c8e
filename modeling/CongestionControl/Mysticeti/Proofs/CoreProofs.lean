import CongestionControl.Mysticeti.Core
import CongestionControl.Mysticeti.Proofs.BlockManagerProofs
import CongestionControl.Mysticeti.Proofs.CommitteeProofs
import Mathlib.Data.List.TakeWhile

/-!
# What the calls of a core do

For each function of the core, the case in which it returns: what was computed on the way, and the
core that it leaves.
-/

namespace CongestionControl.Mysticeti

/-! ## Blocks that pass the checks -/

theorem SignedBlock.verify_iff {crypto : Crypto} {committee : Committee} {b : SignedBlock}
    (htotal : committee.totalStake < 2 ^ 63) :
    b.verify crypto committee = .ok () ↔
      crypto.blockDigest b = b.reference.digest ∧ crypto.verifyBlock b = true ∧
      (∀ s ∈ b.statements, s.verify = .ok ()) ∧ Verified committee b.toStatementBlock := by
  rw [← Mysticeti.verify_iff htotal, SignedBlock.verify, StatementBlock.verify]
  simp only [Except.ite_throw_eq_ok_iff, not_not, ne_eq]
  constructor
  · rintro ⟨hdigest, hauthor, hround, hsignature, h⟩
    obtain ⟨_, hincludes, h⟩ := Except.bind_eq_ok_iff.mp h
    obtain ⟨_, hstatements, hclock⟩ := Except.bind_eq_ok_iff.mp h
    refine ⟨hdigest, hsignature, Except.forM_eq_ok_iff.mp (Except.mapError_eq_ok_iff.mp hstatements),
      hauthor, hround, Except.bind_eq_ok_iff.mpr ⟨(), Except.mapError_eq_ok_iff.mp hincludes, ?_⟩⟩
    exact Except.ite_pure_eq_ok_iff.mpr (Except.ite_pure_eq_ok_iff.mp hclock)
  · rintro ⟨hdigest, hsignature, hstatements, hauthor, hround, h⟩
    obtain ⟨_, hincludes, hclock⟩ := Except.bind_eq_ok_iff.mp h
    refine ⟨hdigest, hauthor, hround, hsignature, Except.bind_eq_ok_iff.mpr
      ⟨(), Except.mapError_eq_ok_iff.mpr hincludes, Except.bind_eq_ok_iff.mpr
        ⟨(), Except.mapError_eq_ok_iff.mpr (Except.forM_eq_ok_iff.mpr hstatements), ?_⟩⟩⟩
    exact Except.ite_pure_eq_ok_iff.mpr (Except.ite_pure_eq_ok_iff.mp hclock)

namespace Core

variable {H : Type} {cfg : CoreConfig H} {c c' : Core H} {block : SignedBlock}
  {processed blocks : List SignedBlock} {table : HashMap StatementBlock SignedBlock}
  {b : StatementBlock} {r : BlockReference}

/-! ## Blocks of other authorities -/

theorem noteProcessed_eq_some (h : c.noteProcessed cfg block = some c') :
    ∃ position log thresholdClock,
      c.log.write cfg.size (.block block) = some (position, log) ∧
      c.thresholdClock.addBlock block.reference cfg.committee = some thresholdClock ∧
      c' = { c with
        log, thresholdClock
        pending := c.pending ++ [(position, .includeBlock block.reference)] } := by
  obtain ⟨⟨position, log⟩, hwrite, h⟩ := Option.bind_eq_some_iff.mp h
  obtain ⟨thresholdClock, hadd, h⟩ := Option.bind_eq_some_iff.mp h
  exact ⟨position, log, thresholdClock, hwrite, hadd, (Option.some.inj h).symm⟩

theorem runBlockHandler_eq_some (h : c.runBlockHandler cfg processed = some c') :
    ∃ blockHandler statements position log,
      cfg.handler.handleBlocks c.blockHandler processed (!c.epochChanging) =
        some (blockHandler, statements) ∧
      c.log.write cfg.size (.payload statements) = some (position, log) ∧
      c' = { c with
        blockHandler, log, pending := c.pending ++ [(position, .payload statements)] } := by
  obtain ⟨⟨blockHandler, statements⟩, hhandle, h⟩ := Option.bind_eq_some_iff.mp h
  obtain ⟨⟨position, log⟩, hwrite, h⟩ := Option.bind_eq_some_iff.mp h
  exact ⟨blockHandler, statements, position, log, hhandle, hwrite, (Option.some.inj h).symm⟩

theorem foldlM_noteProcessed_fields (hfold : processed.foldlM (noteProcessed cfg) c = some c') :
    c' = { c with
      log := c'.log, thresholdClock := c'.thresholdClock, pending := c'.pending } := by
  induction processed generalizing c with
  | nil =>
    cases hfold
    rfl
  | cons b processed ih =>
    obtain ⟨c₁, hb, hfold⟩ := Option.bind_eq_some_iff.mp hfold
    obtain ⟨position, log, thresholdClock, -, -, rfl⟩ := noteProcessed_eq_some hb
    have hfields := ih hfold
    exact hfields

/-- What holds of the store and the core when the first of some blocks is noted, and is kept by each of
them, holds at the end. -/
theorem foldlM_noteProcessed_induct {P : BlockStore → Core H → Prop} {s s' : BlockStore}
    (hinserts : BlockManager.Inserts s (processed.map SignedBlock.toStatementBlock) s')
    (hfold : processed.foldlM (noteProcessed cfg) c = some c')
    (hstep : ∀ (s : BlockStore) (c c' : Core H), ∀ b ∈ processed, b.reference ∉ s.index →
      (∀ i ∈ b.includes, i ∈ s.index) → c.noteProcessed cfg b = some c' → P s c →
      P (s.insertBlock b.toStatementBlock) c') (h : P s c) : P s' c' := by
  induction processed generalizing s c with
  | nil =>
    cases hfold
    cases hinserts
    exact h
  | cons b processed ih =>
    obtain ⟨c₁, hb, hfold⟩ := Option.bind_eq_some_iff.mp hfold
    cases hinserts with
    | cons fresh stored rest =>
      refine ih rest hfold (fun s c c' b hb => hstep s c c' b (List.mem_cons_of_mem _ hb)) ?_
      exact hstep s c c₁ b List.mem_cons_self fresh stored hb h

/-! ## The table of the blocks -/

/-- A block is filed under its references, and so are all blocks that the manager or the store has.
What is suspended came from the network. -/
structure TableInv (cfg : CoreConfig H) (c : Core H) : Prop where
  keyed : ∀ b s, c.signedBlocks.lookup b = some s → s.toStatementBlock = b
  stored : ∀ b ∈ c.blockStore.blocks, b ∈ c.signedBlocks
  suspended : ∀ b, c.blockManager.Suspended b →
    b ∈ c.signedBlocks ∧ ∃ x, Acceptable cfg x ∧ x.toStatementBlock = b

theorem TableInv.of_eq (h : TableInv cfg c) (hmanager : c'.blockManager = c.blockManager)
    (hsigned : c'.signedBlocks = c.signedBlocks) : TableInv cfg c' := by
  have hstore : c'.blockStore = c.blockStore := congrArg BlockManager.blockStore hmanager
  refine ⟨?_, ?_, ?_⟩
  · rw [hsigned]
    exact h.keyed
  · rw [hstore, hsigned]
    exact h.stored
  · rw [hmanager, hsigned]
    exact h.suspended

theorem TableInv.storeBlock (h : TableInv cfg c) (block : SignedBlock) :
    TableInv cfg (c.storeBlock block) where
  keyed := by
    intro b s hs
    change (c.signedBlocks.insert block.toStatementBlock block).lookup b = some s at hs
    by_cases hb : b = block.toStatementBlock
    · subst hb
      rw [Finmap.lookup_insert] at hs
      cases hs
      rfl
    · rw [Finmap.lookup_insert_of_ne _ hb] at hs
      exact h.keyed b s hs
  stored b hb :=
    Finmap.mem_insert.mpr ((BlockStore.eq_or_mem_of_mem_insertBlock hb).imp_right (h.stored b))
  suspended b hb := ⟨Finmap.mem_insert.mpr (.inr (h.suspended b hb).1), (h.suspended b hb).2⟩

theorem mem_foldl_keepFirst : b ∈ blocks.foldl keepFirst table ↔
      b ∈ blocks.map SignedBlock.toStatementBlock ∨ b ∈ table := by
  induction blocks generalizing table with
  | nil => exact (or_iff_right List.not_mem_nil).symm
  | cons x blocks ih =>
    have hfirst : b ∈ keepFirst table x ↔ b = x.toStatementBlock ∨ b ∈ table := by
      unfold keepFirst
      split_ifs with hx
      · exact (or_iff_right_of_imp fun hb => hb ▸ hx).symm
      · exact Finmap.mem_insert
    rw [List.foldl_cons, ih, hfirst, List.map_cons, List.mem_cons]
    exact or_left_comm.trans or_assoc.symm

theorem lookup_foldl_keepFirst (blocks : List SignedBlock) (hb : b ∈ table) :
    (blocks.foldl keepFirst table).lookup b = table.lookup b := by
  induction blocks generalizing table with
  | nil => rfl
  | cons x blocks ih =>
    have hmem : b ∈ keepFirst table x := by
      unfold keepFirst
      split_ifs with hx
      · exact hb
      · exact Finmap.mem_insert.mpr (.inr hb)
    rw [List.foldl_cons, ih hmem, keepFirst]
    split_ifs with hx
    · rfl
    · exact Finmap.lookup_insert_of_ne _ fun heq => hx (heq ▸ hb)

theorem keyed_foldl_keepFirst (hkeyed : ∀ b s, table.lookup b = some s → s.toStatementBlock = b)
    (blocks : List SignedBlock) :
    ∀ b s, (blocks.foldl keepFirst table).lookup b = some s → s.toStatementBlock = b := by
  induction blocks generalizing table with
  | nil => exact hkeyed
  | cons x blocks ih =>
    refine ih fun b s h => ?_
    unfold keepFirst at h
    split_ifs at h with hmem
    · exact hkeyed b s h
    · by_cases hb : b = x.toStatementBlock
      · subst hb
        rw [Finmap.lookup_insert] at h
        cases h
        rfl
      · rw [Finmap.lookup_insert_of_ne _ hb] at h
        exact hkeyed b s h

theorem mapM_lookup_eq_some (hkeyed : ∀ b s, table.lookup b = some s → s.toStatementBlock = b)
    {headers : List StatementBlock} (h : headers.mapM table.lookup = some blocks) :
    headers = blocks.map SignedBlock.toStatementBlock ∧
      ∀ b ∈ blocks, table.lookup b.toStatementBlock = some b := by
  induction headers generalizing blocks with
  | nil =>
    cases h
    exact ⟨rfl, nofun⟩
  | cons x headers ih =>
    rw [List.mapM_cons] at h
    obtain ⟨b, hb, h⟩ := Option.bind_eq_some_iff.mp h
    obtain ⟨bs, hbs, h⟩ := Option.bind_eq_some_iff.mp h
    cases h
    obtain ⟨rfl, hlookup⟩ := ih hbs
    obtain rfl := hkeyed x b hb
    exact ⟨rfl, List.forall_mem_cons.mpr ⟨hb, hlookup⟩⟩

/-- The core when the block manager is done with some blocks, and those that were processed. -/
structure Processes (cfg : CoreConfig H) (c c' : Core H) (processed : List SignedBlock) : Prop where
  fields : c' = { c with blockManager := c'.blockManager, signedBlocks := c'.signedBlocks }
  table : TableInv cfg c'
  inserts : BlockManager.Inserts c.blockStore (processed.map SignedBlock.toStatementBlock)
    c'.blockStore
  acceptable : ∀ b ∈ processed, ∃ x, Acceptable cfg x ∧ x.toStatementBlock = b.toStatementBlock
  lookup : ∀ b ∈ processed, c'.signedBlocks.lookup b.toStatementBlock = some b
  same : ∀ b ∈ c.signedBlocks, c'.signedBlocks.lookup b = c.signedBlocks.lookup b

theorem addBlocks_eq_some {fuel : Nat} (htable : TableInv cfg c)
    (hacceptable : ∀ b ∈ blocks, Acceptable cfg b)
    (h : c.addBlocks cfg fuel blocks = some (c', processed)) :
    ∃ c₁ c₂, Processes cfg c c₁ processed ∧ processed.foldlM (noteProcessed cfg) c₁ = some c₂ ∧
      c₂.runBlockHandler cfg processed = some c' := by
  obtain ⟨⟨blockManager, headers⟩, hrun, h⟩ := Option.bind_eq_some_iff.mp h
  obtain ⟨processed', hmap, h⟩ := Option.bind_eq_some_iff.mp h
  obtain ⟨c₂, hfold, h⟩ := Option.bind_eq_some_iff.mp h
  obtain ⟨c₃, hhandler, h⟩ := Option.bind_eq_some_iff.mp h
  cases h
  obtain ⟨hinserts, hprocessed, hsuspended⟩ := BlockManager.run_sound hrun
  have hkeyed := keyed_foldl_keepFirst htable.keyed blocks
  obtain ⟨rfl, hlookup⟩ := mapM_lookup_eq_some hkeyed hmap
  have hsource : ∀ b, b ∈ blocks.map SignedBlock.toStatementBlock ∨ c.blockManager.Suspended b →
      b ∈ blocks.foldl keepFirst c.signedBlocks ∧
        ∃ x, Acceptable cfg x ∧ x.toStatementBlock = b := by
    rintro b (hb | hb)
    · refine ⟨mem_foldl_keepFirst.mpr (.inl hb), ?_⟩
      obtain ⟨x, hx, rfl⟩ := List.mem_map.mp hb
      exact ⟨x, hacceptable x hx, rfl⟩
    · obtain ⟨hmem, hx⟩ := htable.suspended b hb
      exact ⟨mem_foldl_keepFirst.mpr (.inr hmem), hx⟩
  refine ⟨{ c with blockManager, signedBlocks := blocks.foldl keepFirst c.signedBlocks }, c₂, ?_,
    hfold, hhandler⟩
  refine ⟨rfl, ⟨hkeyed, fun b hb => ?_, fun b hb => hsource b (hsuspended b hb)⟩, hinserts,
    fun b hb => (hsource _ (hprocessed _ (List.mem_map_of_mem hb))).2, hlookup,
    fun b hb => lookup_foldl_keepFirst blocks hb⟩
  rcases hinserts.mem_blocks hb with hb | hb
  · exact mem_foldl_keepFirst.mpr (.inr (htable.stored b hb))
  · exact (hsource b (hprocessed b hb)).1

/-! ## Own blocks -/

theorem tryNewBlock_eq_none {timeNs : Nat} (h : c.tryNewBlock cfg timeNs = some (none, c')) :
    c' = c := by
  unfold tryNewBlock at h
  dsimp only at h
  split_ifs at h with hround hauthor hsize
  · cases h
    rfl
  · obtain ⟨_, -, h⟩ := Option.bind_eq_some_iff.mp h
    obtain ⟨_, -, h⟩ := Option.bind_eq_some_iff.mp h
    obtain ⟨_, -, h⟩ := Option.bind_eq_some_iff.mp h
    exact nomatch h

theorem tryNewBlock_eq_some {timeNs : Nat} (h : c.tryNewBlock cfg timeNs = some (some block, c')) :
    ∃ thresholdClock blockHandler position log,
      c.lastProposed < c.thresholdClock.round ∧ block = c.newBlock cfg timeNs ∧
      c.thresholdClock.addBlock block.reference cfg.committee = some thresholdClock ∧
      cfg.handler.handleProposal c.blockHandler block = some blockHandler ∧
      c.log.write cfg.size (.ownBlock ⟨c.nextEntry, block⟩) = some (position, log) ∧
      c' = { c with
        pending := c.kept, thresholdClock, blockHandler, lastOwnBlock := ⟨c.nextEntry, block⟩
        log }.storeBlock block := by
  unfold tryNewBlock at h
  dsimp only at h
  split_ifs at h with hround hauthor hsize
  · cases h
  · obtain ⟨thresholdClock, hadd, h⟩ := Option.bind_eq_some_iff.mp h
    obtain ⟨blockHandler, hproposal, h⟩ := Option.bind_eq_some_iff.mp h
    obtain ⟨⟨position, log⟩, hwrite, h⟩ := Option.bind_eq_some_iff.mp h
    cases h
    exact ⟨thresholdClock, blockHandler, position, log, Nat.lt_of_not_le hround, rfl, hadd, hproposal,
      hwrite, rfl⟩

theorem mem_newIncludes :
    r ∈ c.newIncludes ↔ r = c.lastOwnBlock.block.reference ∨
      r ∈ includeRefs c.taken ∧ r ∉ c.referencesInBlock := by
  rw [newIncludes, List.mem_cons, List.mem_filter, decide_eq_true_iff]

theorem mem_referencesInBlock :
    r ∈ c.referencesInBlock ↔ r ∈ c.lastOwnBlock.block.includes ∨
      ∃ b ∈ c.blockStore.blocks, b.reference ∈ includeRefs c.taken ∧ r ∈ b.includes := by
  rw [referencesInBlock, List.mem_append, List.mem_flatMap]
  refine or_congr_right ⟨?_, ?_⟩
  · rintro ⟨ref, href, hr⟩
    cases hget : c.blockStore.getBlock ref with
    | none =>
      rw [hget] at hr
      exact absurd hr List.not_mem_nil
    | some b =>
      rw [hget] at hr
      obtain rfl := c.blockStore.keyed ref b hget
      exact ⟨b, hget, href, hr⟩
  · rintro ⟨b, hb, href, hr⟩
    refine ⟨b.reference, href, ?_⟩
    rw [BlockStore.getBlock, BlockStore.mem_blocks.mp hb]
    exact hr

theorem pending_eq : c.pending = c.taken ++ c.kept := (List.takeWhile_append_dropWhile).symm

theorem includeRefs_append (l l' : List (Nat × MetaStatement)) :
    includeRefs (l ++ l') = includeRefs l ++ includeRefs l' := List.filterMap_append

theorem mem_includeRefs {l : List (Nat × MetaStatement)} :
    r ∈ includeRefs l ↔ ∃ position, (position, .includeBlock r) ∈ l := by
  rw [includeRefs, List.mem_filterMap]
  constructor
  · rintro ⟨⟨position, statement⟩, hmem, hr⟩
    cases statement with
    | includeBlock reference =>
      cases hr
      exact ⟨position, hmem⟩
    | payload => exact nomatch hr
  · rintro ⟨position, hmem⟩
    exact ⟨_, hmem, rfl⟩

theorem round_lt_of_mem_taken (h : r ∈ includeRefs c.taken) :
    r.round < c.thresholdClock.round := by
  obtain ⟨position, hmem⟩ := mem_includeRefs.mp h
  have hlow := List.mem_takeWhile_imp hmem
  have hnot : tooHigh c.thresholdClock.round (position, .includeBlock r) = false :=
    Bool.not_eq_true' _ ▸ hlow
  exact Nat.lt_of_not_le (of_decide_eq_false hnot)

/-- The first statement that is left is an include of the round of the clock. -/
theorem kept_eq_nil_or : c.kept = [] ∨ ∃ position r rest,
    c.kept = (position, .includeBlock r) :: rest ∧ c.thresholdClock.round ≤ r.round := by
  cases hkept : c.kept with
  | nil => exact .inl rfl
  | cons x rest =>
    have hfind : c.pending.find? (tooHigh c.thresholdClock.round) = some x := by
      rw [List.find?_eq_head?_dropWhile_not]
      exact congrArg List.head? hkept
    have hhigh : tooHigh c.thresholdClock.round x = true := List.find?_some hfind
    obtain ⟨position, statement⟩ := x
    cases statement with
    | includeBlock r => exact .inr ⟨position, r, rest, rfl, of_decide_eq_true hhigh⟩
    | payload => exact nomatch hhigh

/-! ## Genesis -/

theorem initGenesis_eq_some (h : c.initGenesis cfg = some c') :
    ∃ c₁ thresholdClock position log,
      (((List.range cfg.committee.len).filter (· ≠ cfg.authority)).map
        (SignedBlock.newGenesis cfg.crypto)).foldlM
          (fun c block => (c.storeBlock block).noteProcessed cfg block) c = some c₁ ∧
      c₁.thresholdClock.addBlock (SignedBlock.newGenesis cfg.crypto cfg.authority).reference
        cfg.committee = some thresholdClock ∧
      c₁.log.write cfg.size
        (.ownBlock ⟨walPositionMax, SignedBlock.newGenesis cfg.crypto cfg.authority⟩) =
        some (position, log) ∧
      c' = { c₁ with
        thresholdClock
        lastOwnBlock := ⟨walPositionMax, SignedBlock.newGenesis cfg.crypto cfg.authority⟩
        log }.storeBlock (SignedBlock.newGenesis cfg.crypto cfg.authority) := by
  obtain ⟨c₁, hfold, h⟩ := Option.bind_eq_some_iff.mp h
  obtain ⟨thresholdClock, hadd, h⟩ := Option.bind_eq_some_iff.mp h
  obtain ⟨⟨position, log⟩, hwrite, h⟩ := Option.bind_eq_some_iff.mp h
  exact ⟨c₁, thresholdClock, position, log, hfold, hadd, hwrite, (Option.some.inj h).symm⟩

theorem open_empty {h : H} (hopen : Core.open cfg h .empty = some c) :
    ∃ c₁, initGenesis cfg (beforeGenesis cfg h .empty .new
        ⟨walPositionMax, SignedBlock.newGenesis cfg.crypto cfg.authority⟩) = some c₁ ∧
      c = { c₁ with blockHandler := h } := by
  obtain ⟨c₁, hgenesis, hopen⟩ := Option.bind_eq_some_iff.mp hopen
  exact ⟨c₁, hgenesis, (Option.some.inj hopen).symm⟩

theorem foldlM_genesis_induct {P : Core H → Prop} {authorities : List AuthorityIndex}
    (hnodup : authorities.Nodup)
    (hfresh : ∀ a ∈ authorities, ∀ b ∈ c.blockStore.blocks, b.author ≠ a)
    (hfold : (authorities.map (SignedBlock.newGenesis cfg.crypto)).foldlM
      (fun c block => (c.storeBlock block).noteProcessed cfg block) c = some c')
    (hstep : ∀ c c' : Core H, ∀ a ∈ authorities,
      (SignedBlock.newGenesis cfg.crypto a).reference ∉ c.blockStore.index →
      (c.storeBlock (SignedBlock.newGenesis cfg.crypto a)).noteProcessed cfg
        (SignedBlock.newGenesis cfg.crypto a) = some c' → P c → P c')
    (h : P c) : P c' := by
  induction authorities generalizing c with
  | nil =>
    cases hfold
    exact h
  | cons a authorities ih =>
    obtain ⟨c₁, hnote, hfold⟩ := Option.bind_eq_some_iff.mp hfold
    have hindex : (SignedBlock.newGenesis cfg.crypto a).reference ∉ c.blockStore.index := by
      intro hmem
      obtain ⟨b, hb, hbr⟩ := BlockStore.mem_index_iff.mp hmem
      exact hfresh a List.mem_cons_self b hb (congrArg BlockReference.authority hbr)
    have hstore : c₁.blockStore =
        c.blockStore.insertBlock (SignedBlock.newGenesis cfg.crypto a).toStatementBlock := by
      obtain ⟨_, _, _, -, -, rfl⟩ := noteProcessed_eq_some hnote
      rfl
    refine ih (List.nodup_cons.mp hnodup).2 ?_ hfold
      (fun c c' b hb => hstep c c' b (List.mem_cons_of_mem a hb))
      (hstep c c₁ a List.mem_cons_self hindex hnote h)
    intro a' ha' b hb
    rw [hstore] at hb
    rcases (BlockStore.mem_blocks_insertBlock hindex).mp hb with rfl | hb
    · rintro rfl
      exact (List.nodup_cons.mp hnodup).1 ha'
    · exact hfresh a' (List.mem_cons_of_mem a ha') b hb

/-! ## Commits -/

theorem commitLeaders_eq_some {sequence : List StatementBlock}
    (h : c.commitLeaders cfg = some (c', sequence)) :
    ∃ lastCommitLeader,
      tryCommit (c.committer cfg) c.lastCommitLeader = some (lastCommitLeader, sequence) ∧
      c' = { c with
        lastCommitLeader
        epochManager :=
          if cfg.roundsInEpoch < lastCommitLeader.round then c.epochManager.epochChangeBegun
          else c.epochManager } := by
  obtain ⟨⟨lastCommitLeader, sequence'⟩, hcommit, h⟩ := Option.bind_eq_some_iff.mp h
  cases h
  exact ⟨lastCommitLeader, hcommit, rfl⟩

theorem handleCommittedSubdag_eq_some {committed : List CommittedSubDag} {state : List UInt8}
    (h : c.handleCommittedSubdag cfg committed state = some c') :
    ∃ epochManager position log position' log',
      c.log.write cfg.size (.state (cfg.handler.state c.blockHandler)) = some (position, log) ∧
      log.write cfg.size (.commit (committed.map commitDataOf) state) = some (position', log') ∧
      c' = { c with
        epochManager, log := log'
        committedBlocks := c.committedBlocks ∪
          ((committed.map commitDataOf).flatMap CommitData.subDag).toFinset } := by
  obtain ⟨blocks, -, h⟩ := Option.bind_eq_some_iff.mp h
  obtain ⟨epochManager, -, h⟩ := Option.bind_eq_some_iff.mp h
  obtain ⟨⟨position, log⟩, hstate, h⟩ := Option.bind_eq_some_iff.mp h
  obtain ⟨⟨position', log'⟩, hcommit, h⟩ := Option.bind_eq_some_iff.mp h
  cases h
  exact ⟨epochManager, position, log, position', log', hstate, hcommit, rfl⟩

/-! ## The table over a run -/

variable {env : H → H → Prop}

theorem TableInv.open {h : H} (hopen : Core.open cfg h .empty = some c) : TableInv cfg c := by
  obtain ⟨c₁, hgenesis, rfl⟩ := open_empty hopen
  obtain ⟨c₂, thresholdClock, position, log, hfold, -, -, rfl⟩ := initGenesis_eq_some hgenesis
  have hinv : TableInv cfg c₂ := by
    refine foldlM_genesis_induct (List.nodup_range.filter _) ?_ hfold ?_ ?_
    · exact fun _ _ _ hb => nomatch hb
    · intro c c' a _ _ hnote hinv
      obtain ⟨position, log, thresholdClock, -, -, rfl⟩ := noteProcessed_eq_some hnote
      exact (hinv.storeBlock _).of_eq rfl rfl
    · exact ⟨nofun, nofun, fun _ ⟨_, hb⟩ => nomatch hb⟩
  exact (hinv.storeBlock _).of_eq rfl rfl

theorem TableInv.step {block : Option SignedBlock} (h : TableInv cfg c)
    (hstep : Core.Step cfg env c block c') : TableInv cfg c' := by
  cases hstep with
  | addBlocks acceptable call =>
    obtain ⟨c₁, c₂, hprocesses, hfold, hhandler⟩ := addBlocks_eq_some h acceptable call
    have hfields := foldlM_noteProcessed_fields hfold
    have hnoted : TableInv cfg c₂ :=
      hprocesses.table.of_eq (by rw [hfields]) (by rw [hfields])
    obtain ⟨_, _, _, _, -, -, rfl⟩ := runBlockHandler_eq_some hhandler
    exact hnoted.of_eq rfl rfl
  | tryNewBlock call =>
    cases block with
    | none => exact tryNewBlock_eq_none call ▸ h
    | some block =>
      obtain ⟨_, _, _, _, -, -, -, -, -, rfl⟩ := tryNewBlock_eq_some call
      exact (h.storeBlock block).of_eq rfl rfl
  | commitLeaders call =>
    obtain ⟨_, -, rfl⟩ := commitLeaders_eq_some call
    exact h.of_eq rfl rfl
  | handleCommittedSubdag call =>
    obtain ⟨_, _, _, _, _, -, -, rfl⟩ := handleCommittedSubdag_eq_some call
    exact h.of_eq rfl rfl
  | external => exact h.of_eq rfl rfl

theorem tableInv_of_run {proposed : List SignedBlock} (hrun : Core.Run cfg env proposed c) :
    TableInv cfg c := by
  induction hrun with
  | «open» call => exact .open call
  | step _ step ih => exact ih.step step

end Core

end CongestionControl.Mysticeti
