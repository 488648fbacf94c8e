import CongestionControl.Mysticeti.BlockHandler
import CongestionControl.Mysticeti.Proofs.RecoveryProofs

/-!
# Client transactions are proposed once and in order

What a node has taken from its channel is in the payloads that are pending, and moves from there into
its blocks in order. The log has the payloads with their positions, so a restart neither loses nor
repeats one.
-/

namespace CongestionControl.Mysticeti

def shares (statements : List BaseStatement) : List Transaction :=
  statements.filterMap fun
    | .share tx => some tx
    | _ => none

theorem shares_append (l l' : List BaseStatement) : shares (l ++ l') = shares l ++ shares l' :=
  List.filterMap_append

theorem shares_map_share (l : List Transaction) : shares (l.map .share) = l := by
  rw [shares, List.filterMap_map]
  exact List.filterMap_some

theorem shares_response (block : SignedBlock) : shares (TransactionAggregator.response block) = [] := by
  rw [shares, TransactionAggregator.response, List.filterMap_map]
  exact List.filterMap_eq_nil_iff.mpr fun _ _ => rfl

/-! ## The block handler -/

variable {fuel : Nat} {blocks : List SignedBlock} {block : SignedBlock}

namespace RealBlockHandler

variable {committee : Committee} {h h' : RealBlockHandler} {response response' : List BaseStatement}
  {requireResponse consensusOnly : Bool}

theorem receiveWithLimit_eq_some {data : List Transaction}
    (hreceive : h.receiveWithLimit = some (h', data)) : h.channel = data ++ h'.channel := by
  unfold receiveWithLimit at hreceive
  split_ifs at hreceive
  split at hreceive
  · exact nomatch hreceive
  · rename_i received receiver heq
    cases hreceive
    rw [channel, heq]
    exact List.flatten_cons

theorem receiveLoop_eq (hloop : receiveLoop fuel h response = (h', response')) :
    shares response' ++ h'.channel = shares response ++ h.channel := by
  induction fuel generalizing h response with
  | zero =>
    cases hloop
    rfl
  | succ fuel ih =>
    rw [receiveLoop] at hloop
    split at hloop
    · rename_i h₁ data hreceive
      rw [ih hloop, shares_append, shares_map_share, receiveWithLimit_eq_some hreceive,
        List.append_assoc]
    · cases hloop
      rfl

theorem foldlM_handleBlock_eq
    (hfold : blocks.foldlM (handleBlock committee requireResponse) (h, response) =
      some (h', response')) :
    h' = { h with transactionVotes := h'.transactionVotes } ∧ shares response' = shares response := by
  induction blocks generalizing h response with
  | nil =>
    cases hfold
    exact ⟨rfl, rfl⟩
  | cons block blocks ih =>
    obtain ⟨⟨h₁, response₁⟩, hblock, hfold⟩ := Option.bind_eq_some_iff.mp hfold
    obtain ⟨⟨transactionVotes, _⟩, -, hblock⟩ := Option.bind_eq_some_iff.mp hblock
    cases hblock
    obtain ⟨hfields, hshares⟩ := ih hfold
    refine ⟨hfields, hshares.trans ?_⟩
    split_ifs
    · rw [shares_append, shares_response, List.append_nil]
    · rfl

theorem handleBlocks_receives
    (hcall : handleBlocks committee consensusOnly h blocks requireResponse = some (h', response)) :
    ∃ fuel h₁ response₁, receiveLoop fuel h [] = (h₁, response₁) ∧
      h' = { h₁ with transactionVotes := h'.transactionVotes } ∧ shares response = shares response₁ := by
  have hreceive : ∃ fuel, (if requireResponse then h.receive else (h, [])) = receiveLoop fuel h [] := by
    split_ifs
    · exact ⟨_, rfl⟩
    · exact ⟨0, rfl⟩
  obtain ⟨fuel, hreceive⟩ := hreceive
  unfold handleBlocks at hcall
  rw [hreceive] at hcall
  refine ⟨fuel, _, _, rfl, ?_⟩
  cases consensusOnly with
  | true =>
    rw [Option.some.inj hcall]
    exact ⟨rfl, rfl⟩
  | false => exact foldlM_handleBlock_eq hcall

theorem handleBlocks_eq_some
    (hcall : handleBlocks committee consensusOnly h blocks requireResponse = some (h', response)) :
    h.channel = shares response ++ h'.channel := by
  obtain ⟨fuel, h₁, response₁, hloop, hfields, hshares⟩ := handleBlocks_receives hcall
  rw [hfields, hshares]
  exact (receiveLoop_eq hloop).symm

theorem handleProposal_eq_some {authority : AuthorityIndex}
    (hcall : handleProposal committee consensusOnly authority h block = some h') :
    h' = { h with
      transactionVotes := h'.transactionVotes
      pendingTransactions := (h.pendingTransactions + 2 ^ 64 -
        block.sharedTransactions.length % 2 ^ 64) % 2 ^ 64 } := by
  unfold handleProposal at hcall
  split_ifs at hcall
  · cases hcall
    rfl
  · obtain ⟨transactionVotes, -, hcall⟩ := Option.bind_eq_some_iff.mp hcall
    cases hcall
    rfl

theorem recoverState_eq_some {codec : AggregatorCodec} {state : List UInt8}
    (hcall : recoverState codec h state = some h') :
    h' = { h with transactionVotes := h'.transactionVotes } := by
  unfold recoverState at hcall
  split_ifs at hcall
  obtain ⟨transactionVotes, -, rfl⟩ := Option.map_eq_some_iff.mp hcall
  rfl

theorem removed_eq {taken : List Transaction} (hchannel : h.channel = taken ++ h'.channel) :
    h.removed h' = taken := by
  rw [removed, hchannel, List.length_append, Nat.add_sub_cancel, List.take_left]

theorem removed_of_receiver_eq (hreceiver : h'.receiver = h.receiver) : h.removed h' = [] :=
  removed_eq (by rw [channel, channel, hreceiver, List.nil_append])

end RealBlockHandler

namespace Core

/-! ## Payloads -/

theorem payloads_append (l l' : List (Nat × MetaStatement)) :
    payloads (l ++ l') = payloads l ++ payloads l' := List.flatMap_append

theorem payloads_append_include (l : List (Nat × MetaStatement)) (position : Nat)
    (r : BlockReference) : payloads (l ++ [(position, .includeBlock r)]) = payloads l := by
  rw [payloads_append]
  exact List.append_nil _

theorem payloads_append_payload (l : List (Nat × MetaStatement)) (position : Nat)
    (statements : List BaseStatement) :
    payloads (l ++ [(position, .payload statements)]) = payloads l ++ statements := by
  rw [payloads_append]
  exact congrArg _ (List.append_nil statements)

variable {cfg : CoreConfig RealBlockHandler} {codec : AggregatorCodec} {consensusOnly : Bool}
  {c c' : Core RealBlockHandler} {proposed : List SignedBlock} {taken : List Transaction}
  {processed : List SignedBlock} {h : RealBlockHandler}

theorem runBlockHandler_conserves (hhandler : cfg.handler =
      RealBlockHandler.blockHandler cfg.committee codec cfg.authority consensusOnly)
    (hcall : c.runBlockHandler cfg processed = some c') :
    shares (payloads c'.pending) =
      shares (payloads c.pending) ++ c.blockHandler.removed c'.blockHandler := by
  obtain ⟨blockHandler, statements, position, log, hhandle, -, rfl⟩ := runBlockHandler_eq_some hcall
  rw [hhandler] at hhandle
  have hremoved := RealBlockHandler.removed_eq (RealBlockHandler.handleBlocks_eq_some hhandle)
  rw [payloads_append_payload, shares_append]
  exact congrArg _ hremoved.symm

/-- The own blocks in the store are those that were proposed, and the genesis block. -/
structure OwnInv (cfg : CoreConfig RealBlockHandler) (proposed : List SignedBlock)
    (c : Core RealBlockHandler) : Prop where
  rounds : proposed.Pairwise fun b b' => b.round < b'.round
  last : ∀ b ∈ proposed, b.round ≤ c.lastProposed
  stored : ∀ b, b ∈ c.blockStore.blocks ∧ b.author = cfg.authority ↔
    b ∈ (SignedBlock.newGenesis cfg.crypto cfg.authority :: proposed).map SignedBlock.toStatementBlock

theorem OwnInv.of_eq (h : OwnInv cfg proposed c) (hlast : c'.lastOwnBlock = c.lastOwnBlock)
    (hstore : c'.blockStore = c.blockStore) : OwnInv cfg proposed c' := by
  refine ⟨h.rounds, ?_, ?_⟩
  · rw [lastProposed, hlast]
    exact h.last
  · rw [hstore]
    exact h.stored

theorem OwnInv.open (hopen : Core.open cfg h .empty = some c) :
    OwnInv cfg [] c := by
  obtain ⟨c₁, hgenesis, rfl⟩ := open_empty hopen
  obtain ⟨c₂, thresholdClock, position, log, hfold, -, -, rfl⟩ := initGenesis_eq_some hgenesis
  have hothers : ∀ b ∈ c₂.blockStore.blocks, b.author ≠ cfg.authority := by
    refine foldlM_genesis_induct
      (P := fun c₂ => ∀ b ∈ c₂.blockStore.blocks, b.author ≠ cfg.authority)
      (List.nodup_range.filter _) ?_ hfold ?_ ?_
    · exact fun _ _ _ hb => nomatch hb
    · intro c c' a ha _ hnote hinv b hb
      obtain ⟨_, _, _, -, -, rfl⟩ := noteProcessed_eq_some hnote
      rcases BlockStore.eq_or_mem_of_mem_insertBlock hb with rfl | hb
      · exact of_decide_eq_true (List.mem_filter.mp ha).2
      · exact hinv b hb
    · exact fun _ hb => nomatch hb
  refine ⟨.nil, nofun, fun b => ?_⟩
  rw [List.map_singleton, List.mem_singleton]
  constructor
  · rintro ⟨hb, hauthor⟩
    exact (BlockStore.eq_or_mem_of_mem_insertBlock hb).resolve_right fun hb => hothers b hb hauthor
  · rintro rfl
    exact ⟨Finmap.lookup_insert _, rfl⟩

theorem OwnInv.addBlocks (htable : TableInv cfg c) (h : OwnInv cfg proposed c)
    (hacceptable : ∀ b ∈ blocks, Acceptable cfg b)
    (hcall : c.addBlocks cfg fuel blocks = some (c', processed)) : OwnInv cfg proposed c' := by
  obtain ⟨c₁, c₂, hprocesses, hfold, hhandler⟩ := addBlocks_eq_some htable hacceptable hcall
  have hfields := foldlM_noteProcessed_fields hfold
  obtain ⟨_, _, _, _, -, -, rfl⟩ := runBlockHandler_eq_some hhandler
  have hstored : ∀ b, b ∈ c₁.blockStore.blocks ∧ b.author = cfg.authority ↔
      b ∈ c.blockStore.blocks ∧ b.author = cfg.authority := by
    intro b
    refine and_congr_left fun hauthor => ⟨fun hb => ?_, fun hb => hprocesses.inserts.subset_blocks hb⟩
    refine (hprocesses.inserts.mem_blocks hb).resolve_right fun hmem => ?_
    obtain ⟨x, hx, rfl⟩ := List.mem_map.mp hmem
    obtain ⟨y, ⟨-, hne⟩, heq⟩ := hprocesses.acceptable x hx
    exact hne ((congrArg StatementBlock.author heq).trans hauthor)
  have hnoted : OwnInv cfg proposed c₁ := by
    refine ⟨h.rounds, ?_, fun b => (hstored b).trans (h.stored b)⟩
    rw [hprocesses.fields]
    exact h.last
  refine hnoted.of_eq ?_ ?_
  · rw [hfields]
  · rw [hfields]
    rfl

theorem OwnInv.propose {timeNs : Nat} (h : OwnInv cfg proposed c)
    (hcall : c.tryNewBlock cfg timeNs = some (some block, c')) :
    OwnInv cfg (proposed ++ [block]) c' := by
  obtain ⟨_, _, _, _, hround, rfl, -, -, -, rfl⟩ := tryNewBlock_eq_some hcall
  have hlower : ∀ b ∈ proposed, b.round < c.thresholdClock.round :=
    fun b hb => (h.last b hb).trans_lt hround
  have hfresh : (c.newBlock cfg timeNs).reference ∉ c.blockStore.index := by
    intro hmem
    obtain ⟨b, hb, hbr⟩ := BlockStore.mem_index_iff.mp hmem
    obtain ⟨x, hx, rfl⟩ := List.mem_map.mp
      ((h.stored b).mp ⟨hb, congrArg BlockReference.authority hbr⟩)
    have hxr : x.round = c.thresholdClock.round := congrArg BlockReference.round hbr
    rcases List.mem_cons.mp hx with rfl | hx
    · exact Nat.not_lt_zero _ (hround.trans_eq hxr.symm)
    · exact (hlower x hx).ne hxr
  refine ⟨?_, ?_, fun b => ?_⟩
  · refine List.pairwise_append.mpr ⟨h.rounds, List.pairwise_singleton _ _, fun b hb b' hb' => ?_⟩
    rw [List.mem_singleton.mp hb']
    exact hlower b hb
  · rw [List.forall_mem_append, List.forall_mem_singleton]
    exact ⟨fun b hb => Nat.le_of_lt (hlower b hb), Nat.le_refl _⟩
  · change b ∈ (c.blockStore.insertBlock _).blocks ∧ _ ↔ _
    rw [BlockStore.mem_blocks_insertBlock hfresh, or_and_right, h.stored b, ← List.cons_append,
      List.map_append, List.mem_append, List.map_singleton, List.mem_singleton, or_comm]
    exact or_congr_right ⟨And.left, fun hb => ⟨hb, hb ▸ rfl⟩⟩

/-! ## The life of a node -/

structure ServesInv (cfg : CoreConfig RealBlockHandler) (proposed : List SignedBlock)
    (taken : List Transaction) (c : Core RealBlockHandler) : Prop where
  table : TableInv cfg c
  logged : c.Logged
  own : OwnInv cfg proposed c
  calm : c.epochChanging = false
  conserved : shares (proposed.flatMap SignedBlock.statements) ++ shares (payloads c.pending) = taken

theorem open_fields (hopen : Core.open cfg h .empty = some c) :
    c.blockHandler = h ∧ c.epochChanging = false ∧ payloads c.pending = [] := by
  obtain ⟨c₁, hgenesis, rfl⟩ := open_empty hopen
  obtain ⟨c₂, thresholdClock, position, log, hfold, -, -, rfl⟩ := initGenesis_eq_some hgenesis
  suffices hinv : c₂.epochChanging = false ∧ payloads c₂.pending = [] from ⟨rfl, hinv⟩
  refine foldlM_genesis_induct (P := fun c₂ => c₂.epochChanging = false ∧ payloads c₂.pending = [])
    (List.nodup_range.filter _) ?_ hfold ?_ ⟨rfl, rfl⟩
  · exact fun _ _ _ hb => nomatch hb
  · rintro c c' a - - hnote ⟨hepoch, hpayloads⟩
    obtain ⟨_, _, _, -, -, rfl⟩ := noteProcessed_eq_some hnote
    exact ⟨hepoch, (payloads_append_include _ _ _).trans hpayloads⟩

theorem ServesInv.open (hopen : Core.open cfg h .empty = some c) :
    ServesInv cfg [] (h.removed c.blockHandler) c := by
  obtain ⟨hsame, hepoch, hpayloads⟩ := open_fields hopen
  refine ⟨.open hopen, .open hopen, .open hopen, hepoch, ?_⟩
  rw [RealBlockHandler.removed_of_receiver_eq (congrArg _ hsame)]
  exact congrArg shares hpayloads

theorem addBlocks_runs (htable : TableInv cfg c) (hacceptable : ∀ b ∈ blocks, Acceptable cfg b)
    (hcall : c.addBlocks cfg fuel blocks = some (c', processed)) :
    ∃ c₂ : Core RealBlockHandler, payloads c₂.pending = payloads c.pending ∧ c₂.blockHandler = c.blockHandler ∧
      c₂.runBlockHandler cfg processed = some c' := by
  obtain ⟨c₁, c₂, hprocesses, hfold, hrun⟩ := addBlocks_eq_some htable hacceptable hcall
  refine ⟨c₂, ?_, ?_, hrun⟩
  · rw [show c.pending = c₁.pending by rw [hprocesses.fields]]
    refine foldlM_noteProcessed_induct (P := fun _ c₂ => payloads c₂.pending = payloads c₁.pending)
      hprocesses.inserts hfold ?_ rfl
    intro s c₃ c₄ b _ _ _ hnote hinv
    obtain ⟨_, _, _, -, -, rfl⟩ := noteProcessed_eq_some hnote
    exact (payloads_append_include _ _ _).trans hinv
  · rw [foldlM_noteProcessed_fields hfold, hprocesses.fields]

section

variable (hhandler : cfg.handler = RealBlockHandler.blockHandler cfg.committee codec cfg.authority consensusOnly)

include hhandler

theorem addBlocks_conserves (htable : TableInv cfg c) (hacceptable : ∀ b ∈ blocks, Acceptable cfg b)
    (hcall : c.addBlocks cfg fuel blocks = some (c', processed)) :
    shares (payloads c'.pending) =
      shares (payloads c.pending) ++ c.blockHandler.removed c'.blockHandler := by
  obtain ⟨c₂, hpayloads, hsame, hrun⟩ := addBlocks_runs htable hacceptable hcall
  rw [runBlockHandler_conserves hhandler hrun, hpayloads, hsame]

theorem propose_conserves {timeNs : Nat} (hcalm : c.epochChanging = false)
    (hcall : c.tryNewBlock cfg timeNs = some (some block, c')) :
    c.blockHandler.removed c'.blockHandler = [] ∧
      payloads c.pending = block.statements ++ payloads c'.pending := by
  obtain ⟨_, blockHandler, _, _, -, rfl, -, hproposal, -, rfl⟩ := tryNewBlock_eq_some hcall
  rw [hhandler] at hproposal
  have hreceiver : blockHandler.receiver = c.blockHandler.receiver := by
    rw [RealBlockHandler.handleProposal_eq_some hproposal]
  refine ⟨RealBlockHandler.removed_of_receiver_eq hreceiver, ?_⟩
  have hstatements : (c.newBlock cfg timeNs).statements = payloads c.taken := by
    change c.newStatements = _
    rw [newStatements, hcalm]
    rfl
  rw [hstatements, pending_eq, payloads_append]
  rfl

theorem ServesInv.run (h : ServesInv cfg proposed taken c)
    (hrun : c.runBlockHandler cfg processed = some c') :
    ServesInv cfg proposed (taken ++ c.blockHandler.removed c'.blockHandler) c' := by
  have hconserves := runBlockHandler_conserves hhandler hrun
  obtain ⟨lost, hlog, hlost⟩ := h.logged
  have hlog' := hlog.runBlockHandler hrun
  obtain ⟨_, _, _, _, -, -, rfl⟩ := runBlockHandler_eq_some hrun
  refine ⟨h.table.of_eq rfl rfl, ⟨lost, hlog', hlost⟩, h.own.of_eq rfl rfl, h.calm, ?_⟩
  rw [hconserves, ← List.append_assoc, h.conserved]

theorem ServesInv.step {block : Option SignedBlock} (h : ServesInv cfg proposed taken c)
    (hstep : Core.Step cfg (fun _ _ => False) c block c') (hcalm : c'.epochChanging = false) :
    ServesInv cfg (proposed ++ block.toList) (taken ++ c.blockHandler.removed c'.blockHandler) c' := by
  have htable := h.table.step hstep
  have hlogged := h.logged.step h.table hstep
  cases hstep with
  | addBlocks acceptable call =>
    refine ⟨htable, hlogged, ?_, hcalm, ?_⟩
    · rw [Option.toList_none, List.append_nil]
      exact h.own.addBlocks h.table acceptable call
    · rw [Option.toList_none, List.append_nil, addBlocks_conserves hhandler h.table acceptable call,
        ← List.append_assoc, h.conserved]
  | tryNewBlock call =>
    cases block with
    | none =>
      obtain rfl := tryNewBlock_eq_none call
      rw [Option.toList_none, List.append_nil, RealBlockHandler.removed_of_receiver_eq rfl,
        List.append_nil]
      exact h
    | some block =>
      obtain ⟨hremoved, hpayloads⟩ := propose_conserves hhandler h.calm call
      refine ⟨htable, hlogged, h.own.propose call, hcalm, ?_⟩
      rw [hremoved, List.append_nil, ← h.conserved, hpayloads, Option.toList_some,
        List.flatMap_append, List.flatMap_singleton, shares_append, shares_append, List.append_assoc]
  | commitLeaders call =>
    obtain ⟨_, -, rfl⟩ := commitLeaders_eq_some call
    rw [Option.toList_none, List.append_nil, RealBlockHandler.removed_of_receiver_eq rfl,
      List.append_nil]
    exact ⟨htable, hlogged, h.own.of_eq rfl rfl, hcalm, h.conserved⟩
  | handleCommittedSubdag call =>
    obtain ⟨_, _, _, _, _, -, -, rfl⟩ := handleCommittedSubdag_eq_some call
    rw [Option.toList_none, List.append_nil, RealBlockHandler.removed_of_receiver_eq rfl,
      List.append_nil]
    exact ⟨htable, hlogged, h.own.of_eq rfl rfl, hcalm, h.conserved⟩
  | external change => exact change.elim

/-- The core that a restart rebuilds from the log, before it runs the block handler. -/
theorem reopen_runs (hlogged : c.Logged) (hopen : Core.open cfg h c.log = some c') :
    ∃ c₁ : Core RealBlockHandler,
      c₁.blockHandler = { h with transactionVotes := c₁.blockHandler.transactionVotes } ∧
      payloads c₁.pending = payloads c.pending ∧ c₁.epochChanging = false ∧
      TableInv cfg c₁ ∧ c₁.Logged ∧ c₁.lastOwnBlock = c.lastOwnBlock ∧
      c₁.blockStore = c.blockStore ∧
      (c' = c₁ ∨ c₁.runBlockHandler cfg (RecoveredState.open c.log).unprocessedBlocks = some c') := by
  obtain ⟨lost, hlog, -⟩ := hlogged
  obtain ⟨t, blockHandler, hrecover, hreplay⟩ := reopen_eq_some hlog hopen
  have hfields : blockHandler = { h with transactionVotes := blockHandler.transactionVotes } := by
    cases hstate : (RecoveredState.open c.log).state with
    | none =>
      rw [hstate] at hrecover
      cases hrecover
      rfl
    | some state =>
      rw [hstate, recoverHandler, hhandler] at hrecover
      exact RealBlockHandler.recoverState_eq_some hrecover
  -- Nothing of a payload is lost: the lost statements are includes.
  have hpayloads : payloads c.pending = payloads (RecoveredState.open c.log).pending := by
    have hlost : payloads lost = [] := by
      refine List.flatMap_eq_nil_iff.mpr fun x hx => ?_
      obtain ⟨position, r, rfl, -⟩ := hlog.low x hx
      rfl
    rw [hlog.pending, payloads_append, hlost, List.nil_append]
  have hlog' : LogInv c.blockStore (some c.lastOwnBlock) [] (resumed cfg c blockHandler t) :=
    hlog.restart blockHandler t
  have hstore : (resumed cfg c blockHandler t).blockStore = c.blockStore := hlog.store
  refine ⟨_, hfields, hpayloads.symm, rfl, .restart c blockHandler t,
    ⟨[], hstore.symm ▸ hlog', fun _ => rfl⟩, rfl, hstore, ?_⟩
  unfold replayUnprocessed at hreplay
  split_ifs at hreplay
  · exact .inl (Option.some.inj hreplay).symm
  · exact .inr hreplay

theorem ServesInv.restart (hinv : ServesInv cfg proposed taken c)
    (hopen : Core.open cfg h c.log = some c') :
    ServesInv cfg proposed (taken ++ h.removed c'.blockHandler) c' := by
  obtain ⟨c₁, hfields, hpayloads, hcalm, htable, hlogged, hlast, hstore, hrun⟩ :=
    reopen_runs hhandler hinv.logged hopen
  have hremoved : h.removed c'.blockHandler = c₁.blockHandler.removed c'.blockHandler := by
    rw [hfields]
    rfl
  have hinv₁ : ServesInv cfg proposed taken c₁ :=
    ⟨htable, hlogged, hinv.own.of_eq hlast hstore, hcalm, hpayloads ▸ hinv.conserved⟩
  rw [hremoved]
  rcases hrun with rfl | hrun
  · rw [RealBlockHandler.removed_of_receiver_eq rfl, List.append_nil]
    exact hinv₁
  · exact hinv₁.run hhandler hrun

end

/-- The transactions that a node has taken from its channels are those of its blocks, in the order of
their rounds, followed by those that are pending: none is lost, repeated or reordered, also over
restarts. -/
theorem transactions_conserved
    (hhandler : cfg.handler =
      RealBlockHandler.blockHandler cfg.committee codec cfg.authority consensusOnly)
    (hlife : Core.Serves cfg proposed taken c) :
    shares (proposed.flatMap SignedBlock.statements) ++ shares (payloads c.pending) = taken ∧
    (proposed.Pairwise fun b b' => b.round < b'.round) ∧
    ∀ b, b ∈ c.blockStore.blocks ∧ b.author = cfg.authority ↔
      b ∈ (SignedBlock.newGenesis cfg.crypto cfg.authority :: proposed).map
        SignedBlock.toStatementBlock := by
  have hinv : ServesInv cfg proposed taken c := by
    induction hlife with
    | «open» call => exact .open call
    | step _ step calm ih => exact ih.step hhandler step calm
    | send _ batch ih =>
      obtain ⟨lost, hlog, hlost⟩ := ih.logged
      exact ⟨ih.table.of_eq rfl rfl, ⟨lost, hlog.of_eq rfl (fun _ _ => rfl) rfl rfl, hlost⟩,
        ih.own.of_eq rfl rfl, ih.calm, ih.conserved⟩
    | restart _ call ih => exact ih.restart hhandler call
  exact ⟨hinv.conserved, hinv.own.rounds, hinv.own.stored⟩

def servingNode : CoreConfig RealBlockHandler :=
  { fourNodes with
    handler := RealBlockHandler.blockHandler fourNodes.committee
      ⟨fun _ => [], fun _ => some .new⟩ 0 false }

/-- A client sends a transaction, the node proposes it in its first block, and is restarted. -/
theorem transaction_proposed_once : ∃ proposed taken c,
    Core.Serves servingNode proposed taken c ∧ taken = [⟨[7]⟩] ∧
    shares (proposed.flatMap SignedBlock.statements) ++ shares (payloads c.pending) = taken := by
  let idle : RealBlockHandler := ⟨.new, [], 0⟩
  have hcalls : ((Core.open servingNode idle .empty).bind fun c₁ =>
      let c₂ := { c₁ with blockHandler := c₁.blockHandler.send [⟨[7]⟩] }
      (c₂.addBlocks servingNode 0 []).bind fun x =>
      (x.1.tryNewBlock servingNode 0).bind fun y =>
      (Core.open servingNode idle y.2.log).map fun c =>
        (x.1.epochChanging, y.2.epochChanging, y.1.isSome,
          idle.removed c₁.blockHandler ++ c₂.blockHandler.removed x.1.blockHandler ++
            x.1.blockHandler.removed y.2.blockHandler ++ idle.removed c.blockHandler)) =
      some (false, false, true, [⟨[7]⟩]) := by
    decide +kernel
  obtain ⟨c₁, hopen, hcalls⟩ := Option.bind_eq_some_iff.mp hcalls
  obtain ⟨⟨c₃, processed⟩, hadd, hcalls⟩ := Option.bind_eq_some_iff.mp hcalls
  obtain ⟨⟨block, c₄⟩, hnew, hcalls⟩ := Option.bind_eq_some_iff.mp hcalls
  obtain ⟨c, hreopen, heq⟩ := Option.map_eq_some_iff.mp hcalls
  simp only [Prod.mk.injEq] at heq
  obtain ⟨hcalm, hcalm', -, htaken⟩ := heq
  have hnone : ∀ b ∈ ([] : List SignedBlock), Acceptable servingNode b := nofun
  have hlife : Core.Serves servingNode _ _ c :=
    .restart (.step (.step (.send (.open hopen) [⟨[7]⟩]) (.addBlocks hnone hadd) hcalm)
      (.tryNewBlock hnew) hcalm') hreopen
  exact ⟨_, _, c, hlife, htaken, (transactions_conserved rfl hlife).1⟩

end Core

end CongestionControl.Mysticeti
