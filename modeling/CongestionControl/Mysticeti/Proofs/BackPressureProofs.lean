import CongestionControl.Mysticeti.Proofs.ConservationProofs

/-!
# The counter of pending transactions

The block handler counts the transactions that it has given to the core and that no block has taken.
The count is exact until a restart finds transactions in the log, since the handler starts again at
zero, or a block of an epoch change drops some.
-/

namespace CongestionControl.Mysticeti

theorem SignedBlock.length_sharedTransactions (b : SignedBlock) :
    b.sharedTransactions.length = (shares b.statements).length := by
  have hmap : b.sharedTransactions.map Prod.snd = shares b.statements := by
    rw [sharedTransactions, List.map_filterMap, ← List.zipIdx_map_fst 0 b.statements, shares,
      List.filterMap_map, List.zipIdx_map_fst]
    refine congrArg (List.filterMap · _) (funext fun p => ?_)
    rcases p with ⟨statement, pos⟩
    cases statement <;> rfl
  rw [← hmap, List.length_map]

namespace RealBlockHandler

variable {h h' : RealBlockHandler} {waiting : List Transaction} {committee : Committee}
  {consensusOnly : Bool}

/-- The counter is the number of the transactions that wait. -/
structure Counts (h : RealBlockHandler) (waiting : List Transaction) : Prop where
  count : h.pendingTransactions = waiting.length
  bounded : waiting.length < 2 ^ 64
  batches : ∀ batch ∈ h.receiver, batch.length < 2 ^ 63

theorem New.counts (hnew : h.New) : h.Counts [] := ⟨hnew.none, Nat.two_pow_pos 64, hnew.batches⟩

theorem Counts.of_votes (hcounts : h.Counts waiting)
    (hfields : h' = { h with transactionVotes := h'.transactionVotes }) : h'.Counts waiting := by
  rw [hfields]
  exact ⟨hcounts.count, hcounts.bounded, hcounts.batches⟩

theorem Counts.send {batch : List Transaction} (hcounts : h.Counts waiting)
    (hbatch : batch.length < 2 ^ 63) : (h.send batch).Counts waiting := by
  refine ⟨hcounts.count, hcounts.bounded, fun b hb => ?_⟩
  rcases List.mem_append.mp hb with hb | hb
  · exact hcounts.batches b hb
  · rwa [List.mem_singleton.mp hb]

theorem Counts.receiveWithLimit {data : List Transaction} (hcounts : h.Counts waiting)
    (hreceive : h.receiveWithLimit = some (h', data)) : h'.Counts (waiting ++ data) := by
  obtain ⟨hcount, hbounded, hbatches⟩ := hcounts
  unfold RealBlockHandler.receiveWithLimit softMaxProposedPerBlock at hreceive
  split_ifs at hreceive with hlimit
  split at hreceive
  · exact nomatch hreceive
  · rename_i received receiver heq
    cases hreceive
    rw [heq] at hbatches
    have hlength := hbatches data List.mem_cons_self
    have hsum : (waiting ++ data).length = h.pendingTransactions + data.length := by
      rw [List.length_append, hcount]
    have hlt : h.pendingTransactions + data.length < 2 ^ 64 := by omega
    exact ⟨(Nat.mod_eq_of_lt hlt).trans hsum.symm, hsum ▸ hlt,
      fun batch hb => hbatches batch (List.mem_cons_of_mem _ hb)⟩

theorem Counts.receiveLoop {fuel : Nat} {response response' : List BaseStatement}
    (hcounts : h.Counts (waiting ++ shares response))
    (hloop : receiveLoop fuel h response = (h', response')) :
    h'.Counts (waiting ++ shares response') := by
  induction fuel generalizing h response with
  | zero =>
    cases hloop
    exact hcounts
  | succ fuel ih =>
    rw [RealBlockHandler.receiveLoop] at hloop
    split at hloop
    · rename_i h₁ data hreceive
      refine ih ?_ hloop
      rw [shares_append, shares_map_share, ← List.append_assoc]
      exact hcounts.receiveWithLimit hreceive
    · cases hloop
      exact hcounts

theorem Counts.handleBlocks {blocks : List SignedBlock} {requireResponse : Bool}
    {response : List BaseStatement} (hcounts : h.Counts waiting)
    (hcall : handleBlocks committee consensusOnly h blocks requireResponse = some (h', response)) :
    h'.Counts (waiting ++ shares response) := by
  obtain ⟨fuel, h₁, response₁, hloop, hfields, hshares⟩ := handleBlocks_receives hcall
  have hloop' : h₁.Counts (waiting ++ shares response₁) :=
    Counts.receiveLoop ((List.append_nil waiting).symm ▸ hcounts) hloop
  rw [hshares]
  exact hloop'.of_votes hfields

theorem Counts.handleProposal {authority : AuthorityIndex} {block : SignedBlock}
    (hcounts : h.Counts (shares block.statements ++ waiting))
    (hcall : handleProposal committee consensusOnly authority h block = some h') :
    h'.Counts waiting := by
  obtain ⟨hcount, hbounded, hbatches⟩ := hcounts
  rw [List.length_append, ← block.length_sharedTransactions] at hcount hbounded
  rw [handleProposal_eq_some hcall]
  refine ⟨?_, by omega, hbatches⟩
  dsimp only
  omega

theorem Counts.refuses (hcounts : h.Counts waiting) (hreceiver : h.receiver ≠ [])
    (hrefuses : h.receiveWithLimit = none) : softMaxProposedPerBlock ≤ waiting.length := by
  unfold RealBlockHandler.receiveWithLimit at hrefuses
  split_ifs at hrefuses with hlimit
  · exact hcounts.count ▸ hlimit
  · split at hrefuses
    · contradiction
    · exact nomatch hrefuses

end RealBlockHandler

namespace Core

variable {cfg : CoreConfig RealBlockHandler} {codec : AggregatorCodec} {consensusOnly : Bool}
  {c c' : Core RealBlockHandler} {h : RealBlockHandler}

/-- The transactions that wait for a block. -/
def waiting (c : Core RealBlockHandler) : List Transaction := shares (payloads c.pending)

structure CountInv (cfg : CoreConfig RealBlockHandler) (c : Core RealBlockHandler) : Prop where
  table : TableInv cfg c
  logged : c.Logged
  counts : c.blockHandler.Counts c.waiting

theorem CountInv.open (hnew : h.New) (hopen : Core.open cfg h .empty = some c) : CountInv cfg c := by
  obtain ⟨hsame, -, hpayloads⟩ := open_fields hopen
  refine ⟨.open hopen, .open hopen, ?_⟩
  rw [hsame, waiting, hpayloads]
  exact hnew.counts

theorem newBlock_statements_nil {timeNs : Nat} (hepoch : c.epochChanging = true) :
    (c.newBlock cfg timeNs).statements = [] := if_pos hepoch

section

variable (hhandler : cfg.handler =
  RealBlockHandler.blockHandler cfg.committee codec cfg.authority consensusOnly)

include hhandler

theorem runBlockHandler_counts {processed : List SignedBlock}
    (hcounts : c.blockHandler.Counts c.waiting)
    (hcall : c.runBlockHandler cfg processed = some c') : c'.blockHandler.Counts c'.waiting := by
  obtain ⟨blockHandler, statements, position, log, hhandle, -, rfl⟩ := runBlockHandler_eq_some hcall
  rw [hhandler] at hhandle
  rw [waiting, payloads_append_payload, shares_append]
  exact hcounts.handleBlocks hhandle

theorem waiting_propose {timeNs : Nat} {block : SignedBlock}
    (hkept : c.epochChanging = true → shares (payloads c.taken) = [])
    (hcall : c.tryNewBlock cfg timeNs = some (some block, c')) :
    c.waiting = shares block.statements ++ c'.waiting := by
  cases hepoch : c.epochChanging with
  | false => rw [waiting, (propose_conserves hhandler hepoch hcall).2, shares_append, waiting]
  | true =>
    obtain ⟨_, _, _, _, -, rfl, -, -, -, rfl⟩ := tryNewBlock_eq_some hcall
    rw [newBlock_statements_nil hepoch, waiting, pending_eq, payloads_append, shares_append, hkept hepoch]
    rfl

theorem CountInv.step {block : Option SignedBlock} (h : CountInv cfg c)
    (hstep : Core.Step cfg RealBlockHandler.Sends c block c')
    (hkept : c.epochChanging = true → block.isSome → shares (payloads c.taken) = []) :
    CountInv cfg c' := by
  refine ⟨h.table.step hstep, h.logged.step h.table hstep, ?_⟩
  cases hstep with
  | addBlocks acceptable call =>
    obtain ⟨c₁, hpayloads, hsame, hrun⟩ := addBlocks_runs h.table acceptable call
    refine runBlockHandler_counts hhandler ?_ hrun
    rw [hsame, waiting, hpayloads]
    exact h.counts
  | tryNewBlock call =>
    cases block with
    | none => exact tryNewBlock_eq_none call ▸ h.counts
    | some block =>
      have hcounts := h.counts
      rw [waiting_propose hhandler (fun hepoch => hkept hepoch rfl) call] at hcounts
      obtain ⟨_, blockHandler, _, _, -, -, -, hproposal, -, rfl⟩ := tryNewBlock_eq_some call
      rw [hhandler] at hproposal
      exact hcounts.handleProposal hproposal
  | commitLeaders call =>
    obtain ⟨_, -, rfl⟩ := commitLeaders_eq_some call
    exact h.counts
  | handleCommittedSubdag call =>
    obtain ⟨_, _, _, _, _, -, -, rfl⟩ := handleCommittedSubdag_eq_some call
    exact h.counts
  | external change =>
    obtain ⟨batch, hbatch, rfl⟩ := change
    exact h.counts.send hbatch

theorem CountInv.restart (hinv : CountInv cfg c) (hnone : c.waiting = []) (hnew : h.New)
    (hopen : Core.open cfg h c.log = some c') : CountInv cfg c' := by
  obtain ⟨c₁, hfields, hpayloads, -, htable, hlogged, -, -, hrun⟩ :=
    reopen_runs hhandler hinv.logged hopen
  have hcounts : c₁.blockHandler.Counts c₁.waiting := by
    rw [waiting, hpayloads, ← waiting, hnone]
    exact hnew.counts.of_votes hfields
  rcases hrun with rfl | hrun
  · exact ⟨htable, hlogged, hcounts⟩
  · have hcounts' := runBlockHandler_counts hhandler hcounts hrun
    obtain ⟨lost, hlog, hlost⟩ := hlogged
    have hlog' := hlog.runBlockHandler hrun
    obtain ⟨_, _, _, _, -, -, rfl⟩ := runBlockHandler_eq_some hrun
    exact ⟨htable.of_eq rfl rfl, ⟨lost, hlog', hlost⟩, hcounts'⟩

end

/-- If a node is stopped only when no transaction waits, and blocks of an epoch change drop none, the
counter is the number of the waiting transactions. No proposal takes more than it, and the handler
refuses a batch only when the limit is reached. -/
theorem pendingTransactions_exact
    (hhandler : cfg.handler =
      RealBlockHandler.blockHandler cfg.committee codec cfg.authority consensusOnly)
    (hlife : Core.Life cfg (fun c => c.waiting = []) (fun c => shares (payloads c.taken) = []) c) :
    c.blockHandler.pendingTransactions = c.waiting.length ∧
    (∀ timeNs block c', c.tryNewBlock cfg timeNs = some (some block, c') →
      block.sharedTransactions.length ≤ c.blockHandler.pendingTransactions) ∧
    ∀ fuel h response, c.blockHandler.receiveLoop fuel [] = (h, response) → h.receiver ≠ [] →
      h.receiveWithLimit = none →
      RealBlockHandler.softMaxProposedPerBlock ≤ c.waiting.length + (shares response).length := by
  have hinv : CountInv cfg c := by
    induction hlife with
    | «open» new call => exact .open new call
    | step _ step may ih => exact ih.step hhandler step may
    | restart _ none new call ih => exact ih.restart hhandler none new call
  refine ⟨hinv.counts.count, fun timeNs block c' hcall => ?_,
    fun fuel h response hloop hreceiver hrefuses => ?_⟩
  · rw [hinv.counts.count, block.length_sharedTransactions]
    cases hepoch : c.epochChanging with
    | true =>
      obtain ⟨_, _, _, _, -, rfl, -, -, -, -⟩ := tryNewBlock_eq_some hcall
      rw [newBlock_statements_nil hepoch]
      exact Nat.zero_le _
    | false =>
      rw [waiting_propose hhandler (by rw [hepoch]; exact nofun) hcall, List.length_append]
      exact Nat.le_add_right _ _
  · have hcounts : h.Counts (c.waiting ++ shares response) :=
      .receiveLoop ((List.append_nil c.waiting).symm ▸ hinv.counts) hloop
    rw [← List.length_append]
    exact hcounts.refuses hreceiver hrefuses

def idleHandler : RealBlockHandler := ⟨.new, [], 0⟩

theorem new_idleHandler : idleHandler.New := ⟨rfl, fun _ hb => nomatch hb⟩

/-- A client sends a transaction, the node asks the handler for it, and may then be restarted. -/
theorem transaction_taken (stops drops : Core RealBlockHandler → Prop) :
    ∃ c, Core.Life servingNode stops drops c ∧ c.waiting = [⟨[7]⟩] ∧
      ∃ c', Core.open servingNode idleHandler c.log = some c' ∧ waiting c' = [⟨[7]⟩] ∧
        c'.blockHandler.pendingTransactions = 0 := by
  have hcalls : ((Core.open servingNode idleHandler .empty).bind fun c₁ =>
      ({ c₁ with blockHandler := c₁.blockHandler.send [⟨[7]⟩] }.addBlocks servingNode 0 []).bind
        fun x => (Core.open servingNode idleHandler x.1.log).map fun c' =>
          (c₁.epochChanging, x.1.waiting, waiting c', c'.blockHandler.pendingTransactions)) =
      some (false, [⟨[7]⟩], [⟨[7]⟩], 0) := by
    decide +kernel
  obtain ⟨c₁, hopen, hcalls⟩ := Option.bind_eq_some_iff.mp hcalls
  obtain ⟨⟨c, processed⟩, hadd, hcalls⟩ := Option.bind_eq_some_iff.mp hcalls
  obtain ⟨c', hreopen, heq⟩ := Option.map_eq_some_iff.mp hcalls
  simp only [Prod.mk.injEq] at heq
  obtain ⟨hepoch, hwaiting, hwaiting', hzero⟩ := heq
  have hopened : Core.Life servingNode stops drops c₁ := .open new_idleHandler hopen
  have hsent := hopened.step (.external ⟨[⟨[7]⟩], by decide, rfl⟩) (by rw [hepoch]; exact nofun)
  have hnone : ∀ b ∈ ([] : List SignedBlock), Acceptable servingNode b := nofun
  have hlife := hsent.step (.addBlocks hnone hadd) fun _ hsome => nomatch hsome
  exact ⟨c, hlife, hwaiting, c', hreopen, hwaiting', hzero⟩

theorem transaction_counted : ∃ c, Core.Life servingNode (fun c => c.waiting = [])
      (fun c => shares (payloads c.taken) = []) c ∧
    c.waiting = [⟨[7]⟩] ∧ c.blockHandler.pendingTransactions = c.waiting.length := by
  obtain ⟨c, hlife, hwaiting, -⟩ := transaction_taken (fun c => c.waiting = [])
    (fun c => shares (payloads c.taken) = [])
  exact ⟨c, hlife, hwaiting, (pendingTransactions_exact rfl hlife).1⟩

/-- The node is stopped while the transaction waits. After the restart it still waits, and the counter
is zero. -/
theorem restart_forgets_count : ∃ c, Core.Life servingNode (fun _ => True) (fun _ => True) c ∧
    c.waiting = [⟨[7]⟩] ∧ c.blockHandler.pendingTransactions = 0 := by
  obtain ⟨c, hlife, -, c', hreopen, hwaiting, hzero⟩ :=
    transaction_taken (fun _ => True) (fun _ => True)
  exact ⟨c', .restart hlife trivial new_idleHandler hreopen, hwaiting, hzero⟩

end Core

end CongestionControl.Mysticeti
