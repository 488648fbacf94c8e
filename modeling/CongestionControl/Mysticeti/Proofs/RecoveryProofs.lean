import CongestionControl.Mysticeti.Proofs.ProposalProofs

/-!
# A restart from the log

Replaying the log gives the stored blocks, the last own block and the committed blocks. The genesis
block of a node has no position of the first statement that it left, so the includes that were pending
in front of it are lost.
-/

namespace CongestionControl.Mysticeti

/-! ## One entry -/

variable {size : WalEntry → Nat} {position : Nat}

theorem Log.write_eq_some {log log' : Log} {entry : WalEntry}
    (h : log.write size entry = some (position, log')) :
    log.pos ≤ position ∧ position < log'.pos ∧ log'.pos ≤ walPositionMax ∧
      RecoveredState.open log' = (RecoveredState.open log).replay (position, entry) := by
  unfold Log.write at h
  dsimp only at h
  split_ifs at h with hsize
  cases h
  have hheader : 0 < size entry + Wal.headerLenBytes := Nat.add_pos_right _ (by decide)
  refine ⟨Nat.le_add_right _ _, Nat.lt_add_of_pos_right hheader, hsize.2, ?_⟩
  exact List.foldl_append

namespace RecoveredState

theorem insertPending_eq_append {pending : List (Nat × MetaStatement)} {statement : MetaStatement}
    (h : ∀ x ∈ pending, x.1 < position) :
    insertPending pending position statement = pending ++ [(position, statement)] := by
  induction pending with
  | nil => rfl
  | cons x pending ih =>
    have hx : x.1 < position := h x List.mem_cons_self
    rw [insertPending, if_neg (Nat.lt_asymm hx), if_neg (Nat.ne_of_gt hx),
      ih fun y hy => h y (List.mem_cons_of_mem _ hy)]
    rfl

end RecoveredState

namespace Core

variable {H : Type} {cfg : CoreConfig H} {env : H → H → Prop} {c c' : Core H} {s : BlockStore}
  {last : Option OwnBlockData} {lost : List (Nat × MetaStatement)} {block : SignedBlock}
  {processed proposed : List SignedBlock} {t : ThresholdClockAggregator}

/-- What the log says about the core. The includes of genesis blocks are lost. -/
structure LogInv (s : BlockStore) (last : Option OwnBlockData) (lost : List (Nat × MetaStatement))
    (c : Core H) : Prop where
  bounded : c.log.pos ≤ walPositionMax
  before : ∀ x ∈ c.pending, x.1 < c.log.pos
  sorted : c.pending.Pairwise fun x y => x.1 < y.1
  store : (RecoveredState.open c.log).blockStore = s
  contents : ∀ b ∈ s.blocks,
    (RecoveredState.open c.log).signedBlocks.lookup b = c.signedBlocks.lookup b
  last : (RecoveredState.open c.log).lastOwnBlock = last
  pending : c.pending = lost ++ (RecoveredState.open c.log).pending
  low : ∀ x ∈ lost, ∃ position r, x = (position, .includeBlock r) ∧ r.round = 0
  committed : (RecoveredState.open c.log).committedBlocks = c.committedBlocks

section

variable (h : LogInv s last lost c)

include h

theorem LogInv.of_eq (hlog : c'.log = c.log)
    (hsigned : ∀ b ∈ s.blocks, c'.signedBlocks.lookup b = c.signedBlocks.lookup b)
    (hpending : c'.pending = c.pending) (hcommitted : c'.committedBlocks = c.committedBlocks) :
    LogInv s last lost c' where
  bounded := hlog ▸ h.bounded
  before := by
    rw [hpending, hlog]
    exact h.before
  sorted := hpending ▸ h.sorted
  store := hlog ▸ h.store
  contents b hb := by rw [hlog, h.contents b hb, hsigned b hb]
  last := hlog ▸ h.last
  pending := by
    rw [hpending, hlog]
    exact h.pending
  low := h.low
  committed := by
    rw [hcommitted, hlog]
    exact h.committed

theorem LogInv.append (hle : c.log.pos ≤ position) (statement : MetaStatement) :
    (∀ x ∈ c.pending ++ [(position, statement)], x.1 < position + 1) ∧
      (c.pending ++ [(position, statement)]).Pairwise (fun x y => x.1 < y.1) ∧
      c.pending ++ [(position, statement)] = lost ++ RecoveredState.insertPending
        (RecoveredState.open c.log).pending position statement := by
  have hlt : ∀ x ∈ c.pending, x.1 < position := fun x hx => (h.before x hx).trans_le hle
  refine ⟨?_, ?_, ?_⟩
  · rw [List.forall_mem_append, List.forall_mem_singleton]
    exact ⟨fun x hx => (hlt x hx).trans (Nat.lt_succ_self _), Nat.lt_succ_self _⟩
  · refine List.pairwise_append.mpr ⟨h.sorted, List.pairwise_singleton _ _, fun x hx y hy => ?_⟩
    rw [List.mem_singleton.mp hy]
    exact hlt x hx
  · rw [RecoveredState.insertPending_eq_append, ← List.append_assoc, ← h.pending]
    exact fun x hx => hlt x (h.pending ▸ List.mem_append_right _ hx)

theorem LogInv.noteProcessed (hlookup : c.signedBlocks.lookup block.toStatementBlock = some block)
    (hnote : c.noteProcessed cfg block = some c') :
    LogInv (s.insertBlock block.toStatementBlock) last lost c' := by
  obtain ⟨position, log, thresholdClock, hwrite, -, rfl⟩ := noteProcessed_eq_some hnote
  obtain ⟨hle, hlt, hbounded, hopen⟩ := Log.write_eq_some hwrite
  obtain ⟨hbefore, hsorted, hpending⟩ := h.append hle (.includeBlock block.reference)
  refine ⟨hbounded, fun x hx => (hbefore x hx).trans_le hlt, hsorted, ?_, fun b hb => ?_, ?_, ?_,
    h.low, ?_⟩
  · rw [hopen, ← h.store]
    rfl
  · rw [hopen]
    change ((RecoveredState.open c.log).signedBlocks.insert _ _).lookup b = c.signedBlocks.lookup b
    by_cases heq : b = block.toStatementBlock
    · rw [heq, Finmap.lookup_insert, hlookup]
    · rw [Finmap.lookup_insert_of_ne _ heq]
      exact h.contents b ((BlockStore.eq_or_mem_of_mem_insertBlock hb).resolve_left heq)
  · rw [hopen, ← h.last]
    rfl
  · rw [hopen]
    exact hpending
  · rw [hopen]
    exact h.committed

theorem LogInv.runBlockHandler (hcall : c.runBlockHandler cfg processed = some c') :
    LogInv s last lost c' := by
  obtain ⟨blockHandler, statements, position, log, -, hwrite, rfl⟩ := runBlockHandler_eq_some hcall
  obtain ⟨hle, hlt, hbounded, hopen⟩ := Log.write_eq_some hwrite
  obtain ⟨hbefore, hsorted, hpending⟩ := h.append hle (.payload statements)
  refine ⟨hbounded, fun x hx => (hbefore x hx).trans_le hlt, hsorted, ?_, ?_, ?_, ?_, h.low, ?_⟩
  · rw [hopen, ← h.store]
    rfl
  · rw [hopen]
    exact h.contents
  · rw [hopen, ← h.last]
    rfl
  · rw [hopen]
    exact hpending
  · rw [hopen]
    exact h.committed

theorem LogInv.storeOwn {data : OwnBlockData} {log : Log} {lost' : List (Nat × MetaStatement)}
    (hwrite : c.log.write size (.ownBlock data) = some (position, log)) (hlog : c'.log = log)
    (hsigned : c'.signedBlocks = c.signedBlocks.insert data.block.toStatementBlock data.block)
    (hsuffix : c'.pending.Sublist c.pending) (hcommitted : c'.committedBlocks = c.committedBlocks)
    (hpending : c'.pending = lost' ++
      (RecoveredState.open c.log).pending.filter fun x => decide (data.nextEntry ≤ x.1))
    (hlow : ∀ x ∈ lost', ∃ position r, x = (position, .includeBlock r) ∧ r.round = 0) :
    LogInv (s.insertBlock data.block.toStatementBlock) (some data) lost' c' := by
  subst hlog
  obtain ⟨hle, hlt, hbounded, hopen⟩ := Log.write_eq_some hwrite
  refine ⟨hbounded, fun x hx => ?_, h.sorted.sublist hsuffix, ?_, fun b hb => ?_, ?_, ?_, hlow, ?_⟩
  · exact (h.before x (hsuffix.subset hx)).trans_le (hle.trans (Nat.le_of_lt hlt))
  · rw [hopen, ← h.store]
    rfl
  · rw [hopen, hsigned]
    change ((RecoveredState.open c.log).signedBlocks.insert _ _).lookup b = _
    by_cases heq : b = data.block.toStatementBlock
    · rw [heq, Finmap.lookup_insert, Finmap.lookup_insert]
    · rw [Finmap.lookup_insert_of_ne _ heq, Finmap.lookup_insert_of_ne _ heq]
      exact h.contents b ((BlockStore.eq_or_mem_of_mem_insertBlock hb).resolve_left heq)
  · rw [hopen]
    rfl
  · rw [hopen]
    exact hpending
  · rw [hopen, hcommitted]
    exact h.committed

end

/-! ## An own block -/

theorem filter_nextEntry {taken kept : List (Nat × MetaStatement)}
    (hsorted : (taken ++ kept).Pairwise fun x y => x.1 < y.1)
    (hbounded : ∀ x ∈ taken ++ kept, x.1 < walPositionMax) :
    (taken ++ kept).filter (fun x =>
      decide ((kept.head?.map Prod.fst).getD walPositionMax ≤ x.1)) = kept := by
  obtain ⟨-, hkept, hcross⟩ := List.pairwise_append.mp hsorted
  rw [List.filter_append]
  cases kept with
  | nil =>
    rw [List.filter_nil, List.append_nil, List.filter_eq_nil_iff]
    intro x hx hle
    exact Nat.not_le.mpr (hbounded x (List.mem_append_left _ hx)) (of_decide_eq_true hle)
  | cons y kept =>
    have htaken : taken.filter (fun x => decide (y.1 ≤ x.1)) = [] := by
      refine List.filter_eq_nil_iff.mpr fun x hx hle => ?_
      exact Nat.not_le.mpr (hcross x hx y List.mem_cons_self) (of_decide_eq_true hle)
    have hall : (y :: kept).filter (fun x => decide (y.1 ≤ x.1)) = y :: kept := by
      refine List.filter_eq_self.mpr (List.forall_mem_cons.mpr ⟨decide_eq_true (Nat.le_refl _), ?_⟩)
      exact fun x hx => decide_eq_true (Nat.le_of_lt ((List.pairwise_cons.mp hkept).1 x hx))
    change taken.filter (fun x => decide (y.1 ≤ x.1)) ++
      (y :: kept).filter (fun x => decide (y.1 ≤ x.1)) = _
    rw [htaken, hall, List.nil_append]

theorem LogInv.taken_eq (h : LogInv s last lost c) (hround : 0 < c.thresholdClock.round) :
    ∃ taken, c.taken = lost ++ taken ∧ (RecoveredState.open c.log).pending = taken ++ c.kept := by
  have hlow : ∀ x ∈ lost, (!tooHigh c.thresholdClock.getRound x) = true := by
    intro x hx
    obtain ⟨position, r, rfl, hr⟩ := h.low x hx
    exact Bool.not_eq_true' _ ▸ decide_eq_false (Nat.not_le.mpr (hr ▸ hround))
  refine ⟨(RecoveredState.open c.log).pending.takeWhile
    fun x => !tooHigh c.thresholdClock.getRound x, ?_, ?_⟩
  · rw [taken, h.pending, List.takeWhile_append_of_pos hlow]
  · rw [kept, h.pending, List.dropWhile_append_of_pos hlow, List.takeWhile_append_dropWhile]

/-- A core with its log. Nothing is lost once the node has proposed a block. -/
def Logged (c : Core H) : Prop :=
  ∃ lost, LogInv c.blockStore (some c.lastOwnBlock) lost c ∧ (c.lastProposed ≠ 0 → lost = [])

theorem Logged.propose {timeNs : Nat} (h : c.Logged)
    (hcall : c.tryNewBlock cfg timeNs = some (some block, c')) : c'.Logged := by
  obtain ⟨lost, hlog, -⟩ := h
  obtain ⟨thresholdClock, blockHandler, position, log, hround, rfl, -, -, hwrite, rfl⟩ :=
    tryNewBlock_eq_some hcall
  obtain ⟨taken, htaken, hpending⟩ := hlog.taken_eq (Nat.zero_lt_of_lt hround)
  have hsplit : c.pending = lost ++ (taken ++ c.kept) := by rw [hlog.pending, hpending]
  have hcut : (RecoveredState.open c.log).pending.filter
      (fun x => decide (c.nextEntry ≤ x.1)) = c.kept := by
    rw [hpending]
    refine filter_nextEntry ?_ fun x hx => ?_
    · exact (List.pairwise_append.mp (hsplit ▸ hlog.sorted)).2.1
    · exact (hlog.before x (hsplit ▸ List.mem_append_right _ hx)).trans_le hlog.bounded
  refine ⟨[], hlog.storeOwn hwrite rfl rfl ?_ rfl hcut.symm nofun, fun _ => rfl⟩
  exact List.dropWhile_sublist _

/-! ## Genesis -/

theorem Logged.open {h : H} (hopen : Core.open cfg h .empty = some c) : c.Logged := by
  obtain ⟨c₁, hgenesis, rfl⟩ := open_empty hopen
  obtain ⟨c₂, thresholdClock, position, log, hfold, -, hwrite, rfl⟩ := initGenesis_eq_some hgenesis
  have hinv : LogInv c₂.blockStore none [] c₂ ∧
      ∀ x ∈ c₂.pending, ∃ position r, x = (position, .includeBlock r) ∧ r.round = 0 := by
    refine foldlM_genesis_induct
      (P := fun c₂ => LogInv c₂.blockStore none [] c₂ ∧
        ∀ x ∈ c₂.pending, ∃ position r, x = (position, .includeBlock r) ∧ r.round = 0)
      (List.nodup_range.filter _) ?_ hfold ?_ ?_
    · exact fun _ _ _ hb => nomatch hb
    · rintro c c' a - hindex hnote ⟨hlog, hlow⟩
      have hstored : LogInv c.blockStore none [] (c.storeBlock (SignedBlock.newGenesis cfg.crypto a)) := by
        refine hlog.of_eq rfl (fun b hb => Finmap.lookup_insert_of_ne _ ?_) rfl rfl
        rintro rfl
        exact hindex (BlockStore.mem_index_iff.mpr ⟨_, hb, rfl⟩)
      have hlog' := hstored.noteProcessed (Finmap.lookup_insert _) hnote
      obtain ⟨position, log, thresholdClock, -, -, rfl⟩ := noteProcessed_eq_some hnote
      refine ⟨hlog', ?_⟩
      rw [List.forall_mem_append, List.forall_mem_singleton]
      exact ⟨hlow, position, _, rfl, rfl⟩
    · exact ⟨⟨Nat.zero_le _, nofun, .nil, rfl, nofun, rfl, rfl, nofun, rfl⟩, nofun⟩
  obtain ⟨hlog, hlow⟩ := hinv
  have hall : (RecoveredState.open c₂.log).pending.filter
      (fun x => decide (walPositionMax ≤ x.1)) = [] := by
    refine List.filter_eq_nil_iff.mpr fun x hx hle => ?_
    have hlt := (hlog.before x (hlog.pending ▸ hx)).trans_le hlog.bounded
    exact Nat.not_le.mpr hlt (of_decide_eq_true hle)
  refine ⟨c₂.pending, ?_, fun hne => absurd rfl hne⟩
  refine hlog.storeOwn hwrite rfl rfl (List.Sublist.refl _) rfl ?_ hlow
  change c₂.pending = c₂.pending ++ _
  rw [hall, List.append_nil]

/-! ## The other calls -/

theorem LogInv.addBlocks {fuel : Nat} {blocks : List SignedBlock} (htable : TableInv cfg c)
    (h : LogInv c.blockStore last lost c) (hacceptable : ∀ b ∈ blocks, Acceptable cfg b)
    (hcall : c.addBlocks cfg fuel blocks = some (c', processed)) :
    LogInv c'.blockStore last lost c' ∧ c'.lastOwnBlock = c.lastOwnBlock := by
  obtain ⟨c₁, c₂, hprocesses, hfold, hhandler⟩ := addBlocks_eq_some htable hacceptable hcall
  have hfields := foldlM_noteProcessed_fields hfold
  have hstart : LogInv c.blockStore last lost c₁ := by
    refine h.of_eq ?_ (fun b hb => hprocesses.same b (htable.stored b hb)) ?_ ?_ <;>
      rw [hprocesses.fields]
  have hnoted : LogInv c₁.blockStore last lost c₂ ∧ c₂.signedBlocks = c₁.signedBlocks := by
    refine foldlM_noteProcessed_induct
      (P := fun s c₂ => LogInv s last lost c₂ ∧ c₂.signedBlocks = c₁.signedBlocks)
      hprocesses.inserts hfold ?_ ⟨hstart, rfl⟩
    rintro s c₃ c₄ b hb - - hnote ⟨hlog, hsigned⟩
    refine ⟨hlog.noteProcessed (hsigned ▸ hprocesses.lookup b hb) hnote, ?_⟩
    obtain ⟨_, _, _, -, -, rfl⟩ := noteProcessed_eq_some hnote
    exact hsigned
  have hstore : c₂.blockStore = c₁.blockStore := by
    rw [hfields]
    rfl
  have hlog := hnoted.1.runBlockHandler hhandler
  obtain ⟨_, _, _, _, -, -, rfl⟩ := runBlockHandler_eq_some hhandler
  refine ⟨?_, ?_⟩
  · change LogInv c₂.blockStore last lost _
    rw [hstore]
    exact hlog
  · rw [hfields, hprocesses.fields]

theorem LogInv.handleCommittedSubdag {committed : List CommittedSubDag} {state : List UInt8}
    (h : LogInv s last lost c) (hcall : c.handleCommittedSubdag cfg committed state = some c') :
    LogInv s last lost c' := by
  obtain ⟨epochManager, position, log, position', log', hstate, hcommit, rfl⟩ :=
    handleCommittedSubdag_eq_some hcall
  obtain ⟨hle, hlt, -, hopen⟩ := Log.write_eq_some hstate
  obtain ⟨hle', hlt', hbounded, hopen'⟩ := Log.write_eq_some hcommit
  have hpos : c.log.pos ≤ log'.pos :=
    (hle.trans (Nat.le_of_lt hlt)).trans (hle'.trans (Nat.le_of_lt hlt'))
  rw [hopen] at hopen'
  refine ⟨hbounded, fun x hx => (h.before x hx).trans_le hpos, h.sorted, ?_, ?_, ?_, ?_, h.low, ?_⟩
  · rw [hopen']
    exact h.store
  · rw [hopen']
    exact h.contents
  · rw [hopen']
    exact h.last
  · rw [hopen']
    exact h.pending
  · rw [hopen', ← h.committed]
    rfl

theorem Logged.step {block : Option SignedBlock} (htable : TableInv cfg c) (h : c.Logged)
    (hstep : Core.Step cfg env c block c') : c'.Logged := by
  cases hstep with
  | addBlocks acceptable call =>
    obtain ⟨lost, hlog, hlost⟩ := h
    obtain ⟨hlog', hlast⟩ := hlog.addBlocks htable acceptable call
    refine ⟨lost, hlast ▸ hlog', fun hne => hlost ?_⟩
    rw [lastProposed, ← hlast]
    exact hne
  | tryNewBlock call =>
    cases block with
    | none => exact tryNewBlock_eq_none call ▸ h
    | some block => exact h.propose call
  | commitLeaders call =>
    obtain ⟨lost, hlog, hlost⟩ := h
    obtain ⟨_, -, rfl⟩ := commitLeaders_eq_some call
    exact ⟨lost, hlog.of_eq rfl (fun _ _ => rfl) rfl rfl, hlost⟩
  | handleCommittedSubdag call =>
    obtain ⟨lost, hlog, hlost⟩ := h
    have hlog' := hlog.handleCommittedSubdag call
    obtain ⟨_, _, _, _, _, -, -, rfl⟩ := handleCommittedSubdag_eq_some call
    exact ⟨lost, hlog', hlost⟩
  | external =>
    obtain ⟨lost, hlog, hlost⟩ := h
    exact ⟨lost, hlog.of_eq rfl (fun _ _ => rfl) rfl rfl, hlost⟩

theorem logged_of_run (hrun : Core.Run cfg env proposed c) :
    c.Logged := by
  induction hrun with
  | «open» call => exact .open call
  | step run step ih => exact ih.step (tableInv_of_run run) step

/-! ## The clock -/

/-- The clock has counted the pending includes, among others. -/
structure ClockLog (cfg : CoreConfig H) (c : Core H) : Prop where
  history : ∃ history, ThresholdClockAggregator.addAll cfg.committee (.new 0) history =
    some c.thresholdClock ∧ (includeRefs c.pending).Sublist history
  known : ∀ r ∈ includeRefs c.pending, r.authority ∈ Finset.range cfg.committee.len

theorem ClockLog.of_eq (h : ClockLog cfg c) (hclock : c'.thresholdClock = c.thresholdClock)
    (hrefs : includeRefs c'.pending = includeRefs c.pending) : ClockLog cfg c' := by
  refine ⟨?_, ?_⟩
  · rw [hclock, hrefs]
    exact h.history
  · rw [hrefs]
    exact h.known

theorem addAll_concat {committee : Committee} {t₁ t' : ThresholdClockAggregator}
    {l : List BlockReference} {r : BlockReference} (hall : t.addAll committee l = some t₁)
    (hadd : t₁.addBlock r committee = some t') : t.addAll committee (l ++ [r]) = some t' := by
  unfold ThresholdClockAggregator.addAll
  rw [List.foldlM_append]
  refine Option.bind_eq_some_iff.mpr ⟨t₁, hall, ?_⟩
  exact Option.bind_eq_some_iff.mpr ⟨t', hadd, rfl⟩

theorem ClockLog.noteProcessed (h : ClockLog cfg c)
    (hknown : block.author ∈ Finset.range cfg.committee.len)
    (hnote : c.noteProcessed cfg block = some c') : ClockLog cfg c' := by
  obtain ⟨position, log, thresholdClock, -, hadd, rfl⟩ := noteProcessed_eq_some hnote
  obtain ⟨history, hall, hsub⟩ := h.history
  refine ⟨⟨history ++ [block.reference], addAll_concat hall hadd, ?_⟩, ?_⟩
  · rw [includeRefs_append]
    exact hsub.append (List.Sublist.refl _)
  · rw [includeRefs_append, List.forall_mem_append]
    exact ⟨h.known, List.forall_mem_singleton.mpr hknown⟩

theorem includeRefs_append_payload (pending : List (Nat × MetaStatement)) (position : Nat)
    (statements : List BaseStatement) :
    includeRefs (pending ++ [(position, .payload statements)]) = includeRefs pending := by
  rw [includeRefs_append]
  exact List.append_nil _

theorem known_of_acceptable (h : Acceptable cfg block) :
    block.author ∈ Finset.range cfg.committee.len := by
  have hverify := h.1
  obtain ⟨-, hverify⟩ := Except.ite_throw_eq_ok_iff.mp hverify
  obtain ⟨hknown, -⟩ := Except.ite_throw_eq_ok_iff.mp hverify
  exact Committee.knownAuthority_iff.mp (not_not.mp hknown)

theorem ClockLog.open {h : H} (hopen : Core.open cfg h .empty = some c) : ClockLog cfg c := by
  obtain ⟨c₁, hgenesis, rfl⟩ := open_empty hopen
  obtain ⟨c₂, thresholdClock, position, log, hfold, hadd, -, rfl⟩ := initGenesis_eq_some hgenesis
  have hinv : ClockLog cfg c₂ := by
    refine foldlM_genesis_induct (List.nodup_range.filter _) ?_ hfold ?_ ?_
    · exact fun _ _ _ hb => nomatch hb
    · intro c c' a ha _ hnote hinv
      have hknown : (SignedBlock.newGenesis cfg.crypto a).author ∈ Finset.range cfg.committee.len :=
        Finset.mem_range.mpr (List.mem_range.mp (List.mem_filter.mp ha).1)
      have hstored : ClockLog cfg (c.storeBlock (SignedBlock.newGenesis cfg.crypto a)) :=
        hinv.of_eq rfl rfl
      exact hstored.noteProcessed hknown hnote
    · exact ⟨⟨[], rfl, List.Sublist.refl _⟩, nofun⟩
  obtain ⟨history, hall, hsub⟩ := hinv.history
  exact ⟨⟨_, addAll_concat hall hadd, hsub.trans (List.sublist_append_left _ _)⟩, hinv.known⟩

theorem ClockLog.step {block : Option SignedBlock} (htable : TableInv cfg c) (h : ClockLog cfg c)
    (hstep : Core.Step cfg env c block c') : ClockLog cfg c' := by
  cases hstep with
  | addBlocks acceptable call =>
    obtain ⟨c₁, c₂, hprocesses, hfold, hhandler⟩ := addBlocks_eq_some htable acceptable call
    have hnoted : ClockLog cfg c₂ := by
      refine foldlM_noteProcessed_induct (P := fun _ c₂ => ClockLog cfg c₂) hprocesses.inserts hfold
        ?_ (h.of_eq ?_ ?_)
      · intro s c₃ c₄ b hb _ _ hnote hinv
        obtain ⟨x, hx, heq⟩ := hprocesses.acceptable b hb
        have hauthor : x.author = b.author := congrArg StatementBlock.author heq
        exact hinv.noteProcessed (hauthor ▸ known_of_acceptable hx) hnote
      · rw [hprocesses.fields]
      · rw [hprocesses.fields]
    obtain ⟨_, _, _, _, -, -, rfl⟩ := runBlockHandler_eq_some hhandler
    exact hnoted.of_eq rfl (includeRefs_append_payload _ _ _)
  | tryNewBlock call =>
    cases block with
    | none => exact tryNewBlock_eq_none call ▸ h
    | some block =>
      obtain ⟨_, _, _, _, -, -, hadd, -, -, rfl⟩ := tryNewBlock_eq_some call
      obtain ⟨history, hall, hsub⟩ := h.history
      have hrefs : includeRefs c.pending = includeRefs c.taken ++ includeRefs c.kept := by
        rw [← includeRefs_append, ← pending_eq]
      have hkept : (includeRefs c.kept).Sublist (includeRefs c.pending) :=
        hrefs ▸ List.sublist_append_right _ _
      refine ⟨⟨_, addAll_concat hall hadd, ?_⟩, fun r hr => h.known r (hkept.subset hr)⟩
      exact (hkept.trans hsub).trans (List.sublist_append_left _ _)
  | commitLeaders call =>
    obtain ⟨_, -, rfl⟩ := commitLeaders_eq_some call
    exact h.of_eq rfl rfl
  | handleCommittedSubdag call =>
    obtain ⟨_, _, _, _, _, -, -, rfl⟩ := handleCommittedSubdag_eq_some call
    exact h.of_eq rfl rfl
  | external => exact h.of_eq rfl rfl

theorem clockLog_of_run (hrun : Core.Run cfg env proposed c) :
    ClockLog cfg c := by
  induction hrun with
  | «open» call => exact .open call
  | step run step ih => exact ih.step (tableInv_of_run run) step

/-- The pending includes are enough to bring the clock to its round. -/
def ClockPending (committee : Committee) (c : Core H) : Prop :=
  (∃ r ∈ includeRefs c.pending, r.round = c.thresholdClock.round) ∨
    ∃ s : Finset AuthorityIndex, 1 < s.card ∧
      committee.isQuorum (committee.getTotalStake s) = true ∧
      ∀ a ∈ s, ∃ r ∈ includeRefs c.pending, r.authority = a ∧ r.round + 1 = c.thresholdClock.round

/-- The rebuilt clock is never ahead, and at the same round if the pending includes are enough. -/
theorem ClockLog.rebuild (h : ClockLog cfg c) :
    ∃ t, ThresholdClockAggregator.addAll cfg.committee (.new 0) (includeRefs c.pending) = some t ∧
      t.round ≤ c.thresholdClock.round ∧
      (ClockPending cfg.committee c → t.round = c.thresholdClock.round) := by
  obtain ⟨history, hall, hsub⟩ := h.history
  have hcounts : (ThresholdClockAggregator.new 0).aggregator.Counts cfg.committee :=
    StakeAggregator.counts_new
  obtain ⟨t, ht⟩ := exists_addAll hcounts h.known
  have hstart : Behind cfg.committee (.new 0) (.new 0) :=
    ⟨hcounts, hcounts, Nat.le_refl _, fun _ => Finset.Subset.refl _⟩
  have hle := (hstart.addAll hsub ht hall).round
  have hcounted := counted_addAll ht
  refine ⟨t, ht, hle, fun hpending => Nat.le_antisymm hle ?_⟩
  rcases hpending with ⟨r, hr, hround⟩ | ⟨s, htwo, hquorum, hs⟩
  · exact hround ▸ hcounted.top r hr
  · have hsome : ∃ round, round + 1 = c.thresholdClock.round := by
      obtain ⟨a, ha⟩ := Finset.card_pos.mp (Nat.zero_lt_of_lt htwo)
      obtain ⟨r, -, -, hround⟩ := hs a ha
      exact ⟨r.round, hround⟩
    obtain ⟨round, hround⟩ := hsome
    rw [← hround] at hs ⊢
    refine hcounted.lt_of_quorum (fun a ha => ?_) hquorum htwo
    obtain ⟨r, hr, hra, hrr⟩ := hs a ha
    exact ⟨r, hr, hra, Nat.succ_injective hrr⟩

/-! ## Reopening -/

def lastAnchor (log : Log) : Option BlockReference :=
  (log.entries.flatMap fun
    | (_, .commit commits _) => commits
    | _ => []).getLast?.map CommitData.leader

theorem lastCommittedLeader_open (log : Log) :
    (RecoveredState.open log).lastCommittedLeader = lastAnchor log := by
  obtain ⟨entries, pos⟩ := log
  -- Induction over the entries from the first to the last: only a commit entry changes the leader.
  induction entries using List.reverseRecOn with
  | nil => rfl
  | append_singleton entries e ih =>
    have hopen : RecoveredState.open ⟨entries ++ [e], pos⟩ =
        (RecoveredState.open ⟨entries, pos⟩).replay e := List.foldl_append
    rw [hopen, lastAnchor, List.flatMap_append, List.getLast?_append, Option.map_or,
      List.flatMap_singleton]
    rw [lastAnchor] at ih
    rw [← ih]
    obtain ⟨position, entry⟩ := e
    cases entry <;> rfl

def resumed (cfg : CoreConfig H) (c : Core H) (blockHandler : H) (t : ThresholdClockAggregator) :
    Core H :=
  { beforeGenesis cfg blockHandler c.log (RecoveredState.open c.log) c.lastOwnBlock with
    thresholdClock := t }

theorem open_eq_replay (hlog : LogInv s (some c.lastOwnBlock) lost c) (h : H)
    (ht : ThresholdClockAggregator.addAll cfg.committee (.new 0)
      (includeRefs (RecoveredState.open c.log).pending) = some t) :
    Core.open cfg h c.log =
      (recoverHandler cfg h (RecoveredState.open c.log).state).bind fun blockHandler =>
        replayUnprocessed cfg (resumed cfg c blockHandler t)
          (RecoveredState.open c.log).unprocessedBlocks := by
  have hrebuild : rebuildClock cfg
      (beforeGenesis cfg h c.log (RecoveredState.open c.log) c.lastOwnBlock) =
      some (resumed cfg c h t) := Option.bind_eq_some_iff.mpr ⟨t, ht, rfl⟩
  unfold Core.open
  dsimp only
  rw [hlog.last]
  dsimp only
  rw [hrebuild]
  rfl

theorem replayUnprocessed_eq_some {unprocessed : List SignedBlock}
    (h : c.replayUnprocessed cfg unprocessed = some c') :
    c' = { c with
        blockHandler := c'.blockHandler, log := c'.log, pending := c'.pending } ∧
      (c'.pending = c.pending ∨
        ∃ position statements, c'.pending = c.pending ++ [(position, .payload statements)]) := by
  unfold replayUnprocessed at h
  split_ifs at h with hempty
  · cases h
    exact ⟨rfl, .inl rfl⟩
  · obtain ⟨blockHandler, statements, position, log, -, -, rfl⟩ := runBlockHandler_eq_some h
    exact ⟨rfl, .inr ⟨position, statements, rfl⟩⟩

theorem reopen_eq_some {h : H} (hlog : LogInv s (some c.lastOwnBlock) lost c)
    (hopen : Core.open cfg h c.log = some c') :
    ∃ t blockHandler, recoverHandler cfg h (RecoveredState.open c.log).state = some blockHandler ∧
      replayUnprocessed cfg (resumed cfg c blockHandler t)
        (RecoveredState.open c.log).unprocessedBlocks = some c' := by
  cases ht : ThresholdClockAggregator.addAll cfg.committee (.new 0)
      (includeRefs (RecoveredState.open c.log).pending) with
  | some t =>
    rw [open_eq_replay hlog h ht] at hopen
    obtain ⟨blockHandler, hrecover, hreplay⟩ := Option.bind_eq_some_iff.mp hopen
    exact ⟨t, blockHandler, hrecover, hreplay⟩
  | none =>
    have hrebuild : rebuildClock cfg
        (beforeGenesis cfg h c.log (RecoveredState.open c.log) c.lastOwnBlock) = none :=
      Option.bind_eq_none_iff.mpr fun t htime => absurd (ht.symm.trans htime) nofun
    unfold Core.open at hopen
    dsimp only at hopen
    rw [hlog.last] at hopen
    dsimp only at hopen
    rw [hrebuild] at hopen
    exact nomatch hopen

theorem recovered_table (log : Log) :
    (∀ b s, (RecoveredState.open log).signedBlocks.lookup b = some s → s.toStatementBlock = b) ∧
      ∀ b ∈ (RecoveredState.open log).blockStore.blocks,
        b ∈ (RecoveredState.open log).signedBlocks := by
  obtain ⟨entries, pos⟩ := log
  -- Induction over the entries from the first to the last: the two are filled together.
  induction entries using List.reverseRecOn with
  | nil => exact ⟨nofun, nofun⟩
  | append_singleton entries e ih =>
    obtain ⟨hkeyed, hstored⟩ := ih
    have hadd : ∀ block : SignedBlock,
        (∀ b s, ((RecoveredState.open ⟨entries, pos⟩).signedBlocks.insert
          block.toStatementBlock block).lookup b = some s → s.toStatementBlock = b) ∧
        ∀ b ∈ ((RecoveredState.open ⟨entries, pos⟩).blockStore.insertBlock
          block.toStatementBlock).blocks,
          b ∈ (RecoveredState.open ⟨entries, pos⟩).signedBlocks.insert block.toStatementBlock block := by
      intro block
      refine ⟨fun b s hs => ?_, fun b hb => Finmap.mem_insert.mpr ?_⟩
      · by_cases hb : b = block.toStatementBlock
        · subst hb
          rw [Finmap.lookup_insert] at hs
          cases hs
          rfl
        · rw [Finmap.lookup_insert_of_ne _ hb] at hs
          exact hkeyed b s hs
      · exact (BlockStore.eq_or_mem_of_mem_insertBlock hb).imp_right (hstored b)
    have hopen : RecoveredState.open ⟨entries ++ [e], pos⟩ =
        (RecoveredState.open ⟨entries, pos⟩).replay e := List.foldl_append
    rw [hopen]
    obtain ⟨position, entry⟩ := e
    cases entry with
    | block block => exact hadd block
    | payload => exact ⟨hkeyed, hstored⟩
    | ownBlock data => exact hadd data.block
    | state => exact ⟨hkeyed, hstored⟩
    | commit => exact ⟨hkeyed, hstored⟩

theorem TableInv.restart (c : Core H) (h : H) (t : ThresholdClockAggregator) :
    TableInv cfg (resumed cfg c h t) where
  keyed := (recovered_table c.log).1
  stored := (recovered_table c.log).2
  suspended _ := fun ⟨_, hb⟩ => nomatch hb

theorem LogInv.restart (hlog : LogInv s last lost c) (h : H) (t : ThresholdClockAggregator) :
    LogInv s last [] (resumed cfg c h t) := by
  have hsuffix : (RecoveredState.open c.log).pending.Sublist c.pending := by
    rw [hlog.pending]
    exact List.sublist_append_right _ _
  exact ⟨hlog.bounded, fun x hx => hlog.before x (hsuffix.subset hx), hlog.sorted.sublist hsuffix,
    hlog.store, fun _ _ => rfl, hlog.last, rfl, nofun, rfl⟩

/-- A core goes on where another one stopped, apart from what is pending. -/
structure Resumes (c c' : Core H) : Prop where
  stored : c'.blockStore = c.blockStore
  contents : ∀ r, c'.getBlock r = c.getBlock r
  last : c'.lastOwnBlock = c.lastOwnBlock
  leader : c'.lastCommitLeader = c.lastCommitLeader
  committed : c'.committedBlocks = c.committedBlocks
  round : c'.thresholdClock.round = c.thresholdClock.round

theorem resumes_resumed (hlog : LogInv c.blockStore (some c.lastOwnBlock) lost c) (h : H)
    (hround : t.round = c.thresholdClock.round)
    (hleader : c.lastCommitLeader = (lastAnchor c.log).getD .default) :
    Resumes c (resumed cfg c h t) where
  stored := hlog.store
  contents r := by
    change ((RecoveredState.open c.log).blockStore.getBlock r).bind _ = _
    rw [hlog.store, getBlock]
    cases hget : c.blockStore.getBlock r with
    | none => rfl
    | some b =>
      have hr := c.blockStore.keyed r b hget
      exact hlog.contents b (BlockStore.mem_blocks.mpr (hr ▸ hget))
  last := rfl
  leader := by
    rw [hleader, ← lastCommittedLeader_open]
    rfl
  committed := hlog.committed
  round := hround

theorem newBlock_congr (hround : c'.thresholdClock.round = c.thresholdClock.round)
    (hpending : c'.pending = c.pending) (hlast : c'.lastOwnBlock = c.lastOwnBlock)
    (hstore : c'.blockStore = c.blockStore) (hepoch : c'.epochChanging = c.epochChanging)
    (timeNs : Nat) : c'.newBlock cfg timeNs = c.newBlock cfg timeNs := by
  have htaken : c'.taken = c.taken := by
    unfold taken ThresholdClockAggregator.getRound
    rw [hround, hpending]
  unfold newBlock newIncludes newStatements referencesInBlock ThresholdClockAggregator.getRound
  rw [hround, htaken, hlast, hstore, hepoch]

/-- A restart is transparent once the node has proposed a block, if the last committed leader was
handed over and if the pending includes are enough to rebuild the clock. The next block is the one that
the node would have built from the same pending statements, as long as no epoch change has begun. -/
theorem restart_transparent {proposed : List SignedBlock} (hrun : Core.Run cfg env proposed c)
    (hproposed : c.lastProposed ≠ 0)
    (hleader : c.lastCommitLeader = (lastAnchor c.log).getD .default)
    (hclock : ClockPending cfg.committee c) (h : H) :
    (∃ t, (∀ blockHandler, Resumes c (resumed cfg c blockHandler t) ∧
        (resumed cfg c blockHandler t).pending = c.pending) ∧
      Core.open cfg h c.log =
        (recoverHandler cfg h (RecoveredState.open c.log).state).bind fun blockHandler =>
          replayUnprocessed cfg (resumed cfg c blockHandler t)
            (RecoveredState.open c.log).unprocessedBlocks) ∧
    ∀ c', Core.open cfg h c.log = some c' → Resumes c c' ∧
      (c'.pending = c.pending ∨
        ∃ position statements, c'.pending = c.pending ++ [(position, .payload statements)]) ∧
      (c.epochChanging = false → ∀ timeNs,
        c'.newBlock cfg timeNs = { c with pending := c'.pending }.newBlock cfg timeNs) := by
  obtain ⟨lost, hlog, hlost⟩ := logged_of_run hrun
  obtain ⟨t, ht, -, hround⟩ := (clockLog_of_run hrun).rebuild
  have hpending : (RecoveredState.open c.log).pending = c.pending := by
    rw [hlog.pending, hlost hproposed, List.nil_append]
  have hopen := open_eq_replay hlog h (hpending ▸ ht)
  have hresumes : ∀ blockHandler, Resumes c (resumed cfg c blockHandler t) :=
    fun blockHandler => resumes_resumed hlog blockHandler (hround hclock) hleader
  refine ⟨⟨t, fun blockHandler => ⟨hresumes blockHandler, hpending⟩, hopen⟩, fun c' hc' => ?_⟩
  rw [hopen] at hc'
  obtain ⟨blockHandler, -, hreplay⟩ := Option.bind_eq_some_iff.mp hc'
  obtain ⟨hfields, hpayload⟩ := replayUnprocessed_eq_some hreplay
  have hresumes' : Resumes c c' := by
    obtain ⟨hstored, hcontents, hlast, hleader, hcommitted, hround⟩ := hresumes blockHandler
    rw [hfields]
    exact ⟨hstored, hcontents, hlast, hleader, hcommitted, hround⟩
  have hepoch : c'.epochChanging = false := by
    rw [hfields]
    rfl
  change c'.pending = (RecoveredState.open c.log).pending ∨ ∃ position statements,
    c'.pending = (RecoveredState.open c.log).pending ++ [(position, .payload statements)] at hpayload
  rw [hpending] at hpayload
  refine ⟨hresumes', hpayload, fun hcalm timeNs => ?_⟩
  exact newBlock_congr (c := { c with pending := c'.pending }) hresumes'.round rfl hresumes'.last
    hresumes'.stored (hepoch.trans hcalm.symm) timeNs

/-- A restart right after genesis: the node was about to propose its first block, and it loses the
includes of the other genesis blocks and the round of its clock. -/
theorem genesis_restart_differs : ∃ c c',
    Core.Run fourNodes (fun _ _ => False) [] c ∧ Core.open fourNodes () c.log = some c' ∧
    c.thresholdClock.round = 1 ∧ (includeRefs c.pending).length = 3 ∧
    c'.thresholdClock.round = 0 ∧ includeRefs c'.pending = [] := by
  have hrestart : ((Core.open fourNodes () .empty).bind fun c =>
      (Core.open fourNodes () c.log).map fun c' =>
        (c.thresholdClock.round, (includeRefs c.pending).length, c'.thresholdClock.round,
          includeRefs c'.pending)) = some (1, 3, 0, []) := by
    decide +kernel
  obtain ⟨c, hopen, hrestart⟩ := Option.bind_eq_some_iff.mp hrestart
  obtain ⟨c', hopen', heq⟩ := Option.map_eq_some_iff.mp hrestart
  simp only [Prod.mk.injEq] at heq
  exact ⟨c, c', .open hopen, hopen', heq.1, heq.2.1, heq.2.2.1, heq.2.2.2⟩

def secondBlock : SignedBlock :=
  .newWithSigner fourNodes.crypto 1 1
    ((List.range 4).map fun a => (SignedBlock.newGenesis fourNodes.crypto a).reference) [] 0 false

/-- The first node has proposed a block and has got a block of the same round. -/
theorem restart_after_proposal : ∃ proposed c c',
    Core.Run fourNodes (fun _ _ => False) proposed c ∧ c.lastProposed ≠ 0 ∧
    ClockPending fourNodes.committee c ∧ Core.open fourNodes () c.log = some c' ∧ Resumes c c' := by
  have hacceptable : ∀ b ∈ [secondBlock], Acceptable fourNodes b :=
    List.forall_mem_singleton.mpr ⟨rfl, by decide⟩
  have hcalls : ((Core.open fourNodes () .empty).bind fun c₁ =>
      (c₁.tryNewBlock fourNodes 0).bind fun x =>
      (x.2.addBlocks fourNodes 2 [secondBlock]).bind fun y =>
      (Core.open fourNodes () y.1.log).map fun _ =>
        (y.1.lastProposed, y.1.thresholdClock.round, y.1.lastCommitLeader,
          lastAnchor y.1.log, (includeRefs y.1.pending).contains secondBlock.reference)) =
      some (1, 1, .default, none, true) := by
    decide +kernel
  obtain ⟨c₁, hopen, hcalls⟩ := Option.bind_eq_some_iff.mp hcalls
  obtain ⟨⟨block, c₂⟩, hnew, hcalls⟩ := Option.bind_eq_some_iff.mp hcalls
  obtain ⟨⟨c, processed⟩, hadd, hcalls⟩ := Option.bind_eq_some_iff.mp hcalls
  obtain ⟨c', hopen', heq⟩ := Option.map_eq_some_iff.mp hcalls
  simp only [Prod.mk.injEq] at heq
  obtain ⟨hlast, hround, hleader, hanchor, hpending⟩ := heq
  have hrun : Core.Run fourNodes (fun _ _ => False) _ c :=
    .step (.step (.open hopen) (.tryNewBlock hnew)) (.addBlocks hacceptable hadd)
  have hproposed : c.lastProposed ≠ 0 := hlast.symm ▸ Nat.one_ne_zero
  have hclock : ClockPending fourNodes.committee c :=
    .inl ⟨secondBlock.reference, List.contains_iff_mem.mp hpending, hround.symm⟩
  have hhanded : c.lastCommitLeader = (lastAnchor c.log).getD .default := by
    rw [hleader, hanchor]
    rfl
  exact ⟨_, c, c', hrun, hproposed, hclock, hopen',
    ((restart_transparent hrun hproposed hhanded hclock ()).2 c' hopen').1⟩

end Core

end CongestionControl.Mysticeti
