import CongestionControl.Mysticeti.Synchronizer
import CongestionControl.Mysticeti.Proofs.BlockStoreProofs

/-!
# Silent authorities stop the stream

The limit counts the rounds of the index and not the blocks of the authority. If it has no block in the
next rounds up to the limit, the batch is empty and the stream stays where it is.
-/

namespace CongestionControl.Mysticeti

theorem mem_take_iff_countP {l : List Nat} {n y : Nat} (h : l.Pairwise (· < ·)) :
    y ∈ l.take n ↔ y ∈ l ∧ l.countP (· < y) < n := by
  induction l generalizing n with
  | nil => simp
  | cons x l ih =>
    obtain ⟨hx, hl⟩ := List.pairwise_cons.mp h
    cases n with
    | zero => simp
    | succ n =>
      rw [List.take_succ_cons, List.mem_cons, List.mem_cons, ih hl, List.countP_cons]
      constructor
      · rintro (rfl | ⟨hy, hcount⟩)
        · have hnone : l.countP (· < y) = 0 :=
            List.countP_eq_zero.mpr fun z hz => by simpa using (hx z hz).le
          simp [hnone]
        · refine ⟨.inr hy, ?_⟩
          split_ifs <;> omega
      · rintro ⟨rfl | hy, hcount⟩
        · exact .inl rfl
        · simp only [hx y hy, decide_true, if_true] at hcount
          exact .inr ⟨hy, by omega⟩

namespace BlockStore

variable {s : BlockStore} {order : IterOrder BlockReference} {a : AuthorityIndex}
  {r x y : RoundNumber} {limit passes : Nat} {b : StatementBlock}

theorem round_mem_rounds (hb : b ∈ s.blocks) : b.round ∈ s.rounds := by
  rw [rounds, IterOrder.mem_toList, Finset.mem_image]
  exact ⟨b.reference, Finmap.mem_keys.mpr (mem_index_iff.mpr ⟨b, hb, rfl⟩), rfl⟩

theorem sorted_rounds : s.rounds.Pairwise (· < ·) := by
  have hle : s.rounds.Pairwise (· ≤ ·) := IterOrder.pairwise_sorted _
  have hne : s.rounds.Pairwise (· ≠ ·) := IterOrder.nodup_toList _ _
  exact (hle.and hne).imp fun h => lt_of_le_of_ne h.1 h.2

theorem mem_nextRounds : y ∈ s.nextRounds x limit ↔
    y ∈ s.rounds ∧ x < y ∧ s.rounds.countP (fun z => z < y && x < z) < limit := by
  rw [nextRounds, mem_take_iff_countP (sorted_rounds.filter _), List.mem_filter, List.countP_filter,
    decide_eq_true_iff, and_assoc]

/-- A later start reaches no less, and neither does an earlier round. -/
theorem mem_nextRounds_of_le {x' y' : RoundNumber} (h : y ∈ s.nextRounds x limit) (hx : x ≤ x')
    (hy : y' ≤ y) (hlt : x' < y') (hy' : y' ∈ s.rounds) : y' ∈ s.nextRounds x' limit := by
  rw [mem_nextRounds] at h ⊢
  refine ⟨hy', hlt, (List.countP_mono_left fun z _ hz => ?_).trans_lt h.2.2⟩
  simp only [Bool.and_eq_true, decide_eq_true_eq] at hz ⊢
  exact ⟨hz.1.trans_le hy, hx.trans_lt hz.2⟩

theorem mem_getOthersBlocks : b ∈ s.getOthersBlocks order x a limit ↔
    b ∈ s.blocks ∧ b.author = a ∧ b.round ∈ s.nextRounds x limit := by
  simp only [getOthersBlocks, List.mem_flatMap, mem_getBlocksAtAuthorityRound,
    StatementBlock.authorRound, Prod.mk.injEq]
  grind

theorem ascending_getOthersBlocks :
    (s.getOthersBlocks order x a limit).Pairwise fun b b' => b.round ≤ b'.round := by
  have hrounds : (s.nextRounds x limit).Pairwise (· < ·) := (sorted_rounds.filter _).take
  refine List.pairwise_flatMap.mpr ⟨fun y _ => ?_, hrounds.imp fun hlt b hb b' hb' => ?_⟩
  · refine List.pairwise_of_forall_mem_list fun b hb b' hb' => ?_
    rw [mem_getBlocksAtAuthorityRound] at hb hb'
    exact (congrArg Prod.snd (hb.2.trans hb'.2.symm)).le
  · rw [mem_getBlocksAtAuthorityRound] at hb hb'
    have hy : b.round = _ := congrArg Prod.snd hb.2
    have hy' : b'.round = _ := congrArg Prod.snd hb'.2
    exact hy ▸ hy' ▸ hlt.le

theorem complete_getOthersBlocks (hb : b ∈ s.getOthersBlocks order x a limit) {b' : StatementBlock}
    (hb' : b' ∈ s.othersAbove a x) (hle : b'.round ≤ b.round) :
    b' ∈ s.getOthersBlocks order x a limit := by
  rw [mem_getOthersBlocks] at hb ⊢
  exact ⟨hb'.1, hb'.2.1, mem_nextRounds_of_le hb.2.2 le_rfl hle hb'.2.2 (round_mem_rounds hb'.1)⟩

variable (s order x a limit) in
theorem resume_cases : (s.getOthersBlocks order x a limit = [] ∧
      ((s.getOthersBlocks order x a limit).getLast?.map StatementBlock.round).getD x = x) ∨
    ∃ last ∈ s.getOthersBlocks order x a limit,
      ((s.getOthersBlocks order x a limit).getLast?.map StatementBlock.round).getD x = last.round ∧
      ∀ b ∈ s.getOthersBlocks order x a limit, b.round ≤ last.round := by
  have hascending : (s.getOthersBlocks order x a limit).Pairwise fun b b' => b.round ≤ b'.round :=
    ascending_getOthersBlocks
  rcases List.eq_nil_or_concat' (s.getOthersBlocks order x a limit) with hnil | ⟨init, last, hlast⟩
  · exact .inl ⟨hnil, by rw [hnil]; rfl⟩
  · rw [hlast] at hascending ⊢
    refine .inr ⟨last, by simp, by simp, fun b hb => ?_⟩
    rcases List.mem_append.mp hb with hinit | hlast
    · exact (List.pairwise_append.mp hascending).2.2 b hinit last (List.mem_singleton_self last)
    · rw [List.mem_singleton.mp hlast]

/-- The stream does not get beyond a round after which the authority is silent for too long. -/
theorem stream_le (hsilent : ∀ b ∈ s.blocks, b.author = a → b.round ∉ s.nextRounds y limit)
    (hx : x ≤ y) (hb : b ∈ s.streamOthersBlocks order a limit passes x) : b.round ≤ y := by
  have hbatch : ∀ {x}, x ≤ y → ∀ b ∈ s.getOthersBlocks order x a limit, b.round ≤ y := by
    intro x hx b hb
    by_contra hlt
    rw [mem_getOthersBlocks] at hb
    exact hsilent b hb.1 hb.2.1
      (mem_nextRounds_of_le hb.2.2 hx le_rfl (not_le.mp hlt) (round_mem_rounds hb.1))
  induction passes generalizing x with
  | zero => exact absurd hb List.not_mem_nil
  | succ passes ih =>
    rcases List.mem_append.mp hb with hb | hb
    · exact hbatch hx b hb
    · refine ih ?_ hb
      rcases resume_cases s order a x limit with
        ⟨-, hsame⟩ | ⟨last, hlast, hround, -⟩
      · rwa [hsame]
      · rw [hround]
        exact hbatch hx last hlast

/-- Each pass that finds blocks goes on to a higher round. -/
theorem stream_reaches (hnever : ∀ y, x ≤ y → (s.othersAbove a y).Nonempty →
      ∃ b ∈ s.blocks, b.author = a ∧ b.round ∈ s.nextRounds y limit)
    (hpasses : s.highestRound ≤ x + passes) (hb : b ∈ s.othersAbove a x) :
    b ∈ s.streamOthersBlocks order a limit passes x := by
  induction passes generalizing x with
  | zero =>
    exact absurd ((round_le_highestRound hb.1).trans hpasses) (not_le.mpr hb.2.2)
  | succ passes ih =>
    obtain ⟨c, hc, hca, hround⟩ := hnever x le_rfl ⟨b, hb⟩
    have hbatch : c ∈ s.getOthersBlocks order x a limit :=
      mem_getOthersBlocks.mpr ⟨hc, hca, hround⟩
    rcases resume_cases s order a x limit with
      ⟨hnil, -⟩ | ⟨last, hlast, hnext, -⟩
    · rw [hnil] at hbatch
      exact absurd hbatch List.not_mem_nil
    · refine List.mem_append.mpr ?_
      by_cases hle : b.round ≤ last.round
      · exact .inl (complete_getOthersBlocks hlast hb hle)
      · have hlt : x < last.round := (mem_nextRounds.mp (mem_getOthersBlocks.mp hlast).2.2).2.1
        rw [hnext]
        refine .inr (ih (fun y hy => hnever y (hlt.le.trans hy)) ?_ ⟨hb.1, hb.2.1, not_le.mp hle⟩)
        exact hpasses.trans (by rw [← Nat.add_assoc, Nat.add_right_comm]; exact Nat.add_le_add_right hlt _)

theorem streams_iff (s : BlockStore) (order : IterOrder BlockReference) (a : AuthorityIndex)
    (r : RoundNumber) (limit : Nat) :
    s.Streams order a r limit ↔ ∀ y, r ≤ y → (s.othersAbove a y).Nonempty →
      ∃ b ∈ s.blocks, b.author = a ∧ b.round ∈ s.nextRounds y limit := by
  constructor
  · rintro h y hy ⟨b, hb⟩
    by_contra hsilent
    push Not at hsilent
    obtain ⟨passes, hall⟩ := h.reaches
    have hle := stream_le hsilent hy (hall b ⟨hb.1, hb.2.1, hy.trans_lt hb.2.2⟩)
    exact absurd hb.2.2 (not_lt.mpr hle)
  · intro hnever
    refine ⟨fun b hb => ?_, ascending_getOthersBlocks, fun b hb b' => complete_getOthersBlocks hb,
      fun hnil => ?_, s.highestRound, fun b => stream_reaches hnever (Nat.le_add_left _ _)⟩
    · rw [mem_getOthersBlocks] at hb
      exact ⟨hb.1, hb.2.1, (mem_nextRounds.mp hb.2.2).2.1⟩
    · by_contra hne
      obtain ⟨b, hb, hba, hround⟩ := hnever r le_rfl (Set.nonempty_iff_ne_empty.mpr hne)
      have hbatch : b ∈ s.getOthersBlocks order r a limit :=
        mem_getOthersBlocks.mpr ⟨hb, hba, hround⟩
      rw [hnil] at hbatch
      exact List.not_mem_nil hbatch

/-- Authority 0 has blocks in rounds 1 and 2, and authority 1 in round 3. -/
def lateBlock : BlockStore := .ofList [⟨⟨0, 1, 0⟩, []⟩, ⟨⟨0, 2, 0⟩, []⟩, ⟨⟨1, 3, 0⟩, []⟩]

theorem lateBlock_never_sent : ⟨⟨1, 3, 0⟩, []⟩ ∈ lateBlock.othersAbove 1 0 ∧
    lateBlock.getOthersBlocks .sorted 0 1 2 = [] ∧
    ∀ passes, lateBlock.streamOthersBlocks .sorted 1 2 passes 0 = [] := by
  have hnil : lateBlock.getOthersBlocks .sorted 0 1 2 = [] := by decide +kernel
  refine ⟨⟨(mem_blocks_ofList (by decide)).mpr (by simp), rfl, Nat.zero_lt_succ 2⟩, hnil,
    fun passes => ?_⟩
  induction passes with
  | zero => rfl
  | succ passes ih => rw [streamOthersBlocks, hnil]; exact ih

end BlockStore

end CongestionControl.Mysticeti
