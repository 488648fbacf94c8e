import CongestionControl.Mysticeti.BaseCommitter
import CongestionControl.Mysticeti.Proofs.BlockStoreProofs

/-!
# Votes persist

The search for the supported block ends, and its result is kept along the blocks of an author: the
search of a later block goes to the author's previous block first.
-/

namespace CongestionControl.Mysticeti

/-- The blocks of the author are made as `try_new_block` makes them: one for a round, with the
author's previous block as its first include. -/
structure OwnChain (s : Set StatementBlock) (a : AuthorityIndex) : Prop where
  oneBlock : ∀ b ∈ s, ∀ b' ∈ s, b.author = a → b'.author = a → b.round = b'.round → b = b'
  previous : ∀ b ∈ s, b.author = a → b.round ≠ 0 →
    ∃ p ∈ s, p.author = a ∧ p.round < b.round ∧ b.includes.head? = some p.reference ∧
      ∀ q ∈ s, q.author = a → q.round < b.round → q.round ≤ p.round

namespace BaseCommitter

variable {c : BaseCommitter} {target : AuthorityIndex × RoundNumber} {b p : StatementBlock}
  {fuel : Nat} {is : List BlockReference} {support : BlockReference}
  {search search' : StatementBlock → Option (Option BlockReference)}

theorem searchIncludes_mono {o : Option BlockReference}
    (hsearch : ∀ b o, search b = some o → search' b = some o)
    (h : c.searchIncludes target search is = some o) :
    c.searchIncludes target search' is = some o := by
  induction is with
  | nil => exact h
  | cons i is ih =>
    rw [searchIncludes] at h ⊢
    split_ifs at h ⊢ with hlow hslot
    · exact ih h
    · exact h
    · obtain ⟨b, hget, h⟩ := Option.bind_eq_some_iff.mp h
      obtain ⟨found, hfound, h⟩ := Option.bind_eq_some_iff.mp h
      refine Option.bind_eq_some_iff.mpr ⟨b, hget, Option.bind_eq_some_iff.mpr ⟨found, ?_, ?_⟩⟩
      · exact hsearch b found hfound
      · split_ifs at h ⊢
        · exact h
        · exact ih h

theorem findSupport_mono {fuel' : Nat} {o : Option BlockReference} (hle : fuel ≤ fuel')
    (h : c.findSupport target fuel b = some o) : c.findSupport target fuel' b = some o := by
  induction fuel generalizing fuel' b o with
  | zero => cases h
  | succ fuel ih =>
    obtain ⟨fuel', rfl⟩ : ∃ k, fuel' = k + 1 := ⟨fuel' - 1, by omega⟩
    rw [findSupport] at h ⊢
    split_ifs at h ⊢
    · exact h
    · exact searchIncludes_mono (fun b o hb => ih (Nat.le_of_succ_le_succ hle) hb) h

theorem exists_searchIncludes (h : ∀ i ∈ is, ∃ b o, c.blockStore.getBlock i = some b ∧
    search b = some o) : ∃ o, c.searchIncludes target search is = some o := by
  induction is with
  | nil => exact ⟨none, rfl⟩
  | cons i is ih =>
    obtain ⟨o, hrest⟩ := ih fun j hj => h j (List.mem_cons_of_mem i hj)
    obtain ⟨b, found, hget, hfound⟩ := h i List.mem_cons_self
    rw [searchIncludes]
    split_ifs with hlow hslot
    · exact ⟨o, hrest⟩
    · exact ⟨some i, rfl⟩
    · rw [hget]
      refine ⟨if found.isSome then found else o, ?_⟩
      simp only [Option.bind_eq_bind, Option.bind_some, hfound]
      split_ifs
      · rfl
      · exact hrest

/-- The search goes to lower rounds, so the round of the block is fuel enough. -/
theorem exists_findSupport (hclosed : Closed c.blockStore.blocks)
    (hlower : ∀ b ∈ c.blockStore.blocks, ∀ i ∈ b.includes, i.round < b.round)
    (hb : b ∈ c.blockStore.blocks) (hfuel : b.round < fuel) :
    ∃ o, c.findSupport target fuel b = some o := by
  induction fuel generalizing b with
  | zero => exact absurd hfuel (Nat.not_lt_zero _)
  | succ fuel ih =>
    rw [findSupport]
    split_ifs
    · exact ⟨none, rfl⟩
    · refine exists_searchIncludes fun i hi => ?_
      obtain ⟨p, hp, rfl⟩ := hclosed b hb i hi
      have hlt : p.round < fuel := (hlower b hb _ hi).trans_le (Nat.le_of_lt_succ hfuel)
      obtain ⟨o, ho⟩ := ih hp hlt
      exact ⟨p, o, BlockStore.getBlock_eq_some_iff.mpr ⟨hp, rfl⟩, ho⟩

/-- What is found is found through an include that is not below the round of the slot. -/
theorem exists_include_of_searchIncludes
    (h : c.searchIncludes target search is = some (some support)) :
    ∃ i ∈ is, target.2 ≤ i.round := by
  induction is with
  | nil => cases h
  | cons i is ih =>
    rw [searchIncludes] at h
    by_cases hlow : i.round < target.2
    · rw [if_pos hlow] at h
      obtain ⟨j, hj, hle⟩ := ih h
      exact ⟨j, List.mem_cons_of_mem i hj, hle⟩
    · exact ⟨i, List.mem_cons_self, Nat.not_lt.mp hlow⟩

theorem round_lt_of_findSupport (hlower : ∀ i ∈ b.includes, i.round < b.round)
    (h : c.findSupport target fuel b = some (some support)) : target.2 < b.round := by
  cases fuel with
  | zero => cases h
  | succ fuel =>
    rw [findSupport] at h
    split_ifs at h with hlow
    · cases h
    · obtain ⟨i, hi, hle⟩ := exists_include_of_searchIncludes h
      exact hle.trans_lt (hlower i hi)

theorem findSupport_of_first (hp : p ∈ c.blockStore.blocks)
    (hlower : ∀ i ∈ p.includes, i.round < p.round) (hlt : p.round < b.round)
    (hfirst : b.includes.head? = some p.reference)
    (h : c.findSupport target (p.round + 1) p = some (some support)) :
    c.findSupport target (b.round + 1) b = some (some support) := by
  have hround : target.2 < p.round := round_lt_of_findSupport hlower h
  have hslot : ¬ (p.reference.authority, p.reference.round) = target := by
    intro hslot
    exact hround.ne (congrArg Prod.snd hslot).symm
  obtain ⟨is, hincludes⟩ := List.head?_eq_some_iff.mp hfirst
  have hget : c.blockStore.getBlock p.reference = some p :=
    BlockStore.getBlock_eq_some_iff.mpr ⟨hp, rfl⟩
  have hnotLow : ¬ b.round < target.2 := Nat.not_lt.mpr (hround.trans hlt).le
  have hnotLow' : ¬ p.reference.round < target.2 := Nat.not_lt.mpr hround.le
  rw [findSupport, if_neg hnotLow, hincludes, searchIncludes, if_neg hnotLow', if_neg hslot, hget]
  simp only [Option.bind_eq_bind, Option.bind_some, findSupport_mono hlt h]
  rfl

/-- In a closed store whose blocks include blocks of lower rounds, the search ends for every block,
and what a block of an author supports at a slot is supported by all later blocks of the author. -/
theorem findSupport_persists (hclosed : Closed c.blockStore.blocks)
    (hlower : ∀ b ∈ c.blockStore.blocks, ∀ i ∈ b.includes, i.round < b.round)
    (target : AuthorityIndex × RoundNumber) :
    (∀ b ∈ c.blockStore.blocks, ∃ o, c.findSupport target (b.round + 1) b = some o) ∧
      ∀ a, OwnChain c.blockStore.blocks a → ∀ b ∈ c.blockStore.blocks, b.author = a →
        ∀ support, c.findSupport target (b.round + 1) b = some (some support) →
          ∀ b' ∈ c.blockStore.blocks, b'.author = a → b.round < b'.round →
            c.findSupport target (b'.round + 1) b' = some (some support) := by
  refine ⟨fun b hb => exists_findSupport hclosed hlower hb (Nat.lt_succ_self _), ?_⟩
  intro a hchain b hb hba support h
  -- Induction on the round of the later block: its previous block is the given one or later.
  have hrounds : ∀ n, ∀ b' ∈ c.blockStore.blocks, b'.round = n → b'.author = a →
      b.round < b'.round → c.findSupport target (b'.round + 1) b' = some (some support) := by
    intro n
    induction n using Nat.strongRecOn with
    | ind n ih =>
      intro b' hb' hn hb'a hlt
      obtain ⟨p, hp, hpa, hplt, hfirst, hmax⟩ := hchain.previous b' hb' hb'a (Nat.ne_zero_of_lt hlt)
      refine findSupport_of_first hp (hlower p hp) hplt hfirst ?_
      rcases Nat.eq_or_lt_of_le (hmax b hb hba hlt) with heq | hlt'
      · rwa [← hchain.oneBlock b hb p hp hba hpa heq]
      · exact ih p.round (hplt.trans_eq hn) p hp rfl hpa hlt'
  exact fun b' hb' hb'a hlt => hrounds b'.round b' hb' rfl hb'a hlt

/-- Authority 0 builds on two blocks of authority 1 at round 0: its block of round 1 includes the
first, that of round 2 also includes the second. -/
def equivocatedSlot : List StatementBlock :=
  [⟨⟨0, 0, 0⟩, []⟩, ⟨⟨1, 0, 0⟩, []⟩, ⟨⟨1, 0, 1⟩, []⟩, ⟨⟨0, 1, 0⟩, [⟨0, 0, 0⟩, ⟨1, 0, 0⟩]⟩,
    ⟨⟨0, 2, 0⟩, [⟨0, 1, 0⟩, ⟨1, 0, 1⟩]⟩]

theorem equivocatedSlot_persists : ∃ c : BaseCommitter, c.blockStore = .ofList equivocatedSlot ∧
    c.findSupport (1, 0) 3 ⟨⟨0, 2, 0⟩, [⟨0, 1, 0⟩, ⟨1, 0, 1⟩]⟩ = some (some ⟨1, 0, 0⟩) := by
  have hmem {b : StatementBlock} : b ∈ (BlockStore.ofList equivocatedSlot).blocks ↔
      b ∈ equivocatedSlot := BlockStore.mem_blocks_ofList (by decide)
  have hclosed : Closed (BlockStore.ofList equivocatedSlot).blocks := by
    intro b hb i hi
    obtain ⟨p, hp, hpi⟩ := (by decide : ∀ b ∈ equivocatedSlot, ∀ i ∈ b.includes,
      ∃ p ∈ equivocatedSlot, p.reference = i) b (hmem.mp hb) i hi
    exact ⟨p, hmem.mpr hp, hpi⟩
  have hlower : ∀ b ∈ (BlockStore.ofList equivocatedSlot).blocks, ∀ i ∈ b.includes,
      i.round < b.round := by
    intro b hb
    exact (by decide : ∀ b ∈ equivocatedSlot, ∀ i ∈ b.includes, i.round < b.round) b (hmem.mp hb)
  have hchain : OwnChain (BlockStore.ofList equivocatedSlot).blocks 0 := by
    refine ⟨fun b hb b' hb' => ?_, fun b hb hba hround => ?_⟩
    · exact (by decide : ∀ b ∈ equivocatedSlot, ∀ b' ∈ equivocatedSlot, b.author = 0 →
        b'.author = 0 → b.round = b'.round → b = b') b (hmem.mp hb) b' (hmem.mp hb')
    · obtain ⟨p, hp, hpa, hlt, hfirst, hmax⟩ := (by decide : ∀ b ∈ equivocatedSlot, b.author = 0 →
        b.round ≠ 0 → ∃ p ∈ equivocatedSlot, p.author = 0 ∧ p.round < b.round ∧
          b.includes.head? = some p.reference ∧ ∀ q ∈ equivocatedSlot, q.author = 0 →
            q.round < b.round → q.round ≤ p.round) b (hmem.mp hb) hba hround
      exact ⟨p, hmem.mpr hp, hpa, hlt, hfirst, fun q hq => hmax q (hmem.mp hq)⟩
  refine ⟨⟨.fourEqual, .ofList equivocatedSlot, .sorted, ⟨3, 0, 0, Nat.le_refl _⟩⟩, rfl, ?_⟩
  have hfirst := (findSupport_persists
    (c := ⟨.fourEqual, .ofList equivocatedSlot, .sorted, ⟨3, 0, 0, Nat.le_refl _⟩⟩)
    hclosed hlower (1, 0)).2 0 hchain ⟨⟨0, 1, 0⟩, [⟨0, 0, 0⟩, ⟨1, 0, 0⟩]⟩ (hmem.mpr (by decide)) rfl
    ⟨1, 0, 0⟩ (by decide)
  exact hfirst ⟨⟨0, 2, 0⟩, [⟨0, 1, 0⟩, ⟨1, 0, 1⟩]⟩ (hmem.mpr (by decide)) rfl (by decide)

end BaseCommitter

end CongestionControl.Mysticeti
