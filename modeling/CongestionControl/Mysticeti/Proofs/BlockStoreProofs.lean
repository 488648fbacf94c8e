import CongestionControl.Mysticeti.Dag
import CongestionControl.Mysticeti.Proofs.CommitteeProofs

/-!
# Reading the block store

What the queries of the store return, and which blocks `linked` finds: those that a chain of includes
leads to that goes down by one round at a time. A chain of includes may also skip rounds, so these are
not all ancestors.
-/

namespace CongestionControl.Mysticeti

namespace BlockStore

variable {s : BlockStore} {order : IterOrder BlockReference} {b : StatementBlock} {r : RoundNumber}

theorem getBlock_eq_some_iff {i : BlockReference} :
    s.getBlock i = some b ↔ b ∈ s.blocks ∧ b.reference = i := by
  rw [mem_blocks]
  constructor
  · intro h
    have hr := s.keyed i b h
    exact ⟨hr ▸ h, hr⟩
  · rintro ⟨h, rfl⟩
    exact h

@[simp] theorem mem_getBlocksByRound :
    b ∈ s.getBlocksByRound order r ↔ b ∈ s.blocks ∧ b.round = r := by
  simp only [getBlocksByRound, List.mem_filterMap, IterOrder.mem_toList, Finset.mem_filter,
    Finmap.mem_keys, getBlock_eq_some_iff]
  constructor
  · rintro ⟨i, ⟨-, hr⟩, hb, rfl⟩
    exact ⟨hb, hr⟩
  · rintro ⟨hb, hr⟩
    exact ⟨b.reference, ⟨mem_index_iff.mpr ⟨b, hb, rfl⟩, hr⟩, hb, rfl⟩

theorem nodup_getBlocksByRound : (s.getBlocksByRound order r).Nodup := by
  refine (order.nodup_toList _).filterMap fun i i' b hb hb' => ?_
  rw [Option.mem_def, getBlock_eq_some_iff] at hb hb'
  exact hb.2.symm.trans hb'.2

theorem mem_getBlocksAtAuthorityRound {a : AuthorityIndex} :
    b ∈ s.getBlocksAtAuthorityRound order a r ↔ b ∈ s.blocks ∧ b.authorRound = (a, r) := by
  rw [getBlocksAtAuthorityRound, List.mem_filter, mem_getBlocksByRound, decide_eq_true_iff,
    StatementBlock.authorRound, Prod.mk.injEq, and_assoc, and_comm (a := b.round = r)]

theorem nodup_getBlocksAtAuthorityRound {a : AuthorityIndex} :
    (s.getBlocksAtAuthorityRound order a r).Nodup := nodup_getBlocksByRound.filter _

def OneDown (s : Set StatementBlock) (x y : StatementBlock) : Prop :=
  y ∈ s ∧ y.reference ∈ x.includes ∧ x.round = y.round + 1

variable {x y : StatementBlock}

theorem eq_or_round_lt_of_oneDown {blocks : Set StatementBlock}
    (h : Relation.ReflTransGen (OneDown blocks) x y) : y = x ∨ y.round < x.round := by
  induction h with
  | refl => exact .inl rfl
  | tail _ hlink ih =>
    have hlt := Nat.lt_of_succ_le (Nat.le_of_eq hlink.2.2.symm)
    rcases ih with rfl | ih
    · exact .inr hlt
    · exact .inr (Nat.lt_trans hlt ih)

theorem mem_linkedByRound {n : Nat} (hn : r + n = x.round) :
    y ∈ (List.range' r n).reverse.foldl (s.includedByRound order) [x] ↔
      y.round = r ∧ Relation.ReflTransGen (OneDown s.blocks) x y := by
  induction n generalizing r y with
  | zero =>
    have hr : r = x.round := hn
    constructor
    · intro h
      obtain rfl := List.mem_singleton.mp h
      exact ⟨hr.symm, .refl⟩
    · rintro ⟨hy, hpath⟩
      rcases eq_or_round_lt_of_oneDown hpath with rfl | hlt
      · exact List.mem_singleton_self _
      · exact absurd hlt (by rw [hy, hr]; exact Nat.lt_irrefl _)
  | succ n ih =>
    have hn' : r + 1 + n = x.round := by rw [← hn, Nat.add_assoc, Nat.add_comm 1 n]
    rw [List.range'_succ, List.reverse_cons, List.foldl_append]
    simp only [List.foldl_cons, List.foldl_nil, includedByRound, List.mem_filter,
      mem_getBlocksByRound, List.any_eq_true, ih hn', List.contains_iff_mem]
    constructor
    · rintro ⟨⟨hy, hyr⟩, z, ⟨hzr, hpath⟩, hinc⟩
      refine ⟨hyr, hpath.tail ⟨hy, hinc, ?_⟩⟩
      rw [hzr, hyr]
    · rintro ⟨hyr, hpath⟩
      rcases hpath.cases_tail with rfl | ⟨z, hz, hlink⟩
      · exact absurd (hyr.symm.trans hn.symm) (by simp)
      · exact ⟨⟨hlink.1, hyr⟩, z, ⟨hlink.2.2.trans (congrArg (· + 1) hyr), hz⟩, hlink.2.1⟩

theorem linked_iff_oneDown :
    s.linked order x y = true ↔ Relation.ReflTransGen (OneDown s.blocks) x y := by
  unfold linked
  rw [List.contains_iff_mem]
  by_cases hle : y.round ≤ x.round
  · rw [mem_linkedByRound (Nat.add_sub_cancel' hle)]
    exact and_iff_right rfl
  · rw [Nat.sub_eq_zero_of_le (Nat.le_of_not_le hle)]
    refine iff_of_false (fun h => ?_) fun h => ?_
    · exact hle (List.mem_singleton.mp h ▸ Nat.le_refl _)
    · rcases eq_or_round_lt_of_oneDown h with rfl | hlt
      · exact hle (Nat.le_refl _)
      · exact hle (Nat.le_of_lt hlt)

theorem ancestor_of_oneDown {blocks : Set StatementBlock}
    (h : Relation.ReflTransGen (OneDown blocks) x y) : Ancestor blocks x y :=
  Relation.ReflTransGen.mono (fun _ _ hlink => ⟨hlink.1, hlink.2.1⟩) _ _ h

theorem oneDown_of_ancestor
    (hincludes : ∀ x ∈ s.blocks, ∀ y ∈ s.blocks, y.reference ∈ x.includes →
      Relation.ReflTransGen (OneDown s.blocks) x y)
    (hx : x ∈ s.blocks) (h : Ancestor s.blocks x y) :
    y ∈ s.blocks ∧ Relation.ReflTransGen (OneDown s.blocks) x y := by
  induction h with
  | refl => exact ⟨hx, .refl⟩
  | tail _ hinclude ih => exact ⟨hinclude.1, ih.2.trans (hincludes _ ih.1 _ hinclude.1 hinclude.2)⟩

/-- `linked` decides for all blocks of a store whether one is the other or an ancestor of it if and
only if each block that a block includes is also reached from it by includes that go down one round at
a time. -/
theorem linked_decides_ancestry_iff (s : BlockStore) (order : IterOrder BlockReference) :
    (∀ x ∈ s.blocks, ∀ y ∈ s.blocks, s.linked order x y = true ↔ Ancestor s.blocks x y) ↔
      ∀ x ∈ s.blocks, ∀ y ∈ s.blocks, y.reference ∈ x.includes →
        Relation.ReflTransGen (OneDown s.blocks) x y := by
  constructor
  · intro h x hx y hy hinclude
    have hancestor : Ancestor s.blocks x y := .single ⟨hy, hinclude⟩
    exact linked_iff_oneDown.mp ((h x hx y hy).mpr hancestor)
  · intro hincludes x hx y _
    rw [linked_iff_oneDown]
    exact ⟨ancestor_of_oneDown, fun h => (oneDown_of_ancestor hincludes hx h).2⟩

/-- Four genesis blocks, four blocks of round 1, three of round 2 that include the first three of
round 1, and one of round 3 that includes these and also the fourth of round 1. -/
def weaklyLinked : List StatementBlock :=
  (List.range 4).map .newGenesis ++
    (List.range 4).map (fun a => ⟨⟨a, 1, 0⟩, [⟨0, 0, 0⟩, ⟨1, 0, 0⟩, ⟨2, 0, 0⟩]⟩) ++
    (List.range 3).map (fun a => ⟨⟨a, 2, 0⟩, [⟨0, 1, 0⟩, ⟨1, 1, 0⟩, ⟨2, 1, 0⟩]⟩) ++
    [⟨⟨0, 3, 0⟩, [⟨0, 2, 0⟩, ⟨1, 2, 0⟩, ⟨2, 2, 0⟩, ⟨3, 1, 0⟩]⟩]

/-- `linked` does not find a block that is included two rounds later. -/
theorem weakLink_not_linked : ∃ (s : BlockStore) (x y : StatementBlock), Closed s.blocks ∧
    (∀ b ∈ s.blocks, (∃ a, Committee.fourEqual.knownAuthority a = true ∧ b = .newGenesis a) ∨
      b.verify .fourEqual = .ok ()) ∧
    x ∈ s.blocks ∧ y ∈ s.blocks ∧ Ancestor s.blocks x y ∧
    ∀ order, s.linked order x y = false := by
  have hmem {b : StatementBlock} : b ∈ (ofList weaklyLinked).blocks ↔ b ∈ weaklyLinked :=
    mem_blocks_ofList (by decide)
  refine ⟨.ofList weaklyLinked, ⟨⟨0, 3, 0⟩, [⟨0, 2, 0⟩, ⟨1, 2, 0⟩, ⟨2, 2, 0⟩, ⟨3, 1, 0⟩]⟩,
    ⟨⟨3, 1, 0⟩, [⟨0, 0, 0⟩, ⟨1, 0, 0⟩, ⟨2, 0, 0⟩]⟩, ?_, ?_, ?_, ?_, .single ⟨?_, ?_⟩, fun order => ?_⟩
  · intro b hb i hi
    obtain ⟨c, hc, hci⟩ := (by decide : ∀ b ∈ weaklyLinked, ∀ i ∈ b.includes,
      ∃ c ∈ weaklyLinked, c.reference = i) b (hmem.mp hb) i hi
    exact ⟨c, hmem.mpr hc, hci⟩
  · intro b hb
    rcases (by decide : ∀ b ∈ weaklyLinked, (∃ a ∈ List.range 4, b = .newGenesis a) ∨
      b.verify .fourEqual = .ok ()) b (hmem.mp hb) with ⟨a, ha, hgenesis⟩ | hverify
    · exact .inl ⟨a, decide_eq_true (List.mem_range.mp ha), hgenesis⟩
    · exact .inr hverify
  · exact hmem.mpr (by decide)
  · exact hmem.mpr (by decide)
  · exact hmem.mpr (by decide)
  · decide
  · have hsorted : ¬ (ofList weaklyLinked).linked .sorted
        ⟨⟨0, 3, 0⟩, [⟨0, 2, 0⟩, ⟨1, 2, 0⟩, ⟨2, 2, 0⟩, ⟨3, 1, 0⟩]⟩
        ⟨⟨3, 1, 0⟩, [⟨0, 0, 0⟩, ⟨1, 0, 0⟩, ⟨2, 0, 0⟩]⟩ = true := by decide
    exact Bool.eq_false_iff.mpr fun h => hsorted (linked_iff_oneDown.mpr (linked_iff_oneDown.mp h))

end BlockStore

end CongestionControl.Mysticeti
