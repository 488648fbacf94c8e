import CongestionControl.Mysticeti.BlockStore
import Mathlib.Logic.Relation
import Mathlib.Order.Bounds.Basic
import Mathlib.Data.Set.Lattice

/-!
# DAGs of blocks

A DAG is a set of blocks in which a reference names one block and a block includes only blocks of
lower rounds. A part of it is causally closed if it has all the blocks that its blocks include.
-/

namespace CongestionControl.Mysticeti

def Closed (s : Set StatementBlock) : Prop :=
  ∀ b ∈ s, ∀ i ∈ b.includes, ∃ b' ∈ s, b'.reference = i

/-- A chain of includes leads from a block to one of the part. -/
def Ancestor (s : Set StatementBlock) (b c : StatementBlock) : Prop :=
  Relation.ReflTransGen (fun x y => y ∈ s ∧ y.reference ∈ x.includes) b c

structure Dag where
  blocks : Set StatementBlock
  unique : ∀ b ∈ blocks, ∀ b' ∈ blocks, b.reference = b'.reference → b = b'
  lower : ∀ b ∈ blocks, ∀ i ∈ b.includes, i.round < b.round

def Dag.ofList (l : List StatementBlock)
    (unique : ∀ b ∈ l, ∀ b' ∈ l, b.reference = b'.reference → b = b')
    (lower : ∀ b ∈ l, ∀ i ∈ b.includes, i.round < b.round) : Dag :=
  ⟨{b | b ∈ l}, unique, lower⟩

def BlockStore.blocks (s : BlockStore) : Set StatementBlock :=
  {b | s.index.lookup b.reference = some b}

namespace BlockStore

variable {s : BlockStore} {b : StatementBlock} {r : BlockReference} {b' : StatementBlock}

theorem mem_blocks : b ∈ s.blocks ↔ s.index.lookup b.reference = some b := Iff.rfl

theorem eq_of_reference (hb : b ∈ s.blocks) (hb' : b' ∈ s.blocks)
    (h : b.reference = b'.reference) : b = b' := by
  rw [mem_blocks] at hb hb'
  exact Option.some.inj (hb.symm.trans (h ▸ hb'))

theorem blockExists_iff : s.blockExists r = true ↔ r ∈ s.index := decide_eq_true_iff

theorem mem_index_iff : r ∈ s.index ↔ ∃ b ∈ s.blocks, b.reference = r := by
  rw [Finmap.mem_iff]
  constructor
  · rintro ⟨b, hb⟩
    have hr := s.keyed r b hb
    exact ⟨b, by rw [mem_blocks, hr, hb], hr⟩
  · rintro ⟨b, hb, rfl⟩
    exact ⟨b, hb⟩

theorem round_le_highestRound (hb : b ∈ s.blocks) : b.round ≤ s.highestRound :=
  Finset.le_sup (f := BlockReference.round) (Finmap.mem_keys.mpr (mem_index_iff.mpr ⟨b, hb, rfl⟩))

theorem mem_blocks_insertBlock (hb : b.reference ∉ s.index) :
    b' ∈ (s.insertBlock b).blocks ↔ b' = b ∨ b' ∈ s.blocks := by
  unfold insertBlock
  rw [mem_blocks, mem_blocks]
  dsimp only
  by_cases hr : b'.reference = b.reference
  · rw [hr, Finmap.lookup_insert]
    constructor
    · exact fun h => .inl (Option.some.inj h).symm
    · rintro (rfl | h)
      · rfl
      · exact absurd (Finmap.mem_iff.mpr ⟨_, h⟩) hb
  · rw [Finmap.lookup_insert_of_ne _ hr]
    exact (or_iff_right fun h => hr (congrArg _ h)).symm

theorem eq_or_mem_of_mem_insertBlock (h : b' ∈ (s.insertBlock b).blocks) :
    b' = b ∨ b' ∈ s.blocks := by
  change (s.index.insert b.reference b).lookup b'.reference = some b' at h
  by_cases hr : b'.reference = b.reference
  · rw [hr, Finmap.lookup_insert] at h
    exact .inl (Option.some.inj h).symm
  · rw [Finmap.lookup_insert_of_ne _ hr] at h
    exact .inr h

theorem blocks_insertBlock (hb : b.reference ∉ s.index) :
    (s.insertBlock b).blocks = insert b s.blocks :=
  Set.ext fun _ => mem_blocks_insertBlock hb

def ofList (l : List StatementBlock) : BlockStore := l.foldr (fun b s => s.insertBlock b) empty

theorem mem_blocks_ofList {l : List StatementBlock}
    (h : ∀ b ∈ l, ∀ b' ∈ l, b.reference = b'.reference → b = b') : b ∈ (ofList l).blocks ↔ b ∈ l := by
  induction l with
  | nil => exact iff_of_false nofun List.not_mem_nil
  | cons c l ih =>
    have ih := ih fun b hb b' hb' => h b (List.mem_cons_of_mem c hb) b' (List.mem_cons_of_mem c hb')
    change b ∈ ((ofList l).insertBlock c).blocks ↔ _
    rw [List.mem_cons]
    by_cases hr : b.reference = c.reference
    · rw [mem_blocks, insertBlock, hr, Finmap.lookup_insert, Option.some.injEq]
      constructor
      · exact fun hb => .inl hb.symm
      · rintro (rfl | hb)
        · rfl
        · exact (h b (List.mem_cons_of_mem c hb) c List.mem_cons_self hr).symm
    · rw [mem_blocks, insertBlock, Finmap.lookup_insert_of_ne _ hr, ← mem_blocks, ih]
      exact (or_iff_right fun hb => hr (congrArg _ hb)).symm

theorem mem_index_insertBlock : r ∈ (s.insertBlock b).index ↔ r = b.reference ∨ r ∈ s.index :=
  Finmap.mem_insert

end BlockStore

namespace Dag

variable {dag : Dag} {b c : StatementBlock}

def Includes (dag : Dag) (b c : StatementBlock) : Prop := c ∈ dag.blocks ∧ c.reference ∈ b.includes

def history (dag : Dag) (b : StatementBlock) : Set StatementBlock :=
  {c | Relation.ReflTransGen dag.Includes b c}

theorem self_mem_history (b : StatementBlock) : b ∈ dag.history b := .refl

theorem mem_blocks_of_mem_history (hb : b ∈ dag.blocks) (h : c ∈ dag.history b) :
    c ∈ dag.blocks := by
  rcases h.cases_tail with rfl | ⟨_, -, hc⟩
  · exact hb
  · exact hc.1

theorem closed_history (hclosed : Closed dag.blocks) (hb : b ∈ dag.blocks) :
    Closed (dag.history b) := by
  intro c hc i hi
  obtain ⟨d, hd, rfl⟩ := hclosed c (mem_blocks_of_mem_history hb hc) i hi
  exact ⟨d, hc.tail ⟨hd, hi⟩, rfl⟩

theorem eq_or_round_lt_of_mem_history (hb : b ∈ dag.blocks) (h : c ∈ dag.history b) :
    c = b ∨ c.round < b.round := by
  induction h with
  | refl => exact .inl rfl
  | tail hc hd ih =>
    have hlt := dag.lower _ (mem_blocks_of_mem_history hb hc) _ hd.2
    rcases ih with rfl | ih
    · exact .inr hlt
    · exact .inr (Nat.lt_trans hlt ih)

end Dag

end CongestionControl.Mysticeti
