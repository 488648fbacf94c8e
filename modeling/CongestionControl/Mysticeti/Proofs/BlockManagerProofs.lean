import CongestionControl.Lib.Transition
import CongestionControl.Mysticeti.BlockManager
import CongestionControl.Mysticeti.Dag

/-!
# Blocks may arrive in any order

`Inv` says what the tables of the manager hold between two passes of the loop, when the queue starts
with blocks that have just been unblocked.
-/

namespace CongestionControl.Mysticeti

namespace BlockManager

/-! ## The tables -/

def waits (m : BlockManager) (i : BlockReference) : Finset BlockReference :=
  (m.blockReferencesWaiting.lookup i).getD ∅

def missingOf (m : BlockManager) (a : AuthorityIndex) : Finset BlockReference :=
  m.missing.getD a ∅

variable {m m' m₁ m₂ : BlockManager} {i ref w : BlockReference} {l ws : List BlockReference}
  {s : BlockStore} {b : StatementBlock} {order : IterOrder BlockReference}

theorem modifyMissing_eq {authority : AuthorityIndex} (h : authority < m.missing.length)
    (f : Finset BlockReference → Finset BlockReference) :
    ∃ m', m.modifyMissing authority f = some m' ∧ m'.blocksPending = m.blocksPending ∧
      m'.blockReferencesWaiting = m.blockReferencesWaiting ∧ m'.blockStore = m.blockStore ∧
      m'.missing.length = m.missing.length ∧
      ∀ a, m'.missingOf a = if a = authority then f (m.missingOf a) else m.missingOf a := by
  refine ⟨_, if_pos h, rfl, rfl, rfl, by simp, fun a => ?_⟩
  unfold missingOf
  by_cases ha : a = authority
  · subst ha
    simp [h]
  · simp [ha, Ne.symm ha]

theorem noteMissing_eq (h : i.authority < m.missing.length) :
    ∃ m', m.noteMissing i = some m' ∧ m'.blocksPending = m.blocksPending ∧
      m'.blockReferencesWaiting = m.blockReferencesWaiting ∧ m'.blockStore = m.blockStore ∧
      m'.missing.length = m.missing.length ∧
      ∀ a r, r ∈ m'.missingOf a ↔
        r ∈ m.missingOf a ∨ r = i ∧ r.authority = a ∧ r ∉ m.blocksPending := by
  unfold noteMissing
  by_cases hp : i ∈ m.blocksPending
  · rw [if_pos hp]
    refine ⟨m, rfl, rfl, rfl, rfl, rfl, fun a r => (or_iff_left ?_).symm⟩
    rintro ⟨rfl, -, hnot⟩
    exact hnot hp
  · rw [if_neg hp]
    obtain ⟨m', hm', hp', hw', hs', hl', hmod⟩ := modifyMissing_eq h (insert i)
    refine ⟨m', hm', hp', hw', hs', hl', fun a r => ?_⟩
    rw [hmod]
    split_ifs with ha
    · rw [Finset.mem_insert, or_comm]
      exact or_congr_right ⟨fun hr => ⟨hr, by rw [hr, ha], hr ▸ hp⟩, fun hr => hr.1⟩
    · refine (or_iff_left ?_).symm
      rintro ⟨rfl, rfl, -⟩
      exact ha rfl

/-- What the loop over the includes of a block leaves. -/
structure Checked (ref : BlockReference) (l : List BlockReference) (m m' : BlockManager) : Prop where
  blockStore : m'.blockStore = m.blockStore
  blocksPending : m'.blocksPending = m.blocksPending
  length : m'.missing.length = m.missing.length
  waits : ∀ i w, w ∈ m'.waits i ↔ w ∈ m.waits i ∨ w = ref ∧ i ∈ l ∧ i ∉ m.blockStore.index
  waiting : ∀ i ∈ m'.blockReferencesWaiting,
    i ∈ m.blockReferencesWaiting ∨ i ∈ l ∧ i ∉ m.blockStore.index
  missing : ∀ a r, r ∈ m'.missingOf a ↔ r ∈ m.missingOf a ∨
    r.authority = a ∧ r ∈ l ∧ r ∉ m.blockStore.index ∧ r ∉ m.blocksPending

theorem waits_insert
    (h : m'.blockReferencesWaiting = m.blockReferencesWaiting.insert i (insert ref (m.waits i)))
    (j w : BlockReference) : w ∈ m'.waits j ↔ w ∈ m.waits j ∨ w = ref ∧ j = i := by
  unfold waits at *
  rw [h]
  by_cases hj : j = i
  · subst hj
    simp [or_comm]
  · simp [hj, Finmap.lookup_insert_of_ne _ hj]

theorem checkInclude_eq (ref : BlockReference) (hi : i.authority < m.missing.length)
    (processed : Bool) :
    ∃ m', checkInclude ref (m, processed) i = some (m', processed && m.blockStore.blockExists i) ∧
      Checked ref [i] m m' := by
  unfold checkInclude
  by_cases hex : m.blockStore.blockExists i
  · have hno : ∀ j, ¬ (j ∈ [i] ∧ j ∉ m.blockStore.index) := by
      rintro j ⟨hj, hnot⟩
      rw [List.mem_singleton.mp hj] at hnot
      exact hnot (BlockStore.blockExists_iff.mp hex)
    exact ⟨m, by simp [hex], rfl, rfl, rfl, fun j w => (or_iff_left fun h => hno j h.2).symm,
      fun _ => .inl,
      fun a r => (or_iff_left fun h => hno r ⟨h.2.1, h.2.2.1⟩).symm⟩
  · have hnot : i ∉ m.blockStore.index := fun h => hex (BlockStore.blockExists_iff.mpr h)
    have hnew : ∀ j, j ∈ [i] ∧ j ∉ m.blockStore.index ↔ j = i := by
      intro j
      rw [List.mem_singleton]
      exact and_iff_left_of_imp fun h => h ▸ hnot
    obtain ⟨m', hm', hp', hw', hs', hl', hmissing⟩ := noteMissing_eq (m := { m with
      blockReferencesWaiting := m.blockReferencesWaiting.insert i (insert ref (m.waits i)) }) hi
    refine ⟨m', ?_, hs', hp', hl', fun j w => ?_, fun j hj => ?_, fun a r => ?_⟩
    · simp only [hex, Bool.false_eq_true, if_false, Bool.and_false]
      exact congrArg (Option.map fun m => (m, false)) hm'
    · rw [waits_insert hw', hnew]
    · rw [hw'] at hj
      exact ((Finmap.mem_insert.mp hj).imp_left (hnew j).mpr).symm
    · rw [hmissing, ← and_assoc (a := r ∈ [i]), hnew]
      exact or_congr_right and_left_comm

theorem Checked.nil (ref : BlockReference) (m : BlockManager) : Checked ref [] m m :=
  ⟨rfl, rfl, rfl, by simp, by simp, by simp⟩

theorem Checked.cons (h₁ : Checked ref [i] m m₁) (h₂ : Checked ref l m₁ m₂) :
    Checked ref (i :: l) m m₂ := by
  refine ⟨h₂.blockStore.trans h₁.blockStore, h₂.blocksPending.trans h₁.blocksPending,
    h₂.length.trans h₁.length, fun j w => ?_, fun j hj => ?_, fun a r => ?_⟩
  · rw [h₂.waits, h₁.waits, h₁.blockStore, List.mem_singleton, List.mem_cons]
    tauto
  · have h₂j := h₂.waiting j hj
    have h₁j := h₁.waiting j
    rw [h₁.blockStore] at h₂j
    rw [List.mem_singleton] at h₁j
    rw [List.mem_cons]
    tauto
  · rw [h₂.missing, h₁.missing, h₁.blockStore, h₁.blocksPending, List.mem_singleton, List.mem_cons]
    tauto

theorem checkIncludes_eq (ref : BlockReference) (hl : ∀ i ∈ l, i.authority < m.missing.length)
    (processed : Bool) :
    ∃ m', l.foldlM (checkInclude ref) (m, processed) =
        some (m', processed && l.all m.blockStore.blockExists) ∧ Checked ref l m m' := by
  induction l generalizing m processed with
  | nil => exact ⟨m, by simp, .nil ref m⟩
  | cons i l ih =>
    obtain ⟨m₁, hm₁, h₁⟩ := checkInclude_eq ref (hl i List.mem_cons_self) processed
    obtain ⟨m₂, hm₂, h₂⟩ := ih
      (fun j hj => h₁.length ▸ hl j (List.mem_cons_of_mem i hj))
      (processed && m.blockStore.blockExists i)
    refine ⟨m₂, ?_, h₁.cons h₂⟩
    rw [List.foldlM_cons, hm₁]
    change l.foldlM (checkInclude ref) _ = _
    rw [hm₂, h₁.blockStore, List.all_cons, Bool.and_assoc]

/-! ## Unlocking -/

/-- What the loop over the waiting blocks leaves: the blocks that no longer wait for anything have
moved from the pending ones to the queue. -/
structure Unlocked (ws : List BlockReference) (m m' : BlockManager)
    (unlocked : List StatementBlock) : Prop where
  blockStore : m'.blockStore = m.blockStore
  waiting : m'.blockReferencesWaiting = m.blockReferencesWaiting
  missing : m'.missing = m.missing
  pending : ∀ r b, m'.blocksPending.lookup r = some b ↔
    m.blocksPending.lookup r = some b ∧ b ∉ unlocked
  mem : ∀ b, b ∈ unlocked ↔ b.reference ∈ ws ∧ m.blocksPending.lookup b.reference = some b ∧
    ∀ i ∈ b.includes, i ∉ m.blockReferencesWaiting
  nodup : unlocked.Nodup
  card : unlocked.length + m'.blocksPending.keys.card = m.blocksPending.keys.card

def Keyed (m : BlockManager) : Prop := ∀ r b, m.blocksPending.lookup r = some b → b.reference = r

theorem unlock_eq (hkeyed : m.Keyed) (hw : w ∈ m.blocksPending) (blocks : List StatementBlock) :
    ∃ m' unlocked, unlock (m, blocks) w = some (m', unlocked ++ blocks) ∧
      Unlocked [w] m m' unlocked := by
  obtain ⟨b, hb⟩ := Finmap.mem_iff.mp hw
  have hbw := hkeyed w b hb
  unfold unlock
  simp only [hb, Option.map_some]
  by_cases hready : ∀ i ∈ b.includes, i ∉ m.blockReferencesWaiting
  · have hall : (b.includes.all fun itemRef => itemRef ∉ m.blockReferencesWaiting) = true := by
      simpa using hready
    rw [if_pos hall]
    refine ⟨_, [b], rfl, rfl, rfl, rfl, fun r c => ?_, fun c => ?_, by simp, ?_⟩
    · rw [List.mem_singleton]
      by_cases hr : r = w
      · subst hr
        rw [Finmap.lookup_erase]
        exact iff_of_false nofun fun ⟨hc, hne⟩ => hne (Option.some.inj (hc.symm.trans hb))
      · rw [Finmap.lookup_erase_ne hr]
        refine (and_iff_left_of_imp fun hc he => hr ?_).symm
        rw [← hkeyed r c hc, he, hbw]
    · rw [List.mem_singleton, List.mem_singleton]
      constructor
      · rintro rfl
        exact ⟨hbw, by rw [hbw, hb], hready⟩
      · rintro ⟨hc, hlook, -⟩
        rw [hc, hb] at hlook
        exact (Option.some.inj hlook).symm
    · rw [Finmap.keys_erase, Nat.add_comm]
      exact Finset.card_erase_add_one (Finmap.mem_keys.mpr hw)
  · have hall : ¬ (b.includes.all fun itemRef => itemRef ∉ m.blockReferencesWaiting) = true := by
      simpa using hready
    rw [if_neg hall]
    refine ⟨m, [], rfl, rfl, rfl, rfl, by simp, fun c => ?_, List.nodup_nil, by simp⟩
    refine iff_of_false List.not_mem_nil ?_
    rintro ⟨hc, hlook, hr⟩
    rw [List.mem_singleton.mp hc, hb] at hlook
    cases hlook
    exact hready hr

theorem Unlocked.nil (m : BlockManager) : Unlocked [] m m [] :=
  ⟨rfl, rfl, rfl, by simp, by simp, List.nodup_nil, by simp⟩

theorem Unlocked.keyed {us : List StatementBlock} (h : Unlocked ws m m' us) (hkeyed : m.Keyed) :
    m'.Keyed :=
  fun r b hb => hkeyed r b ((h.pending r b).mp hb).1

theorem Unlocked.cons {us₁ us₂ : List StatementBlock} (hw : w ∉ ws) (h₁ : Unlocked [w] m m₁ us₁)
    (h₂ : Unlocked ws m₁ m₂ us₂) : Unlocked (w :: ws) m m₂ (us₂ ++ us₁) := by
  have hne : ∀ b, b ∈ us₁ → b.reference ∉ ws := by
    intro b hb
    rw [List.mem_singleton.mp ((h₁.mem b).mp hb).1]
    exact hw
  refine ⟨h₂.blockStore.trans h₁.blockStore, h₂.waiting.trans h₁.waiting,
    h₂.missing.trans h₁.missing, fun r b => ?_, fun b => ?_, ?_, ?_⟩
  · rw [h₂.pending, h₁.pending, List.mem_append, not_or, and_assoc, and_comm (a := b ∉ us₁)]
  · rw [List.mem_append, h₂.mem, h₁.mem, h₁.pending, h₁.waiting, List.mem_singleton, List.mem_cons]
    constructor
    · rintro (⟨hm, ⟨hp, -⟩, hr⟩ | ⟨hm, hp, hr⟩)
      · exact ⟨.inr hm, hp, hr⟩
      · exact ⟨.inl hm, hp, hr⟩
    · rintro ⟨hm | hm, hp, hr⟩
      · exact .inr ⟨hm, hp, hr⟩
      · exact .inl ⟨hm, ⟨hp, fun hb => hne b hb hm⟩, hr⟩
  · refine h₂.nodup.append h₁.nodup fun b hb hb' => ?_
    exact hne b hb' ((h₂.mem b).mp hb).1
  · rw [List.length_append, ← h₁.card, ← h₂.card]
    omega

theorem unlockAll_eq (hnodup : ws.Nodup) (hkeyed : m.Keyed) (hws : ∀ w ∈ ws, w ∈ m.blocksPending)
    (blocks : List StatementBlock) :
    ∃ m' unlocked, ws.foldlM unlock (m, blocks) = some (m', unlocked ++ blocks) ∧
      Unlocked ws m m' unlocked := by
  induction ws generalizing m blocks with
  | nil => exact ⟨m, [], rfl, .nil m⟩
  | cons w ws ih =>
    obtain ⟨hw, hnodup⟩ := List.nodup_cons.mp hnodup
    obtain ⟨m₁, us₁, hm₁, h₁⟩ := unlock_eq hkeyed (hws w List.mem_cons_self) blocks
    have hws' : ∀ w' ∈ ws, w' ∈ m₁.blocksPending := by
      intro w' hw'
      obtain ⟨b, hb⟩ := Finmap.mem_iff.mp (hws w' (List.mem_cons_of_mem w hw'))
      refine Finmap.mem_iff.mpr ⟨b, (h₁.pending w' b).mpr ⟨hb, fun hmem => hw ?_⟩⟩
      rwa [← List.mem_singleton.mp ((h₁.mem b).mp hmem).1, hkeyed w' b hb]
    obtain ⟨m₂, us₂, hm₂, h₂⟩ := ih hnodup (h₁.keyed hkeyed) hws' (us₁ ++ blocks)
    refine ⟨m₂, us₂ ++ us₁, ?_, h₁.cons hw h₂⟩
    rw [List.foldlM_cons, hm₁, List.append_assoc]
    exact hm₂

/-! ## The invariant -/

/-- A pending block waits for a block that it includes. -/
def Unmet (m : BlockManager) (i w : BlockReference) : Prop :=
  i ∉ m.blockStore.index ∧ ∃ b, m.blocksPending.lookup w = some b ∧ i ∈ b.includes

theorem mem_of_waits (h : w ∈ m.waits i) : i ∈ m.blockReferencesWaiting := by
  by_contra hnot
  rw [waits, Finmap.lookup_eq_none.mpr hnot] at h
  exact Finset.notMem_empty w h

/-- What holds when the queue starts with the unblocked blocks `front`: `delivered` are the blocks
that have been taken from a batch. -/
structure Inv (initial delivered : Set StatementBlock) (front : List StatementBlock)
    (m : BlockManager) : Prop where
  stored : ∀ b ∈ m.blockStore.blocks, b ∈ initial ∨ b ∈ delivered
  keyed : m.Keyed
  delivered_iff : ∀ b, b ∈ delivered → b ∈ m.blockStore.blocks ∨
    m.blocksPending.lookup b.reference = some b ∨ b ∈ front
  pending : ∀ r b, m.blocksPending.lookup r = some b →
    b ∈ delivered ∧ r ∉ m.blockStore.index ∧ ∃ i ∈ b.includes, i ∉ m.blockStore.index
  ready : ∀ b ∈ front, b ∈ delivered ∧ b.reference ∉ m.blockStore.index ∧
    b.reference ∉ m.blocksPending ∧ ∀ i ∈ b.includes, i ∈ m.blockStore.index
  frontNodup : front.Nodup
  waits : ∀ i w, w ∈ m.waits i ↔ m.Unmet i w
  waiting : ∀ i ∈ m.blockReferencesWaiting, ∃ w, m.Unmet i w
  missing : ∀ a r, r ∈ m.missingOf a ↔ r.authority = a ∧ (∃ w, m.Unmet r w) ∧
    r ∉ m.blocksPending ∧ ∀ b ∈ front, b.reference ≠ r

namespace Inv

variable {dag : Dag} {initial delivered : Set StatementBlock} {front : List StatementBlock}
  {m : BlockManager}

theorem waiting_iff (h : Inv initial delivered front m) (i : BlockReference) :
    i ∈ m.blockReferencesWaiting ↔ ∃ w, m.Unmet i w :=
  ⟨h.waiting i, fun ⟨w, hw⟩ => mem_of_waits ((h.waits i w).mpr hw)⟩

def inserted (m : BlockManager) (b : StatementBlock) : BlockManager :=
  { m with
    blockStore := m.blockStore.insertBlock b
    blockReferencesWaiting := m.blockReferencesWaiting.erase b.reference }

theorem process_eq (h : Inv initial delivered front m) (order : IterOrder BlockReference)
    (b : StatementBlock) (blocks : List StatementBlock) :
    ∃ m' unlocked, m.process order b blocks = some (m', unlocked ++ blocks) ∧
      Unlocked (order.toList (m.waits b.reference)) (inserted m b) m' unlocked := by
  unfold BlockManager.process
  dsimp only
  cases hw : m.blockReferencesWaiting.lookup b.reference with
  | none =>
    have hempty : m.waits b.reference = ∅ := by rw [BlockManager.waits, hw]; rfl
    have hnil : order.toList (m.waits b.reference) = [] := by
      rw [List.eq_nil_iff_forall_not_mem]
      intro w hmem
      rw [order.mem_toList, hempty] at hmem
      exact Finset.notMem_empty w hmem
    have herase : m.blockReferencesWaiting.erase b.reference = m.blockReferencesWaiting := by
      refine Finmap.ext_lookup fun r => ?_
      by_cases hr : r = b.reference
      · rw [hr, Finmap.lookup_erase, hw]
      · rw [Finmap.lookup_erase_ne hr]
    refine ⟨inserted m b, [], ?_, hnil ▸ .nil _⟩
    simp only [inserted, herase, List.nil_append]
  | some ws =>
    have hwaits : m.waits b.reference = ws := by rw [BlockManager.waits, hw]; rfl
    rw [hwaits]
    refine unlockAll_eq (m := inserted m b) (order.nodup_toList ws) h.keyed (fun w hmem => ?_) blocks
    rw [order.mem_toList, ← hwaits, h.waits] at hmem
    obtain ⟨-, c, hc, -⟩ := hmem
    exact Finmap.mem_iff.mpr ⟨c, hc⟩

/-- A block at the front is processed: the blocks that it unlocks take its place. -/
theorem process (h : Inv initial delivered (b :: front) m) (hdel : delivered ⊆ dag.blocks)
    {unlocked : List StatementBlock} (hws : ∀ w, w ∈ ws ↔ w ∈ m.waits b.reference)
    (hu : Unlocked ws (inserted m b) m' unlocked) :
    Inv initial delivered (unlocked ++ front) m' := by
  obtain ⟨hbdel, hbnew, hbpend, hbinc⟩ := h.ready b List.mem_cons_self
  have hstore : ∀ c, c ∈ m'.blockStore.blocks ↔ c = b ∨ c ∈ m.blockStore.blocks := by
    rw [hu.blockStore]
    exact fun c => BlockStore.mem_blocks_insertBlock hbnew
  have hindex : ∀ r, r ∈ m'.blockStore.index ↔ r = b.reference ∨ r ∈ m.blockStore.index := by
    rw [hu.blockStore]
    exact fun r => BlockStore.mem_index_insertBlock
  have hpending : ∀ r c, m'.blocksPending.lookup r = some c ↔
      m.blocksPending.lookup r = some c ∧ c ∉ unlocked := hu.pending
  have hwaiting : ∀ i, i ∈ m'.blockReferencesWaiting ↔ i ≠ b.reference ∧ ∃ w, m.Unmet i w := by
    rw [hu.waiting]
    exact fun i => Finmap.mem_erase.trans (and_congr_right fun _ => h.waiting_iff i)
  have hwaits : ∀ i w, w ∈ m'.waits i ↔ i ≠ b.reference ∧ w ∈ m.waits i := by
    intro i w
    unfold BlockManager.waits
    rw [hu.waiting]
    by_cases hi : i = b.reference
    · subst hi
      simp [inserted]
    · simp [inserted, hi, Finmap.lookup_erase_ne hi]
  -- An unlocked block was pending and all that it includes is stored now.
  have hunlocked : ∀ c ∈ unlocked, m.blocksPending.lookup c.reference = some c ∧
      ∀ i ∈ c.includes, i ∈ m'.blockStore.index := by
    intro c hc
    obtain ⟨-, hlook, hfree⟩ := (hu.mem c).mp hc
    refine ⟨hlook, fun i hi => ?_⟩
    by_contra hnot
    rw [hindex, not_or] at hnot
    refine hfree i hi (hu.waiting ▸ (hwaiting i).mpr ⟨hnot.1, c.reference, hnot.2, c, hlook, hi⟩)
  have hpend : ∀ r, r ∈ m.blocksPending ↔
      r ∈ m'.blocksPending ∨ ∃ c ∈ unlocked, c.reference = r := by
    intro r
    simp only [Finmap.mem_iff, hpending]
    constructor
    · rintro ⟨c, hc⟩
      by_cases hcu : c ∈ unlocked
      · exact .inr ⟨c, hcu, h.keyed r c hc⟩
      · exact .inl ⟨c, hc, hcu⟩
    · rintro (⟨c, hc, -⟩ | ⟨c, hcu, rfl⟩)
      · exact ⟨c, hc⟩
      · exact ⟨c, (hunlocked c hcu).1⟩
  have hunmet : ∀ i w, m'.Unmet i w ↔ i ≠ b.reference ∧ m.Unmet i w := by
    intro i w
    unfold Unmet
    rw [hindex, not_or]
    constructor
    · rintro ⟨⟨hne, hi⟩, c, hc, hic⟩
      exact ⟨hne, hi, c, ((hpending w c).mp hc).1, hic⟩
    · rintro ⟨hne, hi, c, hc, hic⟩
      refine ⟨⟨hne, hi⟩, c, (hpending w c).mpr ⟨hc, fun hcu => ?_⟩, hic⟩
      exact ((hindex i).mp ((hunlocked c hcu).2 i hic)).elim hne hi
  -- A block that is still pending includes one that is still not stored.
  have hblocked : ∀ r c, m'.blocksPending.lookup r = some c →
      ∃ i ∈ c.includes, i ∉ m'.blockStore.index := by
    intro r c hc
    obtain ⟨hc, hnot⟩ := (hpending r c).mp hc
    have hr := h.keyed r c hc
    by_contra hall
    push Not at hall
    refine hnot ((hu.mem c).mpr ⟨?_, hr ▸ hc, fun i hi hw => ?_⟩)
    · obtain ⟨-, -, i, hi, hmiss⟩ := h.pending r c hc
      rcases (hindex i).mp (hall i hi) with rfl | hi'
      · exact (hws _).mpr ((h.waits _ _).mpr ⟨hmiss, c, hr ▸ hc, hi⟩)
      · exact absurd hi' hmiss
    · obtain ⟨hne, w, hw⟩ := (hwaiting i).mp (hu.waiting ▸ hw)
      exact ((hindex i).mp (hall i hi)).elim hne hw.1
  have hfront : ∀ c ∈ front, c.reference ≠ b.reference := by
    intro c hc he
    obtain ⟨hcdel, -⟩ := h.ready c (List.mem_cons_of_mem b hc)
    have := dag.unique c (hdel hcdel) b (hdel hbdel) he
    exact (List.nodup_cons.mp h.frontNodup).1 (this ▸ hc)
  refine
    { stored := fun c hc => ?_
      keyed := hu.keyed h.keyed
      delivered_iff := fun c hc => ?_
      pending := fun r c hc => ?_
      ready := fun c hc => ?_
      frontNodup := ?_
      waits := fun i w => by rw [hwaits, h.waits, hunmet]
      waiting := fun i hi => ?_
      missing := fun a r => ?_ }
  · rcases (hstore c).mp hc with rfl | hc
    · exact .inr hbdel
    · exact h.stored c hc
  · rcases h.delivered_iff c hc with hc | hc | hc
    · exact .inl ((hstore c).mpr (.inr hc))
    · by_cases hcu : c ∈ unlocked
      · exact .inr (.inr (List.mem_append_left _ hcu))
      · exact .inr (.inl ((hpending _ c).mpr ⟨hc, hcu⟩))
    · rcases List.mem_cons.mp hc with rfl | hc
      · exact .inl ((hstore c).mpr (.inl rfl))
      · exact .inr (.inr (List.mem_append_right _ hc))
  · have hc' := ((hpending r c).mp hc).1
    obtain ⟨hcdel, hr, -⟩ := h.pending r c hc'
    refine ⟨hcdel, fun hmem => ?_, hblocked r c hc⟩
    rcases (hindex r).mp hmem with rfl | hmem
    · exact hbpend (Finmap.mem_iff.mpr ⟨c, hc'⟩)
    · exact hr hmem
  · rcases List.mem_append.mp hc with hc | hc
    · obtain ⟨hlook, hinc⟩ := hunlocked c hc
      obtain ⟨hcdel, hnew, -⟩ := h.pending _ c hlook
      refine ⟨hcdel, fun hmem => ?_, fun hmem => ?_, hinc⟩
      · rcases (hindex _).mp hmem with he | hmem
        · exact hbpend (he ▸ Finmap.mem_iff.mpr ⟨c, hlook⟩)
        · exact hnew hmem
      · obtain ⟨d, hd⟩ := Finmap.mem_iff.mp hmem
        obtain ⟨hd, hnot⟩ := (hpending _ d).mp hd
        cases hlook.symm.trans hd
        exact hnot hc
    · obtain ⟨hcdel, hnew, hnot, hinc⟩ := h.ready c (List.mem_cons_of_mem b hc)
      exact ⟨hcdel, fun hmem => ((hindex _).mp hmem).elim (hfront c hc) hnew,
        fun hmem => hnot ((hpend _).mpr (.inl hmem)), fun i hi => (hindex i).mpr (.inr (hinc i hi))⟩
  · refine hu.nodup.append (List.nodup_cons.mp h.frontNodup).2 fun c hc hc' => ?_
    exact (h.ready c (List.mem_cons_of_mem b hc')).2.2.1 ((hpend _).mpr (.inr ⟨c, hc, rfl⟩))
  · obtain ⟨hne, w, hw⟩ := (hwaiting i).mp hi
    exact ⟨w, (hunmet i w).mpr ⟨hne, hw⟩⟩
  · have hmissing : m'.missingOf a = m.missingOf a := by
      unfold missingOf
      rw [hu.missing]
      rfl
    rw [hmissing, h.missing, hpend, List.forall_mem_cons, List.forall_mem_append]
    simp only [hunmet, exists_and_left, not_or, not_exists, not_and]
    tauto

theorem process_front (h : Inv initial delivered (b :: front) m) (hdel : delivered ⊆ dag.blocks)
    (order : IterOrder BlockReference) (blocks : List StatementBlock) :
    ∃ m' unlocked, m.process order b blocks = some (m', unlocked ++ blocks) ∧
      Inv initial delivered (unlocked ++ front) m' ∧ m'.missing.length = m.missing.length ∧
      unlocked.length + m'.blocksPending.keys.card = m.blocksPending.keys.card := by
  obtain ⟨m', unlocked, heq, hu⟩ := h.process_eq order b blocks
  exact ⟨m', unlocked, heq, h.process hdel (fun _ => order.mem_toList) hu,
    congrArg List.length hu.missing, hu.card⟩

/-- What a block that is not known yet leaves before it is processed or suspended: its includes have
been checked and it is no longer missing. -/
structure Noted (b : StatementBlock) (m m' : BlockManager) : Prop where
  blockStore : m'.blockStore = m.blockStore
  blocksPending : m'.blocksPending = m.blocksPending
  length : m'.missing.length = m.missing.length
  waits : ∀ i w, w ∈ m'.waits i ↔ w ∈ m.waits i ∨
    w = b.reference ∧ i ∈ b.includes ∧ i ∉ m.blockStore.index
  waiting : ∀ i ∈ m'.blockReferencesWaiting,
    i ∈ m.blockReferencesWaiting ∨ i ∈ b.includes ∧ i ∉ m.blockStore.index
  missing : ∀ a r, r ∈ m'.missingOf a ↔ r ≠ b.reference ∧ (r ∈ m.missingOf a ∨
    r.authority = a ∧ r ∈ b.includes ∧ r ∉ m.blockStore.index ∧ r ∉ m.blocksPending)

/-- A block whose includes are stored is noted; it may be one of those that have been unblocked. -/
theorem note {front' : List StatementBlock} (h : Inv initial delivered front m) (hn : Noted b m m')
    (hnew : b.reference ∉ m.blockStore.index) (hpend : b.reference ∉ m.blocksPending)
    (hinc : ∀ i ∈ b.includes, i ∈ m.blockStore.index)
    (hfront : ∀ c, c ∈ b :: front' ↔ c = b ∨ c ∈ front) (hnodup : (b :: front').Nodup) :
    Inv initial (insert b delivered) (b :: front') m' := by
  have hno : ∀ i, ¬ (i ∈ b.includes ∧ i ∉ m.blockStore.index) := fun i hi => hi.2 (hinc i hi.1)
  have hunmet : ∀ i w, m'.Unmet i w ↔ m.Unmet i w := by
    unfold Unmet
    rw [hn.blockStore, hn.blocksPending]
    exact fun _ _ => Iff.rfl
  refine
    { stored := fun c hc => (h.stored c (hn.blockStore ▸ hc)).imp_right .inr
      keyed := fun r c hc => h.keyed r c (hn.blocksPending ▸ hc)
      delivered_iff := fun c hc => ?_
      pending := fun r c hc => ?_
      ready := fun c hc => ?_
      frontNodup := hnodup
      waits := fun i w => ?_
      waiting := fun i hi => ?_
      missing := fun a r => ?_ }
  · rw [hn.blockStore, hn.blocksPending, hfront]
    rcases hc with rfl | hc
    · exact .inr (.inr (.inl rfl))
    · exact (h.delivered_iff c hc).imp_right (.imp_right .inr)
  · rw [hn.blocksPending] at hc
    rw [hn.blockStore]
    exact (h.pending r c hc).imp_left .inr
  · rw [hn.blockStore, hn.blocksPending]
    rcases (hfront c).mp hc with rfl | hc
    · exact ⟨.inl rfl, hnew, hpend, hinc⟩
    · exact (h.ready c hc).imp_left .inr
  · rw [hn.waits, or_iff_left fun hi => hno i hi.2, h.waits, hunmet]
  · obtain ⟨w, hw⟩ := h.waiting i ((hn.waiting i hi).resolve_right (hno i))
    exact ⟨w, (hunmet i w).mpr hw⟩
  · rw [hn.missing, hn.blocksPending, h.missing]
    simp only [hunmet, hfront, forall_eq_or_imp, ne_comm]
    tauto

theorem suspend (h : Inv initial delivered [] m) (hn : Noted b m m')
    (hnew : b.reference ∉ m.blockStore.index) (hpend : b.reference ∉ m.blocksPending)
    (hinc : ∃ i ∈ b.includes, i ∉ m.blockStore.index) :
    Inv initial (insert b delivered) []
      { m' with blocksPending := m'.blocksPending.insert b.reference b } := by
  have hlook : ∀ r c, (m.blocksPending.insert b.reference b).lookup r = some c ↔
      r = b.reference ∧ c = b ∨ m.blocksPending.lookup r = some c := by
    intro r c
    by_cases hr : r = b.reference
    · subst hr
      rw [Finmap.lookup_eq_none.mpr hpend]
      simp [eq_comm]
    · simp [hr]
  have hunmet : ∀ i w, { m' with blocksPending := m'.blocksPending.insert b.reference b }.Unmet i w ↔
      m.Unmet i w ∨ w = b.reference ∧ i ∈ b.includes ∧ i ∉ m.blockStore.index := by
    intro i w
    simp only [Unmet, hn.blockStore, hn.blocksPending, hlook, or_and_right, exists_or, and_assoc,
      exists_and_left, exists_eq_left]
    rw [and_or_left, or_comm, and_comm (b := _ ∧ _), and_assoc]
  refine
    { stored := fun c hc => (h.stored c (hn.blockStore ▸ hc)).imp_right .inr
      keyed := fun r c hc => ?_
      delivered_iff := fun c hc => ?_
      pending := fun r c hc => ?_
      ready := by simp
      frontNodup := List.nodup_nil
      waits := fun i w => ?_
      waiting := fun i hi => ?_
      missing := fun a r => ?_ } <;> simp only [hn.blockStore, hn.blocksPending] at *
  · rcases (hlook r c).mp hc with ⟨rfl, rfl⟩ | hc
    · rfl
    · exact h.keyed r c hc
  · rcases hc with rfl | hc
    · exact .inr (.inl ((hlook _ _).mpr (.inl ⟨rfl, rfl⟩)))
    · exact (h.delivered_iff c hc).imp_right (.imp_left fun hc => (hlook _ _).mpr (.inr hc))
  · rcases (hlook r c).mp hc with ⟨rfl, rfl⟩ | hc
    · exact ⟨.inl rfl, hnew, hinc⟩
    · exact (h.pending r c hc).imp_left .inr
  · rw [hunmet, ← h.waits]
    exact hn.waits i w
  · rcases hn.waiting i hi with hi | hi
    · obtain ⟨w, hw⟩ := h.waiting i hi
      exact ⟨w, (hunmet i w).mpr (.inl hw)⟩
    · exact ⟨b.reference, (hunmet i _).mpr (.inr ⟨rfl, hi⟩)⟩
  · change r ∈ m'.missingOf a ↔ _
    rw [hn.missing, h.missing, Finmap.mem_insert]
    simp only [hunmet, exists_or, exists_eq_left, List.not_mem_nil, false_implies, implies_true]
    tauto

theorem skip (h : Inv initial delivered front m)
    (hb : b ∈ m.blockStore.blocks ∨ m.blocksPending.lookup b.reference = some b) :
    Inv initial (insert b delivered) front m := by
  refine { h with
    stored := fun c hc => (h.stored c hc).imp_right .inr
    delivered_iff := fun c hc => ?_
    pending := fun r c hc => (h.pending r c hc).imp_left .inr
    ready := fun c hc => (h.ready c hc).imp_left .inr }
  rcases hc with rfl | hc
  · exact hb.imp_right .inl
  · exact h.delivered_iff c hc

end Inv

/-! ## The loop -/

section Loop

variable {dag : Dag} {n : Nat} {initial delivered : Set StatementBlock}
  {front : List StatementBlock} {m : BlockManager} {b : StatementBlock}

theorem step_new (order : IterOrder BlockReference) (hnew : b.reference ∉ m.blockStore.index)
    (hpend : b.reference ∉ m.blocksPending) (hauth : b.author < m.missing.length)
    (hinc : ∀ i ∈ b.includes, i.authority < m.missing.length)
    (hown : ∀ a, ∀ r ∈ m.missingOf a, r.authority = a) (blocks : List StatementBlock) :
    ∃ m', Inv.Noted b m m' ∧ m.step order b blocks =
      if ∀ i ∈ b.includes, i ∈ m.blockStore.index then
        (m'.process order b blocks).map fun (m, blocks) => (m, blocks, [b])
      else some ({ m' with blocksPending := m'.blocksPending.insert b.reference b }, blocks, []) := by
  obtain ⟨m₁, hm₁, hc⟩ := checkIncludes_eq b.reference hinc true
  obtain ⟨m₂, hm₂, hp, hw, hs, hl, hmod⟩ :=
    modifyMissing_eq (hc.length ▸ hauth) (·.erase b.reference)
  refine ⟨m₂, ⟨hs.trans hc.blockStore, hp.trans hc.blocksPending, hl.trans hc.length,
    fun i w => ?_, fun i hi => ?_, fun a r => ?_⟩, ?_⟩
  · rw [BlockManager.waits, hw]
    exact hc.waits i w
  · exact hc.waiting i (hw ▸ hi)
  · rw [← hc.missing, hmod]
    split_ifs with ha
    · exact Finset.mem_erase
    · refine (and_iff_right_of_imp fun hr he => ha ?_).symm
      rcases (hc.missing a r).mp hr with hr | hr
      · rw [← hown a r hr, he, StatementBlock.author]
      · rw [← hr.1, he, StatementBlock.author]
  · have hknown : ¬ (m.blockStore.blockExists b.reference ∨ b.reference ∈ m.blocksPending) :=
      fun h => h.elim (fun h => hnew (BlockStore.blockExists_iff.mp h)) hpend
    have hall : b.includes.all m.blockStore.blockExists = true ↔
        ∀ i ∈ b.includes, i ∈ m.blockStore.index := by
      simp [BlockStore.blockExists]
    rw [step, if_neg hknown, hm₁]
    change (m₁.modifyMissing b.author (·.erase b.reference)).bind _ = _
    rw [hm₂]
    exact if_congr hall rfl rfl

theorem step_front (h : Inv initial delivered (b :: front) m) (hdel : delivered ⊆ dag.blocks)
    (hauth : b.author < m.missing.length)
    (hinc : ∀ i ∈ b.includes, i.authority < m.missing.length)
    (order : IterOrder BlockReference) (blocks : List StatementBlock) :
    ∃ m' unlocked, m.step order b blocks = some (m', unlocked ++ blocks, [b]) ∧
      Inv initial delivered (unlocked ++ front) m' ∧
      m'.missing.length = m.missing.length ∧
      unlocked.length + m'.blocksPending.keys.card = m.blocksPending.keys.card := by
  obtain ⟨hbdel, hnew, hpend, hstored⟩ := h.ready b List.mem_cons_self
  obtain ⟨m₁, hn, hstep⟩ := step_new order hnew hpend hauth hinc
    (fun a r hr => ((h.missing a r).mp hr).1) blocks
  have hnoted := h.note hn hnew hpend hstored
    (fun c => (or_iff_right_of_imp fun hc => hc ▸ List.mem_cons_self).symm) h.frontNodup
  rw [Set.insert_eq_of_mem hbdel] at hnoted
  obtain ⟨m', unlocked, heq, hinv, hlen, hcard⟩ := hnoted.process_front hdel order blocks
  rw [hstep, if_pos hstored, heq]
  exact ⟨m', unlocked, rfl, hinv, hlen.trans hn.length, hn.blocksPending ▸ hcard⟩

theorem step_back (h : Inv initial delivered [] m) (hinit : initial ⊆ dag.blocks)
    (hdel : delivered ⊆ dag.blocks) (hb : b ∈ dag.blocks) (hauth : b.author < m.missing.length)
    (hinc : ∀ i ∈ b.includes, i.authority < m.missing.length)
    (order : IterOrder BlockReference) (blocks : List StatementBlock) :
    ∃ m' unlocked processed, m.step order b blocks = some (m', unlocked ++ blocks, processed) ∧
      Inv initial (insert b delivered) unlocked m' ∧
      m'.missing.length = m.missing.length ∧
      unlocked.length + m'.blocksPending.keys.card ≤ m.blocksPending.keys.card + 1 := by
  by_cases hknown : b.reference ∈ m.blockStore.index ∨ b.reference ∈ m.blocksPending
  · -- The block that is known under this reference is the same one.
    have hsame : b ∈ m.blockStore.blocks ∨ m.blocksPending.lookup b.reference = some b := by
      refine hknown.imp (fun hmem => ?_) fun hmem => ?_
      · obtain ⟨c, hc, hr⟩ := BlockStore.mem_index_iff.mp hmem
        have hcdag : c ∈ dag.blocks := (h.stored c hc).elim (@hinit c) (@hdel c)
        exact dag.unique c hcdag b hb hr ▸ hc
      · obtain ⟨c, hc⟩ := Finmap.mem_iff.mp hmem
        have hcb := dag.unique c (hdel (h.pending _ c hc).1) b hb (h.keyed _ c hc)
        exact hcb ▸ hc
    refine ⟨m, [], [], ?_, h.skip hsame, rfl, by simp⟩
    rw [step, if_pos (hknown.imp_left BlockStore.blockExists_iff.mpr), List.nil_append]
  · obtain ⟨hnew, hpend⟩ := not_or.mp hknown
    obtain ⟨m₁, hn, hstep⟩ := step_new order hnew hpend hauth hinc
      (fun a r hr => ((h.missing a r).mp hr).1) blocks
    rw [hstep]
    by_cases hstored : ∀ i ∈ b.includes, i ∈ m.blockStore.index
    · have hnoted := h.note hn hnew hpend hstored (fun _ => List.mem_cons) (List.nodup_singleton b)
      obtain ⟨m', unlocked, heq, hinv, hlen, hcard⟩ :=
        hnoted.process_front (Set.insert_subset hb hdel) order blocks
      rw [if_pos hstored, heq]
      rw [hn.blocksPending] at hcard
      exact ⟨m', unlocked, [b], rfl, List.append_nil unlocked ▸ hinv, hlen.trans hn.length,
        by omega⟩
    · rw [if_neg hstored]
      push Not at hstored
      refine ⟨_, [], [], rfl, h.suspend hn hnew hpend hstored, hn.length, ?_⟩
      rw [hn.blocksPending, List.length_nil, Nat.zero_add]
      have hkeys : (m.blocksPending.insert b.reference b).keys ⊆
          insert b.reference m.blocksPending.keys := by
        intro r hr
        rw [Finmap.mem_keys, Finmap.mem_insert] at hr
        exact Finset.mem_insert.mpr (hr.imp_right Finmap.mem_keys.mpr)
      exact (Finset.card_le_card hkeys).trans (Finset.card_insert_le _ _)

theorem run_cons {fuel : Nat} {blocks blocks₁ processed rest : List StatementBlock}
    (hstep : m.step order b blocks = some (m₁, blocks₁, processed))
    (hrun : m₁.run order fuel blocks₁ = some (m', rest)) :
    m.run order (fuel + 1) (b :: blocks) = some (m', processed ++ rest) := by
  rw [run, hstep]
  change (run order fuel m₁ blocks₁).bind _ = _
  rw [hrun]
  rfl

theorem run_eq (hinit : initial ⊆ dag.blocks)
    (hknown : ∀ b ∈ dag.blocks, b.author < n ∧ ∀ i ∈ b.includes, i.authority < n)
    (order : IterOrder BlockReference) (fuel : Nat) {back : List StatementBlock}
    (h : Inv initial delivered front m) (hn : m.missing.length = n)
    (hdel : delivered ⊆ dag.blocks) (hback : ∀ b ∈ back, b ∈ dag.blocks)
    (hfuel : front.length + 2 * back.length + m.blocksPending.keys.card ≤ fuel) :
    ∃ m' processed, m.run order fuel (front ++ back) = some (m', processed) ∧
      Inv initial (delivered ∪ {b | b ∈ back}) [] m' ∧
      m'.missing.length = n := by
  induction fuel generalizing m delivered front back with
  | zero =>
    obtain rfl : front = [] := List.length_eq_zero_iff.mp (by omega)
    obtain rfl : back = [] := List.length_eq_zero_iff.mp (by omega)
    exact ⟨m, [], rfl, by simpa using h, hn⟩
  | succ fuel ih =>
    rcases front with - | ⟨b, front⟩
    · rcases back with - | ⟨b, back⟩
      · exact ⟨m, [], rfl, by simpa using h, hn⟩
      · have hb := hback b List.mem_cons_self
        obtain ⟨hauth, hinc⟩ := hknown b hb
        obtain ⟨m₁, unlocked, processed, hstep, h₁, hlen, hcard⟩ :=
          step_back h hinit hdel hb (hn ▸ hauth) (hn ▸ hinc) order back
        rw [List.length_cons] at hfuel
        obtain ⟨m', rest, hrun, h', hn'⟩ := ih h₁ (hlen.trans hn) (Set.insert_subset hb hdel)
          (fun c hc => hback c (List.mem_cons_of_mem b hc)) (by omega)
        refine ⟨m', processed ++ rest, run_cons hstep hrun, ?_, hn'⟩
        have hset : delivered ∪ {c | c ∈ b :: back} = insert b delivered ∪ {c | c ∈ back} := by
          ext c
          simp [or_assoc, or_left_comm]
        exact hset ▸ h'
    · have hb := hdel (h.ready b List.mem_cons_self).1
      obtain ⟨hauth, hinc⟩ := hknown b hb
      obtain ⟨m₁, unlocked, hstep, h₁, hlen, hcard⟩ :=
        step_front h hdel (hn ▸ hauth) (hn ▸ hinc) order (front ++ back)
      rw [List.length_cons] at hfuel
      obtain ⟨m', rest, hrun, h', hn'⟩ := ih h₁ (hlen.trans hn) hdel hback
        (by rw [List.length_append]; omega)
      rw [List.append_assoc] at hrun
      exact ⟨m', b :: rest, run_cons hstep hrun, h', hn'⟩

end Loop

/-! ## What is processed, whatever the tables hold -/

section Sound

variable {m m' : BlockManager} {b : StatementBlock} {blocks blocks' processed : List StatementBlock}
  {bs : List StatementBlock}

def Suspended (m : BlockManager) (b : StatementBlock) : Prop :=
  ∃ r, m.blocksPending.lookup r = some b

theorem noteMissing_sound (h : m.noteMissing i = some m') :
    m'.blockStore = m.blockStore ∧ m'.blocksPending = m.blocksPending := by
  unfold noteMissing modifyMissing at h
  split_ifs at h <;> cases h <;> exact ⟨rfl, rfl⟩

theorem checkInclude_sound {flag flag' : Bool}
    (h : checkInclude ref (m, flag) i = some (m', flag')) :
    m'.blockStore = m.blockStore ∧ m'.blocksPending = m.blocksPending ∧
      (flag' = true → flag = true ∧ i ∈ m.blockStore.index) := by
  unfold checkInclude at h
  dsimp only at h
  split_ifs at h with hex
  · cases h
    exact ⟨rfl, rfl, fun hflag => ⟨hflag, BlockStore.blockExists_iff.mp hex⟩⟩
  · obtain ⟨m₁, hm₁, heq⟩ := Option.map_eq_some_iff.mp h
    cases heq
    obtain ⟨hstore, hpending⟩ := noteMissing_sound hm₁
    exact ⟨hstore, hpending, nofun⟩

theorem checkIncludes_sound {flag flag' : Bool}
    (h : l.foldlM (checkInclude ref) (m, flag) = some (m', flag')) :
    m'.blockStore = m.blockStore ∧ m'.blocksPending = m.blocksPending ∧
      (flag' = true → flag = true ∧ ∀ i ∈ l, i ∈ m.blockStore.index) := by
  induction l generalizing m flag with
  | nil =>
    cases h
    exact ⟨rfl, rfl, fun hflag => ⟨hflag, nofun⟩⟩
  | cons i l ih =>
    obtain ⟨⟨m₁, flag₁⟩, hi, hl⟩ := Option.bind_eq_some_iff.mp h
    obtain ⟨hstore₁, hpending₁, hflag₁⟩ := checkInclude_sound hi
    obtain ⟨hstore, hpending, hflag⟩ := ih hl
    refine ⟨hstore.trans hstore₁, hpending.trans hpending₁, fun hf => ?_⟩
    obtain ⟨hf₁, hstored⟩ := hflag hf
    obtain ⟨hf₀, hi⟩ := hflag₁ hf₁
    rw [hstore₁] at hstored
    exact ⟨hf₀, List.forall_mem_cons.mpr ⟨hi, hstored⟩⟩

theorem unlockAll_sound (h : ws.foldlM unlock (m, blocks) = some (m', blocks')) :
    m'.blockStore = m.blockStore ∧ (∀ x, m'.Suspended x → m.Suspended x) ∧
      ∀ x ∈ blocks', x ∈ blocks ∨ m.Suspended x := by
  induction ws generalizing m blocks with
  | nil =>
    cases h
    exact ⟨rfl, fun _ => id, fun _ => .inl⟩
  | cons w ws ih =>
    obtain ⟨⟨m₁, blocks₁⟩, hw, hws⟩ := Option.bind_eq_some_iff.mp h
    obtain ⟨hstore, hsuspended, hblocks⟩ := ih hws
    obtain ⟨b, hb, heq⟩ := Option.map_eq_some_iff.mp hw
    split_ifs at heq with hall
    · cases heq
      have herase : ∀ x, Suspended { m with blocksPending := m.blocksPending.erase w } x →
          m.Suspended x := by
        rintro x ⟨r, hr⟩
        by_cases hrw : r = w
        · subst hrw
          rw [Finmap.lookup_erase] at hr
          exact nomatch hr
        · exact ⟨r, by rwa [Finmap.lookup_erase_ne hrw] at hr⟩
      refine ⟨hstore, fun x hx => herase x (hsuspended x hx), fun x hx => ?_⟩
      rcases hblocks x hx with hx | hx
      · rcases List.mem_cons.mp hx with rfl | hx
        · exact .inr ⟨w, hb⟩
        · exact .inl hx
      · exact .inr (herase x hx)
    · cases heq
      exact ⟨hstore, hsuspended, hblocks⟩

structure StepSound (m m' : BlockManager) (b : StatementBlock)
    (blocks blocks' processed : List StatementBlock) : Prop where
  store : (processed = [] ∧ m'.blockStore = m.blockStore) ∨
    (processed = [b] ∧ b.reference ∉ m.blockStore.index ∧
      (∀ i ∈ b.includes, i ∈ m.blockStore.index) ∧ m'.blockStore = m.blockStore.insertBlock b)
  queue : ∀ x ∈ blocks', x ∈ blocks ∨ m.Suspended x
  suspended : ∀ x, m'.Suspended x → x = b ∨ m.Suspended x

theorem step_sound (h : m.step order b blocks = some (m', blocks', processed)) :
    StepSound m m' b blocks blocks' processed := by
  unfold step at h
  split_ifs at h with hknown
  · cases h
    exact ⟨.inl ⟨rfl, rfl⟩, fun _ => .inl, fun _ => .inr⟩
  · have hnew : b.reference ∉ m.blockStore.index :=
      fun hmem => hknown (.inl (BlockStore.blockExists_iff.mpr hmem))
    obtain ⟨⟨m₁, flag⟩, hcheck, h⟩ := Option.bind_eq_some_iff.mp h
    obtain ⟨m₂, hmodify, h⟩ := Option.bind_eq_some_iff.mp h
    obtain ⟨hstore₁, hpending₁, hflag⟩ := checkIncludes_sound hcheck
    obtain ⟨hstore₂, hpending₂⟩ : m₂.blockStore = m₁.blockStore ∧
        m₂.blocksPending = m₁.blocksPending := by
      unfold modifyMissing at hmodify
      split_ifs at hmodify
      cases hmodify
      exact ⟨rfl, rfl⟩
    have hstore := hstore₂.trans hstore₁
    have hpending := hpending₂.trans hpending₁
    dsimp only at h
    split_ifs at h with hf
    · obtain ⟨⟨m₃, blocks₃⟩, hprocess, heq⟩ := Option.map_eq_some_iff.mp h
      cases heq
      have hunlock : m₃.blockStore = m.blockStore.insertBlock b ∧
          (∀ x, m₃.Suspended x → m.Suspended x) ∧ ∀ x ∈ blocks₃, x ∈ blocks ∨ m.Suspended x := by
        unfold process at hprocess
        dsimp only at hprocess
        split at hprocess
        · have hsound := unlockAll_sound hprocess
          simp only [Suspended, hpending, hstore] at hsound ⊢
          exact hsound
        · cases hprocess
          refine ⟨by rw [hstore], fun x hx => ?_, fun _ => .inl⟩
          simpa only [Suspended, hpending] using hx
      exact ⟨.inr ⟨rfl, hnew, (hflag hf).2, hunlock.1⟩, hunlock.2.2, fun x hx => .inr (hunlock.2.1 x hx)⟩
    · cases h
      refine ⟨.inl ⟨rfl, hstore⟩, fun _ => .inl, ?_⟩
      rintro x ⟨r, hr⟩
      by_cases hrb : r = b.reference
      · subst hrb
        rw [Finmap.lookup_insert] at hr
        exact .inl (Option.some.inj hr).symm
      · rw [Finmap.lookup_insert_of_ne _ hrb, hpending] at hr
        exact .inr ⟨r, hr⟩

/-- Blocks are put into the store one by one, each after the blocks that it includes. -/
inductive Inserts : BlockStore → List StatementBlock → BlockStore → Prop
  | nil (s : BlockStore) : Inserts s [] s
  | cons {s s' : BlockStore} {b : StatementBlock} {bs : List StatementBlock}
      (fresh : b.reference ∉ s.index) (stored : ∀ i ∈ b.includes, i ∈ s.index)
      (rest : Inserts (s.insertBlock b) bs s') : Inserts s (b :: bs) s'

namespace Inserts

variable {s s' : BlockStore} {bs : List StatementBlock}

theorem mem_blocks_iff (h : Inserts s bs s') : b ∈ s'.blocks ↔ b ∈ s.blocks ∨ b ∈ bs := by
  induction h with
  | nil => simp
  | cons fresh _ _ ih =>
    rw [ih, BlockStore.mem_blocks_insertBlock fresh, List.mem_cons]
    tauto

theorem mem_blocks (h : Inserts s bs s') (hb : b ∈ s'.blocks) : b ∈ s.blocks ∨ b ∈ bs :=
  h.mem_blocks_iff.mp hb

theorem subset_blocks (h : Inserts s bs s') : s.blocks ⊆ s'.blocks :=
  fun _ hb => h.mem_blocks_iff.mpr (.inl hb)

theorem nodup (h : Inserts s bs s') : bs.Nodup ∧ ∀ b ∈ bs, b ∉ s.blocks := by
  induction h with
  | nil => simp
  | @cons s s' b bs fresh _ _ ih =>
    obtain ⟨hnodup, hnew⟩ := ih
    have hne : ∀ c ∈ bs, c ≠ b ∧ c ∉ s.blocks := fun c hc =>
      not_or.mp fun hor => hnew c hc ((BlockStore.mem_blocks_insertBlock fresh).mpr hor)
    have hb : b ∉ s.blocks := fun hb => fresh (BlockStore.mem_index_iff.mpr ⟨b, hb, rfl⟩)
    exact ⟨List.nodup_cons.mpr ⟨fun hc => (hne b hc).1 rfl, hnodup⟩,
      List.forall_mem_cons.mpr ⟨hb, fun c hc => (hne c hc).2⟩⟩

theorem closed (h : Inserts s bs s') (hclosed : Closed s.blocks) : Closed s'.blocks := by
  induction h with
  | nil => exact hclosed
  | cons fresh stored _ ih =>
    refine ih fun c hc i hi => ?_
    refine BlockStore.mem_index_iff.mp (BlockStore.mem_index_insertBlock.mpr (.inr ?_))
    rcases (BlockStore.mem_blocks_insertBlock fresh).mp hc with rfl | hc
    · exact stored i hi
    · exact BlockStore.mem_index_iff.mpr (hclosed c hc i hi)

theorem ordered (h : Inserts s bs s') {earlier later : List StatementBlock}
    (heq : bs = earlier ++ b :: later) {i : BlockReference} (hi : i ∈ b.includes) :
    ∃ b', b'.reference = i ∧ (b' ∈ s.blocks ∨ b' ∈ earlier) := by
  induction h generalizing earlier with
  | nil => exact absurd heq (by simp)
  | cons fresh stored _ ih =>
    rcases List.cons_eq_append_iff.mp heq with ⟨rfl, hb⟩ | ⟨rest, rfl, hrest⟩
    · cases hb
      obtain ⟨b', hb', hr⟩ := BlockStore.mem_index_iff.mp (stored i hi)
      exact ⟨b', hr, .inl hb'⟩
    · obtain ⟨b', hr, hb'⟩ := ih hrest
      rw [BlockStore.mem_blocks_insertBlock fresh] at hb'
      exact ⟨b', hr, by rw [List.mem_cons]; tauto⟩

theorem append {s₁ : BlockStore} {bs' : List StatementBlock} (h : Inserts s bs s₁)
    (h' : Inserts s₁ bs' s') : Inserts s (bs ++ bs') s' := by
  induction h with
  | nil => exact h'
  | cons fresh stored _ ih => exact .cons fresh stored (ih h')

end Inserts

/-- The loop puts the blocks that it returns into the store. -/
theorem run_sound {fuel : Nat} (h : m.run order fuel blocks = some (m', processed)) :
    Inserts m.blockStore processed m'.blockStore ∧
      (∀ x ∈ processed, x ∈ blocks ∨ m.Suspended x) ∧
      ∀ x, m'.Suspended x → x ∈ blocks ∨ m.Suspended x := by
  induction fuel generalizing m blocks processed with
  | zero =>
    cases blocks with
    | nil =>
      cases h
      exact ⟨.nil _, nofun, fun _ => .inr⟩
    | cons => exact nomatch h
  | succ fuel ih =>
    cases blocks with
    | nil =>
      cases h
      exact ⟨.nil _, nofun, fun _ => .inr⟩
    | cons b blocks =>
      obtain ⟨⟨m₁, blocks₁, processed₁⟩, hstep, h⟩ := Option.bind_eq_some_iff.mp h
      obtain ⟨⟨m₂, rest⟩, hrun, h⟩ := Option.bind_eq_some_iff.mp h
      cases h
      have hsound := step_sound hstep
      obtain ⟨hinserts, hprocessed, hsuspended⟩ := ih hrun
      have hsource : ∀ x, x ∈ blocks₁ ∨ m₁.Suspended x → x ∈ b :: blocks ∨ m.Suspended x := by
        rintro x (hx | hx)
        · exact (hsound.queue x hx).imp_left (List.mem_cons_of_mem b)
        · rcases hsound.suspended x hx with rfl | hx
          · exact .inl List.mem_cons_self
          · exact .inr hx
      refine ⟨?_, fun x hx => ?_, fun x hx => hsource x (hsuspended x hx)⟩
      · rcases hsound.store with ⟨rfl, hstore⟩ | ⟨rfl, hfresh, hstored, hstore⟩
        · rw [hstore] at hinserts
          exact hinserts
        · rw [hstore] at hinserts
          exact .cons hfresh hstored hinserts
      · rcases List.mem_append.mp hx with hx | hx
        · rcases hsound.store with ⟨rfl, -⟩ | ⟨rfl, -⟩
          · exact absurd hx List.not_mem_nil
          · exact .inl (List.mem_singleton.mp hx ▸ List.mem_cons_self)
        · exact hsource x (hprocessed x hx)

end Sound

theorem inv_new (store : BlockStore) (n : Nat) :
    Inv store.blocks ∅ [] (new store n) where
  stored _ := .inl
  keyed := by simp [Keyed, new]
  delivered_iff := by simp
  pending := by simp [new]
  ready := by simp
  frontNodup := List.nodup_nil
  waits := by simp [new, BlockManager.waits, Unmet]
  waiting := by simp [new, Finmap.notMem_empty]
  missing a r := by
    refine iff_of_false ?_ fun ⟨_, ⟨_, _, _, h, _⟩, _⟩ => nomatch h
    by_cases ha : a < n <;> simp [new, missingOf, List.getD_eq_getElem?_getD, ha]

end BlockManager

end CongestionControl.Mysticeti
