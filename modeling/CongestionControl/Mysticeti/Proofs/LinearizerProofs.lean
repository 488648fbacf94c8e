import CongestionControl.Mysticeti.Dag
import CongestionControl.Mysticeti.Linearizer

/-!
# The linearizer outputs every ancestor once

A sub-dag is the causal history of its leader without what was committed before. The traversal reads
the store only at references in that history, so what else the store holds makes no difference.
-/

namespace CongestionControl.Mysticeti

namespace Linearizer

/-! ## The loop over the includes of a block -/

variable {i : BlockReference} {calls : List (BlockStore × List StatementBlock)}

section Traversal

variable {s s' : BlockStore} {history : Set StatementBlock} {l l' : Linearizer}
  {is : List BlockReference} {x : StatementBlock} {buffer news : List StatementBlock}

/-- What the loop over references leaves: the blocks of the history that were not committed have
been put on the buffer. -/
structure Pushed (s : BlockStore) (history : Set StatementBlock) (is : List BlockReference)
    (l l' : Linearizer) (news : List StatementBlock) : Prop where
  committed : ∀ r, r ∈ l'.committed ↔ r ∈ l.committed ∨ r ∈ is
  mem : ∀ c, c ∈ news ↔ c ∈ history ∧ c.reference ∈ is ∧ c.reference ∉ l.committed
  nodup : news.Nodup
  card : news.length + (s.index.keys \ l'.committed).card = (s.index.keys \ l.committed).card

theorem Pushed.cons {l₁ : Linearizer} {news₁ news₂ : List StatementBlock}
    (h₁ : Pushed s history [i] l l₁ news₁) (h₂ : Pushed s history is l₁ l' news₂) :
    Pushed s history (i :: is) l l' (news₂ ++ news₁) := by
  refine ⟨fun r => ?_, fun c => ?_, ?_, ?_⟩
  · rw [h₂.committed, h₁.committed, List.mem_singleton, List.mem_cons, or_assoc]
  · rw [List.mem_append, h₂.mem, h₁.mem, h₁.committed, List.mem_singleton, List.mem_cons]
    tauto
  · refine h₂.nodup.append h₁.nodup fun c hc hc' => ?_
    exact ((h₂.mem c).mp hc).2.2 ((h₁.committed _).mpr (.inr ((h₁.mem c).mp hc').2.1))
  · rw [List.length_append, ← h₁.card, ← h₂.card]
    omega

theorem pushInclude_eq (hs : history ⊆ s.blocks) {c : StatementBlock} (hc : c ∈ history)
    (l : Linearizer) (buffer : List StatementBlock) :
    ∃ l' news, pushInclude s (l, buffer) c.reference = some (l', news ++ buffer) ∧
      Pushed s history [c.reference] l l' news := by
  have hlook : s.getBlock c.reference = some c := hs hc
  unfold pushInclude
  simp only [hlook, Option.map_some]
  by_cases hcom : c.reference ∈ l.committed
  · rw [if_pos hcom]
    refine ⟨l, [], rfl, fun r => ?_, fun d => ?_, List.nodup_nil, by simp⟩
    · exact (or_iff_left_of_imp fun hr => List.mem_singleton.mp hr ▸ hcom).symm
    · refine iff_of_false List.not_mem_nil fun ⟨_, hd, hnot⟩ => hnot ?_
      exact List.mem_singleton.mp hd ▸ hcom
  · rw [if_neg hcom]
    refine ⟨_, [c], rfl, fun r => ?_, fun d => ?_, List.nodup_singleton c, ?_⟩
    · rw [Finset.mem_insert, List.mem_singleton, or_comm]
    · rw [List.mem_singleton, List.mem_singleton]
      constructor
      · rintro rfl
        exact ⟨hc, rfl, hcom⟩
      · rintro ⟨hd, hr, -⟩
        have hlook' : s.getBlock d.reference = some d := hs hd
        rw [hr, hlook] at hlook'
        exact (Option.some.inj hlook').symm
    · rw [Finset.sdiff_insert, Nat.add_comm]
      refine Finset.card_erase_add_one (Finset.mem_sdiff.mpr ⟨?_, hcom⟩)
      exact Finmap.mem_keys.mpr (Finmap.mem_iff.mpr ⟨c, hlook⟩)

theorem pushIncludes_eq (hs : history ⊆ s.blocks) (his : ∀ i ∈ is, ∃ c ∈ history, c.reference = i)
    (l : Linearizer) (buffer : List StatementBlock) :
    ∃ l' news, is.foldlM (pushInclude s) (l, buffer) = some (l', news ++ buffer) ∧
      Pushed s history is l l' news := by
  induction is generalizing l buffer with
  | nil => exact ⟨l, [], rfl, by simp, by simp, List.nodup_nil, by simp⟩
  | cons i is ih =>
    obtain ⟨c, hc, rfl⟩ := his i List.mem_cons_self
    obtain ⟨l₁, news₁, heq₁, h₁⟩ := pushInclude_eq hs hc l buffer
    obtain ⟨l', news₂, heq₂, h₂⟩ :=
      ih (fun j hj => his j (List.mem_cons_of_mem _ hj)) l₁ (news₁ ++ buffer)
    refine ⟨l', news₂ ++ news₁, ?_, h₁.cons h₂⟩
    rw [List.foldlM_cons, heq₁, List.append_assoc]
    exact heq₂

theorem pushIncludes_congr (h : ∀ i ∈ is, s.getBlock i = s'.getBlock i)
    (acc : Linearizer × List StatementBlock) :
    is.foldlM (pushInclude s) acc = is.foldlM (pushInclude s') acc := by
  induction is generalizing acc with
  | nil => rfl
  | cons i is ih =>
    have hi : pushInclude s acc i = pushInclude s' acc i := by
      rw [pushInclude, pushInclude, h i List.mem_cons_self]
    rw [List.foldlM_cons, hi]
    exact bind_congr fun acc => ih (fun j hj => h j (List.mem_cons_of_mem i hj)) acc

/-! ## The loop over the buffer -/

/-- What holds while the buffer is drained: a committed block of the history is still in the buffer,
or its includes are committed. -/
structure Draining (history : Set StatementBlock) (l : Linearizer) (buffer : List StatementBlock) :
    Prop where
  sub : ∀ b ∈ buffer, b ∈ history ∧ b.reference ∈ l.committed
  nodup : buffer.Nodup
  closed : ∀ b ∈ history, b.reference ∈ l.committed →
    b ∈ buffer ∨ ∀ i ∈ b.includes, i ∈ l.committed

theorem Draining.step (h : Draining history l (x :: buffer))
    (hp : Pushed s history x.includes l l' news) :
    Draining history l' (news ++ buffer) := by
  have hmono : ∀ r, r ∈ l.committed → r ∈ l'.committed := fun r hr => (hp.committed r).mpr (.inl hr)
  refine ⟨fun b hb => ?_, ?_, fun b hb hcom => ?_⟩
  · rcases List.mem_append.mp hb with hb | hb
    · obtain ⟨hhist, hinc, -⟩ := (hp.mem b).mp hb
      exact ⟨hhist, (hp.committed _).mpr (.inr hinc)⟩
    · exact (h.sub b (List.mem_cons_of_mem x hb)).imp_right (hmono _)
  · refine hp.nodup.append (List.nodup_cons.mp h.nodup).2 fun b hb hb' => ?_
    exact ((hp.mem b).mp hb).2.2 (h.sub b (List.mem_cons_of_mem x hb')).2
  · by_cases hold : b.reference ∈ l.committed
    · rcases h.closed b hb hold with hbuf | hinc
      · rcases List.mem_cons.mp hbuf with rfl | hbuf
        · exact .inr fun i hi => (hp.committed i).mpr (.inr hi)
        · exact .inl (List.mem_append_right news hbuf)
      · exact .inr fun i hi => hmono i (hinc i hi)
    · have hinc := ((hp.committed _).mp hcom).resolve_left hold
      exact .inl (List.mem_append_left buffer ((hp.mem b).mpr ⟨hb, hinc, hold⟩))

/-- What draining the buffer leaves: the blocks that it takes are those of the buffer and those that
were not committed. -/
structure Drained (history : Set StatementBlock) (l l' : Linearizer)
    (buffer out : List StatementBlock) : Prop where
  nodup : out.Nodup
  buffer_subset : ∀ b ∈ buffer, b ∈ out
  mem : ∀ b ∈ out, b ∈ history ∧ (b ∈ buffer ∨ b.reference ∉ l.committed)
  committed : ∀ r, r ∈ l'.committed ↔ r ∈ l.committed ∨ ∃ b ∈ out, b.reference = r

theorem Drained.cons {out : List StatementBlock} {l₁ : Linearizer} (hclosed : Closed history)
    (h : Draining history l (x :: buffer)) (hp : Pushed s history x.includes l l₁ news)
    (hd : Drained history l₁ l' (news ++ buffer) out) :
    Drained history l l' (x :: buffer) (x :: out) := by
  obtain ⟨hx, hxcom⟩ := h.sub x List.mem_cons_self
  have hmono : ∀ r, r ∈ l.committed → r ∈ l₁.committed := fun r hr => (hp.committed r).mpr (.inl hr)
  refine ⟨List.nodup_cons.mpr ⟨fun hmem => ?_, hd.nodup⟩, fun b hb => ?_, fun b hb => ?_,
    fun r => ?_⟩
  · rcases (hd.mem x hmem).2 with hbuf | hnot
    · rcases List.mem_append.mp hbuf with hnew | hbuf
      · exact ((hp.mem x).mp hnew).2.2 hxcom
      · exact (List.nodup_cons.mp h.nodup).1 hbuf
    · exact hnot (hmono _ hxcom)
  · rcases List.mem_cons.mp hb with rfl | hb
    · exact List.mem_cons_self
    · exact List.mem_cons_of_mem x (hd.buffer_subset b (List.mem_append_right news hb))
  · rcases List.mem_cons.mp hb with rfl | hb
    · exact ⟨hx, .inl List.mem_cons_self⟩
    · obtain ⟨hhist, hb | hb⟩ := hd.mem b hb
      · rcases List.mem_append.mp hb with hb | hb
        · exact ⟨hhist, .inr ((hp.mem b).mp hb).2.2⟩
        · exact ⟨hhist, .inl (List.mem_cons_of_mem x hb)⟩
      · exact ⟨hhist, .inr fun hold => hb (hmono _ hold)⟩
  · rw [hd.committed, hp.committed]
    constructor
    · rintro ((hr | hr) | ⟨b, hb, rfl⟩)
      · exact .inl hr
      · obtain ⟨c, hc, rfl⟩ := hclosed x hx r hr
        by_cases hold : c.reference ∈ l.committed
        · exact .inl hold
        · have hnew := (hp.mem c).mpr ⟨hc, hr, hold⟩
          have hout := hd.buffer_subset c (List.mem_append_left buffer hnew)
          exact .inr ⟨c, List.mem_cons_of_mem x hout, rfl⟩
      · exact .inr ⟨b, List.mem_cons_of_mem x hb, rfl⟩
    · rintro (hr | ⟨b, hb, rfl⟩)
      · exact .inl (.inl hr)
      · rcases List.mem_cons.mp hb with rfl | hb
        · exact .inl (.inl hxcom)
        · exact .inr ⟨b, hb, rfl⟩

theorem drain_eq (hclosed : Closed history) (hs : history ⊆ s.blocks) (fuel : Nat)
    (h : Draining history l buffer)
    (hfuel : buffer.length + (s.index.keys \ l.committed).card ≤ fuel) :
    ∃ l' out, drain s fuel l buffer = some (l', out) ∧ Draining history l' [] ∧
      Drained history l l' buffer out := by
  have hnil : ∀ l : Linearizer, Drained history l l [] [] := fun l =>
    ⟨List.nodup_nil, by simp, by simp, by simp⟩
  induction fuel generalizing l buffer with
  | zero =>
    obtain rfl : buffer = [] := List.length_eq_zero_iff.mp (by omega)
    exact ⟨l, [], rfl, h, hnil l⟩
  | succ fuel ih =>
    rcases buffer with - | ⟨x, buffer⟩
    · exact ⟨l, [], rfl, h, hnil l⟩
    · have hx := (h.sub x List.mem_cons_self).1
      obtain ⟨l₁, news, hpush, hp⟩ := pushIncludes_eq hs (hclosed x hx) l buffer
      have hcard := hp.card
      rw [List.length_cons] at hfuel
      obtain ⟨l', out, hdrain, h', hd⟩ := ih (h.step hp) (by rw [List.length_append]; omega)
      refine ⟨l', x :: out, ?_, h', .cons hclosed h hp hd⟩
      rw [drain, hpush]
      change (drain s fuel l₁ (news ++ buffer)).bind _ = _
      rw [hdrain]
      rfl

theorem drain_unique (hclosed : Closed history) (hs : history ⊆ s.blocks)
    (hs' : history ⊆ s'.blocks) {fuel fuel' : Nat} (hbuf : ∀ b ∈ buffer, b ∈ history)
    {r r' : Linearizer × List StatementBlock} (h : drain s fuel l buffer = some r)
    (h' : drain s' fuel' l buffer = some r') : r = r' := by
  induction fuel generalizing fuel' l buffer r r' with
  | zero =>
    rcases buffer with - | ⟨x, buffer⟩
    · rw [drain] at h h'
      exact Option.some.inj (h.symm.trans h')
    · cases h
  | succ fuel ih =>
    rcases buffer with - | ⟨x, buffer⟩
    · rw [drain] at h h'
      exact Option.some.inj (h.symm.trans h')
    · rcases fuel' with - | fuel'
      · cases h'
      · have hx := hbuf x List.mem_cons_self
        have hsame : ∀ i ∈ x.includes, s.getBlock i = s'.getBlock i := by
          intro i hi
          obtain ⟨c, hc, rfl⟩ := hclosed x hx i hi
          exact (hs hc).trans (hs' hc).symm
        obtain ⟨l₁, news, hpush, hp⟩ := pushIncludes_eq hs (hclosed x hx) l buffer
        rw [drain] at h h'
        rw [← pushIncludes_congr hsame] at h'
        rw [hpush] at h h'
        change (drain s fuel l₁ (news ++ buffer)).bind _ = _ at h
        change (drain s' fuel' l₁ (news ++ buffer)).bind _ = _ at h'
        obtain ⟨⟨l₂, out⟩, hr, h⟩ := Option.bind_eq_some_iff.mp h
        obtain ⟨⟨l₂', out'⟩, hr', h'⟩ := Option.bind_eq_some_iff.mp h'
        have hbuf' : ∀ b ∈ news ++ buffer, b ∈ history := by
          intro b hb
          rcases List.mem_append.mp hb with hb | hb
          · exact ((hp.mem b).mp hb).1
          · exact hbuf b (List.mem_cons_of_mem x hb)
        cases ih hbuf' hr hr'
        exact Option.some.inj (h.symm.trans h')

end Traversal

/-! ## One leader -/

section Leaders

variable {dag : Dag} {s s' : BlockStore} {l : Linearizer} {leader : StatementBlock}
  {prev leaders : List StatementBlock} {d : CommittedSubDag} {ds : List CommittedSubDag}
  {pairs : List (BlockStore × StatementBlock)}

/-- The sub-dag of a leader after the leaders `prev`. -/
structure SubDag (dag : Dag) (prev : List StatementBlock) (leader : StatementBlock)
    (d : CommittedSubDag) : Prop where
  anchor : d.anchor = leader.reference
  nodup : d.blocks.Nodup
  mem : ∀ b, b ∈ d.blocks ↔ b ∈ dag.history leader ∧ ∀ p ∈ prev, b ∉ dag.history p
  sorted : d.blocks.Pairwise fun b c => b.round ≤ c.round

def Committed (dag : Dag) (prev : List StatementBlock) (l : Linearizer) : Prop :=
  ∀ b ∈ dag.blocks, b.reference ∈ l.committed ↔ ∃ p ∈ prev, b ∈ dag.history p

theorem sort_subDag (hanchor : d.anchor = leader.reference) (hnodup : d.blocks.Nodup)
    (hmem : ∀ b, b ∈ d.blocks ↔ b ∈ dag.history leader ∧ ∀ p ∈ prev, b ∉ dag.history p) :
    SubDag dag prev leader d.sort := by
  have hperm := List.perm_insertionSort (fun x y : StatementBlock => x.round ≤ y.round) d.blocks
  exact ⟨hanchor, hperm.nodup_iff.mpr hnodup, fun b => hperm.mem_iff.trans (hmem b),
    List.pairwise_insertionSort _ _⟩

theorem collectSubDag_eq (hclosed : Closed dag.blocks) (hleader : leader ∈ dag.blocks)
    (hs : dag.history leader ⊆ s.blocks) (hprev : ∀ p ∈ prev, p ∈ dag.blocks)
    (hcom : Committed dag prev l) (hnew : ∀ p ∈ prev, leader ∉ dag.history p) :
    ∃ l' d, l.collectSubDag s leader = some (l', d) ∧ Committed dag (prev ++ [leader]) l' ∧
      SubDag dag prev leader d.sort := by
  have hnot : leader.reference ∉ l.committed := by
    rw [hcom leader hleader]
    exact fun ⟨p, hp, hmem⟩ => hnew p hp hmem
  have hdag : ∀ b ∈ dag.history leader, b ∈ dag.blocks :=
    fun b hb => Dag.mem_blocks_of_mem_history hleader hb
  have hhist := Dag.closed_history hclosed hleader
  have hstart : Draining (dag.history leader) ⟨insert leader.reference l.committed⟩ [leader] := by
    refine ⟨fun b hb => ?_, List.nodup_singleton leader, fun b hb hin => ?_⟩
    · rw [List.mem_singleton.mp hb]
      exact ⟨Dag.self_mem_history leader, Finset.mem_insert_self _ _⟩
    · rcases Finset.mem_insert.mp hin with hr | hold
      · exact .inl (List.mem_singleton.mpr (dag.unique b (hdag b hb) leader hleader hr))
      · -- What a committed block includes was committed with it.
        refine .inr fun i hi => Finset.mem_insert_of_mem ?_
        obtain ⟨p, hp, hbp⟩ := (hcom b (hdag b hb)).mp hold
        obtain ⟨c, hc, rfl⟩ := Dag.closed_history hclosed (hprev p hp) b hbp i hi
        exact (hcom c (Dag.mem_blocks_of_mem_history (hprev p hp) hc)).mpr ⟨p, hp, hc⟩
  have hfuel : [leader].length + (s.index.keys \ insert leader.reference l.committed).card ≤
      s.index.keys.card + 1 := by
    rw [Nat.add_comm]
    exact Nat.succ_le_succ (Finset.card_le_card Finset.sdiff_subset)
  obtain ⟨l', out, hdrain, hend, hd⟩ := drain_eq hhist hs _ hstart hfuel
  -- The committed set contains the leader and is closed, so it contains the history.
  have hall : ∀ b ∈ dag.history leader, b.reference ∈ l'.committed := by
    intro b hb
    induction hb with
    | refl => exact (hd.committed _).mpr (.inl (Finset.mem_insert_self _ _))
    | tail hb hc ih => exact ((hend.closed _ hb ih).resolve_left List.not_mem_nil) _ hc.2
  have hout : ∀ b ∈ dag.blocks, (∃ c ∈ out, c.reference = b.reference) ↔ b ∈ out := by
    refine fun b hb => ⟨?_, fun h => ⟨b, h, rfl⟩⟩
    rintro ⟨c, hc, hr⟩
    exact dag.unique c (hdag c (hd.mem c hc).1) b hb hr ▸ hc
  refine ⟨l', ⟨leader.reference, out⟩, ?_, fun b hb => ?_, sort_subDag rfl hd.nodup fun b => ?_⟩
  · rw [collectSubDag, if_neg hnot, hdrain]
    rfl
  · rw [hd.committed, hout b hb, Finset.mem_insert, hcom b hb]
    simp only [List.mem_append, List.mem_singleton]
    constructor
    · rintro ((hr | ⟨p, hp, hbp⟩) | hmem)
      · exact ⟨leader, .inr rfl, dag.unique b hb leader hleader hr ▸ Dag.self_mem_history b⟩
      · exact ⟨p, .inl hp, hbp⟩
      · exact ⟨leader, .inr rfl, (hd.mem b hmem).1⟩
    · rintro ⟨p, hp | rfl, hbp⟩
      · exact .inl (.inr ⟨p, hp, hbp⟩)
      · rcases (hd.committed _).mp (hall b hbp) with hin | hex
        · exact .inl ((Finset.mem_insert.mp hin).imp_right (hcom b hb).mp)
        · exact .inr ((hout b hb).mp hex)
  · constructor
    · intro hmem
      obtain ⟨hb, hor⟩ := hd.mem b hmem
      refine ⟨hb, fun p hp hbp => ?_⟩
      rcases hor with heq | hfresh
      · exact hnew p hp (List.mem_singleton.mp heq ▸ hbp)
      · exact hfresh (Finset.mem_insert_of_mem ((hcom b (hdag b hb)).mpr ⟨p, hp, hbp⟩))
    · rintro ⟨hb, hfresh⟩
      rcases (hd.committed _).mp (hall b hb) with hin | hex
      · rcases Finset.mem_insert.mp hin with hr | hold
        · rw [dag.unique b (hdag b hb) leader hleader hr]
          exact hd.buffer_subset leader List.mem_cons_self
        · obtain ⟨p, hp, hbp⟩ := (hcom b (hdag b hb)).mp hold
          exact absurd hbp (hfresh p hp)
      · exact (hout b (hdag b hb)).mp hex

theorem collectSubDag_unique (hclosed : Closed dag.blocks) (hleader : leader ∈ dag.blocks)
    (hs : dag.history leader ⊆ s.blocks) (hs' : dag.history leader ⊆ s'.blocks)
    {r r' : Linearizer × CommittedSubDag} (h : l.collectSubDag s leader = some r)
    (h' : l.collectSubDag s' leader = some r') : r = r' := by
  unfold collectSubDag at h h'
  split_ifs at h h'
  obtain ⟨x, hx, rfl⟩ := Option.map_eq_some_iff.mp h
  obtain ⟨x', hx', rfl⟩ := Option.map_eq_some_iff.mp h'
  have hbuf : ∀ b ∈ [leader], b ∈ dag.history leader :=
    fun b hb => List.mem_singleton.mp hb ▸ Dag.self_mem_history b
  rw [drain_unique (Dag.closed_history hclosed hleader) hs hs' hbuf hx hx']

/-! ## A sequence of leaders -/

def commitEach :
    Linearizer → List (BlockStore × StatementBlock) → Option (Linearizer × List CommittedSubDag)
  | l, [] => some (l, [])
  | l, (s, leader) :: pairs => do
    let (l, d) ← l.collectSubDag s leader
    let (l, ds) ← commitEach l pairs
    return (l, d.sort :: ds)

theorem handleCommit_of_commitEach {l' : Linearizer} {rest : List (BlockStore × StatementBlock)}
    (h : commitEach l (leaders.map (s, ·) ++ rest) = some (l', ds)) :
    ∃ l₁ ds₁ ds₂, handleCommit s l leaders = some (l₁, ds₁) ∧
      commitEach l₁ rest = some (l', ds₂) ∧ ds = ds₁ ++ ds₂ := by
  induction leaders generalizing l ds with
  | nil => exact ⟨l, [], ds, rfl, h, rfl⟩
  | cons leader leaders ih =>
    obtain ⟨⟨l₁, d⟩, hd, h⟩ := Option.bind_eq_some_iff.mp h
    obtain ⟨⟨l₂, ds'⟩, hds, h⟩ := Option.bind_eq_some_iff.mp h
    cases h
    obtain ⟨l₃, ds₁, ds₂, h₁, h₂, rfl⟩ := ih hds
    refine ⟨l₃, d.sort :: ds₁, ds₂, ?_, h₂, rfl⟩
    rw [handleCommit, hd]
    change (handleCommit s l₁ leaders).bind _ = _
    rw [h₁]
    rfl

def leaderPairs (calls : List (BlockStore × List StatementBlock)) :
    List (BlockStore × StatementBlock) :=
  calls.flatMap fun call => call.2.map (call.1, ·)

theorem handleCommits_of_commitEach {l' : Linearizer}
    (h : commitEach l (leaderPairs calls) = some (l', ds)) :
    ∃ outs, handleCommits l calls = some (l', outs) ∧ outs.flatten = ds := by
  induction calls generalizing l ds with
  | nil =>
    cases h
    exact ⟨[], rfl, rfl⟩
  | cons call calls ih =>
    obtain ⟨l₁, ds₁, ds₂, h₁, h₂, rfl⟩ := handleCommit_of_commitEach h
    obtain ⟨outs, houts, rfl⟩ := ih h₂
    refine ⟨ds₁ :: outs, ?_, rfl⟩
    rw [handleCommits, h₁]
    change (handleCommits l₁ calls).bind _ = _
    rw [houts]
    rfl

inductive Linearized (dag : Dag) :
    List StatementBlock → List StatementBlock → List CommittedSubDag → Prop
  | nil (prev : List StatementBlock) : Linearized dag prev [] []
  | cons {prev leaders : List StatementBlock} {leader : StatementBlock} {d : CommittedSubDag}
      {ds : List CommittedSubDag} (head : SubDag dag prev leader d)
      (tail : Linearized dag (prev ++ [leader]) leaders ds) :
      Linearized dag prev (leader :: leaders) (d :: ds)

theorem commitEach_eq (hclosed : Closed dag.blocks)
    (hblocks : ∀ b ∈ prev ++ pairs.map Prod.snd, b ∈ dag.blocks)
    (hstores : ∀ pair ∈ pairs, dag.history pair.2 ⊆ pair.1.blocks)
    (hnodup : (prev ++ pairs.map Prod.snd).Nodup)
    (hrounds : (prev ++ pairs.map Prod.snd).Pairwise fun b c => b.round ≤ c.round)
    (hcom : Committed dag prev l) :
    ∃ l' ds, commitEach l pairs = some (l', ds) ∧
      Linearized dag prev (pairs.map Prod.snd) ds := by
  induction pairs generalizing l prev with
  | nil => exact ⟨l, [], rfl, .nil prev⟩
  | cons pair pairs ih =>
    obtain ⟨s, leader⟩ := pair
    rw [List.map_cons] at hblocks hnodup hrounds ⊢
    have hleader : leader ∈ dag.blocks := hblocks leader (by simp)
    have hprev : ∀ p ∈ prev, p ∈ dag.blocks := fun p hp => hblocks p (by simp [hp])
    -- An ancestor of an earlier leader has a lower round than this one or is that leader.
    have hnew : ∀ p ∈ prev, leader ∉ dag.history p := by
      intro p hp hmem
      rcases Dag.eq_or_round_lt_of_mem_history (hprev p hp) hmem with rfl | hlt
      · exact (List.nodup_append.mp hnodup).2.2 leader hp leader List.mem_cons_self rfl
      · have hle := (List.pairwise_append.mp hrounds).2.2 p hp leader List.mem_cons_self
        exact absurd hlt (Nat.not_lt.mpr hle)
    obtain ⟨l₁, d, hcollect, hcom₁, hd⟩ := collectSubDag_eq hclosed hleader
      (hstores _ List.mem_cons_self) hprev hcom hnew
    rw [List.append_cons] at hblocks hnodup hrounds
    obtain ⟨l', ds, heach, hlin⟩ := ih hblocks
      (fun pair hpair => hstores pair (List.mem_cons_of_mem _ hpair)) hnodup hrounds hcom₁
    refine ⟨l', d.sort :: ds, ?_, .cons hd hlin⟩
    rw [commitEach, hcollect]
    change (commitEach l₁ pairs).bind _ = _
    rw [heach]
    rfl

theorem commitEach_unique (hclosed : Closed dag.blocks)
    {pairs' : List (BlockStore × StatementBlock)} (hsame : pairs.map Prod.snd = pairs'.map Prod.snd)
    (hblocks : ∀ b ∈ pairs.map Prod.snd, b ∈ dag.blocks)
    (hstores : ∀ pair ∈ pairs, dag.history pair.2 ⊆ pair.1.blocks)
    (hstores' : ∀ pair ∈ pairs', dag.history pair.2 ⊆ pair.1.blocks)
    {r r' : Linearizer × List CommittedSubDag} (h : commitEach l pairs = some r)
    (h' : commitEach l pairs' = some r') : r = r' := by
  induction pairs generalizing l pairs' r r' with
  | nil =>
    obtain rfl : pairs' = [] := List.map_eq_nil_iff.mp hsame.symm
    exact Option.some.inj (h.symm.trans h')
  | cons pair pairs ih =>
    obtain ⟨s, leader⟩ := pair
    obtain ⟨pair', pairs', rfl, hpair, hrest⟩ := List.map_eq_cons_iff.mp hsame.symm
    obtain ⟨s', leader'⟩ := pair'
    obtain rfl : leader' = leader := hpair
    obtain ⟨⟨l₁, d⟩, hd, h⟩ := Option.bind_eq_some_iff.mp h
    obtain ⟨⟨l₁', d'⟩, hd', h'⟩ := Option.bind_eq_some_iff.mp h'
    have hs : dag.history leader' ⊆ s.blocks := hstores (s, leader') List.mem_cons_self
    have hs' : dag.history leader' ⊆ s'.blocks := hstores' (s', leader') List.mem_cons_self
    cases collectSubDag_unique hclosed (hblocks _ List.mem_cons_self) hs hs' hd hd'
    obtain ⟨x, hx, h⟩ := Option.bind_eq_some_iff.mp h
    obtain ⟨x', hx', h'⟩ := Option.bind_eq_some_iff.mp h'
    cases ih hrest.symm (fun b hb => hblocks b (List.mem_cons_of_mem _ hb))
      (fun pair hpair => hstores pair (List.mem_cons_of_mem _ hpair))
      (fun pair hpair => hstores' pair (List.mem_cons_of_mem _ hpair)) hx hx'
    exact Option.some.inj (h.symm.trans h')

/-! ## What the sub-dags hold together -/

namespace Linearized

variable {ds : List CommittedSubDag}

section

variable (h : Linearized dag prev leaders ds)

include h

theorem anchors :
    ds.map CommittedSubDag.anchor = leaders.map StatementBlock.reference := by
  induction h with
  | nil => rfl
  | cons head _ ih => rw [List.map_cons, List.map_cons, head.anchor, ih]

theorem mem_flatMap (b : StatementBlock) :
    b ∈ ds.flatMap CommittedSubDag.blocks ↔
      (∃ leader ∈ leaders, b ∈ dag.history leader) ∧ ∀ p ∈ prev, b ∉ dag.history p := by
  induction h with
  | nil => simp
  | @cons prev leaders leader d ds head _ ih =>
    rw [List.flatMap_cons, List.mem_append, head.mem, ih]
    simp only [List.mem_append, List.mem_cons, List.not_mem_nil, or_false, exists_eq_or_imp]
    by_cases hb : b ∈ dag.history leader
    · simp [hb, or_imp, forall_and]
    · simp only [hb, false_and, false_or, or_imp, forall_and, forall_eq, not_false_eq_true, and_true]

theorem nodup :
    (ds.flatMap CommittedSubDag.blocks).Nodup := by
  induction h with
  | nil => exact List.nodup_nil
  | @cons prev leaders leader d ds head tail ih =>
    refine head.nodup.append ih fun b hb hb' => ?_
    exact ((tail.mem_flatMap b).mp hb').2 leader (by simp) ((head.mem b).mp hb).1

theorem getElem? {k : Nat} (hd : ds[k]? = some d) (hleader : leaders[k]? = some leader) :
    SubDag dag (prev ++ leaders.take k) leader d := by
  induction h generalizing k with
  | nil => cases hd
  | cons head _ ih =>
    rcases k with - | k
    · cases hd
      cases hleader
      simpa using head
    · have := ih hd hleader
      rwa [List.append_assoc, List.singleton_append] at this

end

theorem causal (hclosed : Closed dag.blocks) (h : Linearized dag prev leaders ds)
    (hleaders : ∀ b ∈ leaders, b ∈ dag.blocks) {earlier later : List StatementBlock}
    {b : StatementBlock} (hsplit : ds.flatMap CommittedSubDag.blocks = earlier ++ b :: later)
    (hi : i ∈ b.includes) :
    ∃ c, c.reference = i ∧ (c ∈ earlier ∨ ∃ p ∈ prev, c ∈ dag.history p) := by
  induction h generalizing earlier with
  | nil => simp at hsplit
  | @cons prev leaders leader d ds head tail ih =>
    have hleader := hleaders leader List.mem_cons_self
    -- An ancestor of this leader is in its sub-dag, or an earlier leader has it.
    have hor : ∀ c ∈ dag.history leader, c ∈ d.blocks ∨ ∃ p ∈ prev, c ∈ dag.history p := by
      intro c hc
      by_cases hold : ∃ p ∈ prev, c ∈ dag.history p
      · exact .inr hold
      · exact .inl ((head.mem c).mpr ⟨hc, fun p hp hcp => hold ⟨p, hp, hcp⟩⟩)
    have hcases : (∃ earlier', earlier = d.blocks ++ earlier' ∧
          ds.flatMap CommittedSubDag.blocks = earlier' ++ b :: later) ∨
        ∃ later', d.blocks = earlier ++ b :: later' := by
      rw [List.flatMap_cons, List.append_eq_append_iff] at hsplit
      rcases hsplit with h | ⟨rest, hblocks, hrest⟩
      · exact .inl h
      · rcases rest with - | ⟨x, rest⟩
        · exact .inl ⟨[], by simpa using hblocks.symm, hrest.symm⟩
        · cases hrest
          exact .inr ⟨rest, hblocks⟩
    rcases hcases with ⟨earlier', rfl, hrest⟩ | ⟨later', hblocks⟩
    · obtain ⟨c, hc, hmem | ⟨p, hp, hcp⟩⟩ :=
        ih (fun b hb => hleaders b (List.mem_cons_of_mem _ hb)) hrest
      · exact ⟨c, hc, .inl (List.mem_append_right _ hmem)⟩
      · rcases List.mem_append.mp hp with hp | hp
        · exact ⟨c, hc, .inr ⟨p, hp, hcp⟩⟩
        · rw [List.mem_singleton.mp hp] at hcp
          exact ⟨c, hc, (hor c hcp).imp_left (List.mem_append_left _)⟩
    · have hb : b ∈ dag.history leader := ((head.mem b).mp (hblocks ▸ by simp)).1
      obtain ⟨c, hc, rfl⟩ := Dag.closed_history hclosed hleader b hb i hi
      refine ⟨c, rfl, (hor c hc).imp_left fun hmem => ?_⟩
      -- In its own sub-dag the include stands before the block, as its round is lower.
      have hlt : c.round < b.round :=
        dag.lower b (Dag.mem_blocks_of_mem_history hleader hb) _ hi
      have hsorted := head.sorted
      rw [hblocks] at hmem hsorted
      rcases List.mem_append.mp hmem with hmem | hmem
      · exact hmem
      · have hle : b.round ≤ c.round := by
          rcases List.mem_cons.mp hmem with rfl | hmem
          · exact Nat.le_refl _
          · exact List.rel_of_pairwise_cons (List.pairwise_append.mp hsorted).2.1 hmem
        exact absurd hlt (Nat.not_lt.mpr hle)

end Linearized

end Leaders

theorem map_snd_leaderPairs (calls : List (BlockStore × List StatementBlock)) :
    (leaderPairs calls).map Prod.snd = calls.flatMap Prod.snd := by
  simp [leaderPairs, List.map_flatMap, Function.comp_def]

theorem history_leaderPairs {dag : Dag}
    (h : ∀ call ∈ calls, ∀ leader ∈ call.2, dag.history leader ⊆ call.1.blocks) :
    ∀ pair ∈ leaderPairs calls, dag.history pair.2 ⊆ pair.1.blocks := by
  intro pair hpair
  obtain ⟨call, hcall, hmem⟩ := List.mem_flatMap.mp hpair
  obtain ⟨leader, hleader, rfl⟩ := List.mem_map.mp hmem
  exact h call hcall leader hleader

/-- Distinct leaders with non-decreasing rounds are expanded into sub-dags that hold their causal
histories, every block once and after its includes. The batches in which the leaders are passed and
the blocks of the stores outside these histories make no difference. -/
theorem handleCommits_exact (dag : Dag) (hclosed : Closed dag.blocks)
    (calls : List (BlockStore × List StatementBlock))
    (hleaders : ∀ leader ∈ calls.flatMap Prod.snd, leader ∈ dag.blocks)
    (hnodup : (calls.flatMap Prod.snd).Nodup)
    (hrounds : (calls.flatMap Prod.snd).Pairwise fun b c => b.round ≤ c.round)
    (hstores : ∀ call ∈ calls, ∀ leader ∈ call.2, dag.history leader ⊆ call.1.blocks) :
    ∃ l outs, handleCommits new calls = some (l, outs) ∧
      outs.flatten.map CommittedSubDag.anchor =
        (calls.flatMap Prod.snd).map StatementBlock.reference ∧
      (outs.flatten.flatMap CommittedSubDag.blocks).Nodup ∧
      (∀ b, b ∈ outs.flatten.flatMap CommittedSubDag.blocks ↔
        ∃ leader ∈ calls.flatMap Prod.snd, b ∈ dag.history leader) ∧
      (∀ earlier b later, outs.flatten.flatMap CommittedSubDag.blocks = earlier ++ b :: later →
        ∀ i ∈ b.includes, ∃ c ∈ earlier, c.reference = i) ∧
      (∀ (k : Nat) (d : CommittedSubDag) (leader : StatementBlock), outs.flatten[k]? = some d →
        (calls.flatMap Prod.snd)[k]? = some leader → ∀ b, b ∈ d.blocks ↔
          b ∈ dag.history leader ∧
            ∀ p ∈ (calls.flatMap Prod.snd).take k, b ∉ dag.history p) ∧
      ∀ calls' : List (BlockStore × List StatementBlock),
        calls'.flatMap Prod.snd = calls.flatMap Prod.snd →
        (∀ call ∈ calls', ∀ leader ∈ call.2, dag.history leader ⊆ call.1.blocks) →
        ∃ l' outs', handleCommits new calls' = some (l', outs') ∧ outs'.flatten = outs.flatten := by
  have hrun : ∀ calls' : List (BlockStore × List StatementBlock),
      calls'.flatMap Prod.snd = calls.flatMap Prod.snd →
      (∀ call ∈ calls', ∀ leader ∈ call.2, dag.history leader ⊆ call.1.blocks) →
      ∃ l ds, commitEach new (leaderPairs calls') = some (l, ds) ∧
        Linearized dag [] (calls.flatMap Prod.snd) ds := by
    intro calls' hsame hstores'
    rw [← hsame, ← map_snd_leaderPairs] at hleaders hnodup hrounds ⊢
    exact commitEach_eq hclosed hleaders (history_leaderPairs hstores') hnodup hrounds
      fun b _ => by simp [new]
  obtain ⟨l, ds, heach, hlin⟩ := hrun calls rfl hstores
  obtain ⟨outs, houts, rfl⟩ := handleCommits_of_commitEach heach
  refine ⟨l, outs, houts, hlin.anchors, hlin.nodup, fun b => ?_, fun earlier b later hsplit i hi => ?_,
    fun k d leader hd hleader b => ?_, fun calls' hsame hstores' => ?_⟩
  · rw [hlin.mem_flatMap]
    simp
  · obtain ⟨c, hc, hmem | ⟨p, hp, -⟩⟩ := hlin.causal hclosed hleaders hsplit hi
    · exact ⟨c, hmem, hc⟩
    · cases hp
  · exact (hlin.getElem? hd hleader).mem b
  · obtain ⟨l', ds', heach', -⟩ := hrun calls' hsame hstores'
    obtain ⟨outs', houts', rfl⟩ := handleCommits_of_commitEach heach'
    rw [← map_snd_leaderPairs, ← map_snd_leaderPairs] at hsame
    rw [← map_snd_leaderPairs] at hleaders
    have hout := commitEach_unique hclosed hsame.symm hleaders (history_leaderPairs hstores)
      (history_leaderPairs hstores') heach heach'
    exact ⟨l', outs', houts', (congrArg Prod.snd hout).symm⟩

def diamond : Dag :=
  .ofList [⟨⟨0, 0, 0⟩, []⟩, ⟨⟨0, 1, 0⟩, [⟨0, 0, 0⟩]⟩, ⟨⟨1, 1, 0⟩, [⟨0, 0, 0⟩]⟩,
    ⟨⟨0, 2, 0⟩, [⟨0, 1, 0⟩, ⟨1, 1, 0⟩]⟩] (by decide) (by decide)

def diamondStore : BlockStore :=
  (((BlockStore.empty.insertBlock ⟨⟨0, 0, 0⟩, []⟩).insertBlock
    ⟨⟨0, 1, 0⟩, [⟨0, 0, 0⟩]⟩).insertBlock ⟨⟨1, 1, 0⟩, [⟨0, 0, 0⟩]⟩).insertBlock
    ⟨⟨0, 2, 0⟩, [⟨0, 1, 0⟩, ⟨1, 1, 0⟩]⟩

theorem diamond_linearized :
    ∃ l outs, handleCommits new [(diamondStore, [⟨⟨0, 1, 0⟩, [⟨0, 0, 0⟩]⟩]),
        (diamondStore, [⟨⟨0, 2, 0⟩, [⟨0, 1, 0⟩, ⟨1, 1, 0⟩]⟩])] = some (l, outs) ∧
      (outs.flatten.flatMap CommittedSubDag.blocks).Nodup ∧
      outs = [[⟨⟨0, 1, 0⟩, [⟨⟨0, 0, 0⟩, []⟩, ⟨⟨0, 1, 0⟩, [⟨0, 0, 0⟩]⟩]⟩],
        [⟨⟨0, 2, 0⟩, [⟨⟨1, 1, 0⟩, [⟨0, 0, 0⟩]⟩, ⟨⟨0, 2, 0⟩, [⟨0, 1, 0⟩, ⟨1, 1, 0⟩]⟩]⟩]] := by
  have hmem : ∀ b, b ∈ diamond.blocks ↔ b ∈ [⟨⟨0, 0, 0⟩, []⟩, ⟨⟨0, 1, 0⟩, [⟨0, 0, 0⟩]⟩,
      ⟨⟨1, 1, 0⟩, [⟨0, 0, 0⟩]⟩, ⟨⟨0, 2, 0⟩, [⟨0, 1, 0⟩, ⟨1, 1, 0⟩]⟩] := fun b => Iff.rfl
  have hleaders : ∀ leader ∈ [⟨⟨0, 1, 0⟩, [⟨0, 0, 0⟩]⟩, ⟨⟨0, 2, 0⟩, [⟨0, 1, 0⟩, ⟨1, 1, 0⟩]⟩],
      leader ∈ diamond.blocks := by
    simp only [hmem]
    decide
  have hstored : diamond.blocks ⊆ diamondStore.blocks := by
    intro b hb
    exact (by decide : ∀ b ∈ [⟨⟨0, 0, 0⟩, []⟩, ⟨⟨0, 1, 0⟩, [⟨0, 0, 0⟩]⟩, ⟨⟨1, 1, 0⟩, [⟨0, 0, 0⟩]⟩,
      ⟨⟨0, 2, 0⟩, [⟨0, 1, 0⟩, ⟨1, 1, 0⟩]⟩], diamondStore.index.lookup b.reference = some b) b hb
  have hclosed : Closed diamond.blocks := by
    unfold Closed
    simp only [hmem]
    decide
  obtain ⟨l, outs, heq, -, hnodup, -⟩ := handleCommits_exact diamond hclosed
    [(diamondStore, [⟨⟨0, 1, 0⟩, [⟨0, 0, 0⟩]⟩]),
      (diamondStore, [⟨⟨0, 2, 0⟩, [⟨0, 1, 0⟩, ⟨1, 1, 0⟩]⟩])]
    hleaders (by decide) (by decide) (by
      intro call hcall leader hleader b hb
      have hmem : leader ∈ diamond.blocks := hleaders leader (by
        fin_cases hcall <;> simp_all)
      have hstore : call.1 = diamondStore := by fin_cases hcall <;> rfl
      exact hstore ▸ hstored (Dag.mem_blocks_of_mem_history hmem hb))
  refine ⟨l, outs, heq, hnodup, Option.some.inj ?_⟩
  rw [← Option.map_some (f := Prod.snd) (a := (l, outs)), ← heq]
  decide

end Linearizer

end CongestionControl.Mysticeti
