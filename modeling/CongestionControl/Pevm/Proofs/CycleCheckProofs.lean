import CongestionControl.Lib.Paths
import CongestionControl.Pevm.CycleCheck

/-!
# Proofs: the search for a cycle is exact

The nodes that have been visited and left are settled: their children have been left too, and no
cycle goes through them. The nodes of the path are linked one to the next, so a child that is found
on the path closes a cycle.
-/

namespace CongestionControl.Pevm

namespace TransactionGraph

open Relation Paths

variable {g : TransactionGraph} {t t' : CycleSearch}

theorem children_of_getElem? {i : Nat} {node : TransactionNode} (h : g.nodes[i]? = some node) :
    node.childrenIndices = g.children i := by
  rw [children, h, Option.elim_some]

theorem edge_iff_getElem? (p c : Nat) :
    g.Edge p c ↔ ∃ node, g.nodes[p]? = some node ∧ c ∈ node.childrenIndices := by
  unfold Edge children
  cases g.nodes[p]? <;> simp

structure Searching (g : TransactionGraph) (t : CycleSearch) : Prop where
  stack : ∀ i, i ∈ t.recStack ↔ i ∈ t.path
  visited : ∀ i ∈ t.recStack, i ∈ t.visited
  settled : Settled g.Edge {i | i ∈ t.visited ∧ i ∉ t.recStack}
  chain : t.path.IsChain g.Edge

/-- What a search that finds nothing does: it visits more nodes and restores the path. -/
structure Explores (t t' : CycleSearch) : Prop where
  visited : t.visited ⊆ t'.visited
  recStack : t'.recStack = t.recStack
  path : t'.path = t.path

theorem Explores.refl (t : CycleSearch) : Explores t t := ⟨subset_rfl, rfl, rfl⟩

theorem Explores.trans {t'' : CycleSearch} (h : Explores t t') (h' : Explores t' t'') :
    Explores t t'' :=
  ⟨h.visited.trans h'.visited, h'.recStack.trans h.recStack, h'.path.trans h.path⟩

def Outcome (g : TransactionGraph) (t : CycleSearch) (nodes : List Nat)
    (result : Option (Bool × CycleSearch)) : Prop :=
  ∃ found t', result = some (found, t') ∧ (found = true → ∃ i, TransGen g.Edge i i) ∧
    (found = false → Searching g t' ∧ Explores t t' ∧
      ∀ i ∈ nodes, i ∈ t'.visited ∧ i ∉ t'.recStack)

def unvisited (g : TransactionGraph) (visited : Finset Nat) : Nat :=
  (Finset.range g.nodes.length \ visited).card

theorem unvisited_le {visited visited' : Finset Nat} (h : visited ⊆ visited') :
    g.unvisited visited' ≤ g.unvisited visited :=
  Finset.card_le_card (Finset.sdiff_subset_sdiff le_rfl h)

theorem unvisited_insert_lt {visited : Finset Nat} {i : Nat} (hi : i < g.nodes.length)
    (hnew : i ∉ visited) : g.unvisited (insert i visited) < g.unvisited visited :=
  card_sdiff_insert_lt (Finset.mem_range.mpr hi) hnew

theorem unvisited_lt (visited : Finset Nat) : g.unvisited visited < g.nodes.length + 1 := by
  have hle := Finset.card_le_card
    (Finset.sdiff_subset (s := Finset.range g.nodes.length) (t := visited))
  rw [Finset.card_range] at hle
  unfold unvisited
  omega

theorem chain_reaches {path : List Nat} {i last : Nat} (hchain : path.IsChain g.Edge)
    (hlast : path.getLast? = some last) (hi : i ∈ path) : ReflTransGen g.Edge i last := by
  induction path generalizing i with
  | nil => exact absurd hi List.not_mem_nil
  | cons a path ih =>
    cases path with
    | nil =>
      rw [List.mem_singleton.mp hi]
      rw [List.getLast?_singleton, Option.some.injEq] at hlast
      rw [hlast]
    | cons b path =>
      obtain ⟨hab, htail⟩ := List.isChain_cons_cons.mp hchain
      rcases List.mem_cons.mp hi with rfl | hi
      · exact .head hab (ih htail hlast List.mem_cons_self)
      · exact ih htail hlast hi

def Searches (g : TransactionGraph) (dfs : Nat → CycleSearch → Option (Bool × CycleSearch))
    (bound : Nat) : Prop :=
  ∀ x t, Searching g t → x < g.nodes.length → x ∉ t.visited →
    (∀ last ∈ t.path.getLast?, g.Edge last x) → g.unvisited t.visited < bound →
    Outcome g t [x] (dfs x t)

theorem scanChildren_outcome {dfs : Nat → CycleSearch → Option (Bool × CycleSearch)} {bound x : Nat}
    (hdfs : Searches g dfs bound) (hr : g.InRange) (l : List Nat) (hl : ∀ c ∈ l, g.Edge x c)
    (h : Searching g t) (hlast : t.path.getLast? = some x)
    (hbound : g.unvisited t.visited < bound) :
    Outcome g t l (scanChildren g.nodes.length dfs l t) := by
  induction l generalizing t with
  | nil => exact ⟨false, t, rfl, by simp, fun _ => ⟨h, .refl t, by simp⟩⟩
  | cons c l ih =>
    have hxc := hl c List.mem_cons_self
    have hlt := hr x c hxc
    have hl' : ∀ c' ∈ l, g.Edge x c' := fun c' hc' => hl c' (List.mem_cons_of_mem c hc')
    rw [scanChildren, if_neg (by omega)]
    -- A child that has been left, with the rest of the loop after it.
    have hrest : ∀ t', Searching g t' → Explores t t' → c ∈ t'.visited → c ∉ t'.recStack →
        Outcome g t (c :: l) (scanChildren g.nodes.length dfs l t') := by
      intro t' h' he hc hc'
      obtain ⟨found, t'', heq, htrue, hfalse⟩ := ih hl' h' (he.path ▸ hlast)
        (lt_of_le_of_lt (unvisited_le he.visited) hbound)
      refine ⟨found, t'', heq, htrue, fun hf => ?_⟩
      obtain ⟨h'', he', hall⟩ := hfalse hf
      refine ⟨h'', he.trans he', fun i hi => ?_⟩
      rcases List.mem_cons.mp hi with rfl | hi
      · exact ⟨he'.visited hc, he'.recStack ▸ hc'⟩
      · exact hall i hi
    by_cases hvis : c ∈ t.visited
    · rw [if_neg (not_not.mpr hvis)]
      by_cases hstack : c ∈ t.recStack
      · rw [if_pos hstack]
        have hpath := (h.stack c).mp hstack
        obtain ⟨k, hk⟩ : ∃ k, t.path.idxOf? c = some k := by
          rw [← Option.isSome_iff_exists, List.isSome_idxOf?]
          exact hpath
        refine ⟨true, t, by rw [hk]; rfl, fun _ => ⟨c, ?_⟩, by simp⟩
        exact .tail' (chain_reaches h.chain hlast hpath) hxc
      · rw [if_neg hstack]
        exact hrest t h (.refl t) hvis hstack
    · rw [if_pos hvis]
      have hlast' : ∀ last ∈ t.path.getLast?, g.Edge last c := by
        intro last hmem
        rw [hlast, Option.mem_some_iff] at hmem
        exact hmem ▸ hxc
      obtain ⟨found, t', heq, htrue, hfalse⟩ := hdfs c t h hlt hvis hlast' hbound
      rw [heq]
      cases found with
      | true => exact ⟨true, t', rfl, fun _ => htrue rfl, by simp⟩
      | false =>
        obtain ⟨h', he, hc⟩ := hfalse rfl
        obtain ⟨hc1, hc2⟩ := hc c (List.mem_singleton_self c)
        exact hrest t' h' he hc1 hc2

theorem Searching.push (h : Searching g t) {x : Nat} (hx : x ∉ t.visited)
    (hlast : ∀ last ∈ t.path.getLast?, g.Edge last x) :
    Searching g ⟨insert x t.visited, insert x t.recStack, t.path ++ [x]⟩ where
  stack i := by simp [h.stack i, or_comm]
  visited i hi := by
    rcases Finset.mem_insert.mp hi with rfl | hi
    · exact Finset.mem_insert_self i _
    · exact Finset.mem_insert_of_mem (h.visited i hi)
  settled := by
    have hset : {i | i ∈ insert x t.visited ∧ i ∉ insert x t.recStack} =
        {i | i ∈ t.visited ∧ i ∉ t.recStack} := by
      ext i
      by_cases hi : i = x
      · simp [hi, hx]
      · simp [hi]
    rw [hset]
    exact h.settled
  chain := by
    refine List.isChain_append.mpr ⟨h.chain, List.isChain_singleton x, ?_⟩
    rintro last hmem y hy
    rw [List.head?_cons, Option.mem_some_iff] at hy
    exact hy ▸ hlast last hmem

theorem Searching.pop {recStack : Finset Nat} {path : List Nat} {x : Nat} (h : Searching g t)
    (hstack : t.recStack = insert x recStack) (hpath : t.path = path ++ [x]) (hx : x ∉ recStack)
    (hback : ∀ i, i ∈ recStack ↔ i ∈ path)
    (hchildren : ∀ c ∈ g.children x, c ∈ t.visited ∧ c ∉ t.recStack) :
    Searching g ⟨t.visited, recStack, path⟩ where
  stack := hback
  visited i hi := h.visited i (hstack ▸ Finset.mem_insert_of_mem hi)
  settled := by
    have hset : {i | i ∈ t.visited ∧ i ∉ recStack} =
        insert x {i | i ∈ t.visited ∧ i ∉ t.recStack} := by
      ext i
      have hvis : x ∈ t.visited := h.visited x (hstack ▸ Finset.mem_insert_self x recStack)
      by_cases hi : i = x
      · simp [hi, hx, hvis]
      · simp [hi, hstack]
    have hnot : x ∉ {i | i ∈ t.visited ∧ i ∉ t.recStack} :=
      fun hmem => hmem.2 (hstack ▸ Finset.mem_insert_self x recStack)
    show Settled g.Edge {i | i ∈ t.visited ∧ i ∉ recStack}
    rw [hset]
    exact h.settled.insert hnot hchildren
  chain := by
    have hchain := h.chain
    rw [hpath] at hchain
    exact (List.isChain_append.mp hchain).1

theorem dfs_outcome (hr : g.InRange) (fuel : Nat) : Searches g (g.dfs fuel) fuel := by
  induction fuel with
  | zero => intro x t _ _ _ _ hbound; omega
  | succ fuel ih =>
    intro x t h hlt hx hlast hbound
    obtain ⟨node, hnode⟩ : ∃ node, g.nodes[x]? = some node := ⟨_, List.getElem?_eq_getElem hlt⟩
    have hchildren := children_of_getElem? hnode
    have hedges : ∀ c ∈ node.childrenIndices, g.Edge x c := by
      rw [hchildren]
      exact fun c hc => hc
    have hdec := unvisited_insert_lt hlt hx
    have hbound' : g.unvisited (insert x t.visited) < fuel := by omega
    obtain ⟨found, t', heq, htrue, hfalse⟩ := scanChildren_outcome ih hr node.childrenIndices
      hedges (h.push hx hlast) List.getLast?_concat hbound'
    rw [dfs, hnode, Option.bind_some, heq]
    cases found with
    | true => exact ⟨true, t', rfl, fun _ => htrue rfl, by simp⟩
    | false =>
      obtain ⟨h', he, hc⟩ := hfalse rfl
      have hnot : x ∉ t.recStack := fun hmem => hx (h.visited x hmem)
      have herase : t'.recStack.erase x = t.recStack := by
        rw [he.recStack]
        exact Finset.erase_insert hnot
      have hdrop : t'.path.dropLast = t.path := by
        rw [he.path]
        exact List.dropLast_concat
      refine ⟨false, ⟨t'.visited, t'.recStack.erase x, t'.path.dropLast⟩, rfl, by simp, fun _ => ?_⟩
      rw [herase, hdrop]
      have hvis : x ∈ t'.visited := he.visited (Finset.mem_insert_self x t.visited)
      refine ⟨h'.pop he.recStack he.path hnot h.stack fun c hcx => hc c (hchildren ▸ hcx),
        ⟨(Finset.subset_insert x t.visited).trans he.visited, rfl, rfl⟩, fun i hi => ?_⟩
      rw [List.mem_singleton.mp hi]
      exact ⟨hvis, hnot⟩

theorem scanNodes_iff (hr : g.InRange) (l : List Nat) (hl : ∀ i ∈ l, i < g.nodes.length)
    (h : Searching g t) (hempty : t.recStack = ∅)
    (hall : ∀ i < g.nodes.length, i ∈ t.visited ∨ i ∈ l) :
    ∃ found, g.scanNodes l t = some found ∧ (found = true ↔ ∃ i, TransGen g.Edge i i) := by
  induction l generalizing t with
  | nil =>
    refine ⟨false, rfl, by simp, ?_⟩
    rintro ⟨i, hi⟩
    obtain ⟨c, hic, -⟩ := TransGen.head'_iff.mp hi
    have hlt : i < g.nodes.length := by
      by_contra hge
      rw [Edge, children, List.getElem?_eq_none (by omega)] at hic
      exact List.not_mem_nil hic
    have hvis := (hall i hlt).resolve_right List.not_mem_nil
    exact absurd hi (h.settled.acyclic i ⟨hvis, by simp [hempty]⟩)
  | cons i l ih =>
    have hl' : ∀ j ∈ l, j < g.nodes.length := fun j hj => hl j (List.mem_cons_of_mem i hj)
    -- The rest of the loop, once the node has been visited.
    have hrest : ∀ t', Searching g t' → t'.recStack = ∅ → t.visited ⊆ t'.visited →
        i ∈ t'.visited →
        ∃ found, g.scanNodes l t' = some found ∧ (found = true ↔ ∃ i, TransGen g.Edge i i) := by
      intro t' h' hempty' hsub hvis
      refine ih hl' h' hempty' fun j hj => ?_
      rcases hall j hj with hj | hj
      · exact .inl (hsub hj)
      · rcases List.mem_cons.mp hj with rfl | hj
        · exact .inl hvis
        · exact .inr hj
    rw [scanNodes]
    by_cases hvis : i ∈ t.visited
    · rw [if_neg (not_not.mpr hvis)]
      exact hrest t h hempty subset_rfl hvis
    · rw [if_pos hvis]
      have h0 : Searching g { t with path := [] } := by
        refine ⟨fun j => ?_, h.visited, h.settled, .nil⟩
        show j ∈ t.recStack ↔ j ∈ []
        rw [hempty]
        simp
      obtain ⟨found, t', heq, htrue, hfalse⟩ :=
        dfs_outcome hr (g.nodes.length + 1) i { t with path := [] } h0 (hl i List.mem_cons_self)
          hvis (by simp) (unvisited_lt t.visited)
      rw [heq]
      cases found with
      | true => exact ⟨true, rfl, fun _ => htrue rfl, fun _ => rfl⟩
      | false =>
        obtain ⟨h', he, hi⟩ := hfalse rfl
        exact hrest t' h' (he.recStack.trans hempty) he.visited
          (hi i (List.mem_singleton_self i)).1

theorem hasCycle_iff (hr : g.InRange) :
    ∃ found, g.hasCycle = some found ∧ (found = true ↔ ∃ i, TransGen g.Edge i i) := by
  refine scanNodes_iff hr _ (fun i => List.mem_range.mp) ?_ rfl fun i hi =>
    .inr (List.mem_range.mpr hi)
  refine ⟨by simp, by simp, ?_, .nil⟩
  have hset : {i : Nat | i ∈ (∅ : Finset Nat) ∧ i ∉ (∅ : Finset Nat)} = ∅ := by simp
  show Settled g.Edge {i : Nat | i ∈ (∅ : Finset Nat) ∧ i ∉ (∅ : Finset Nat)}
  rw [hset]
  exact .empty

/-- The search ends, and finds a cycle exactly if there is one along the lists of children. -/
theorem hasCycle_exact (g : TransactionGraph)
    (hrange : ∀ node ∈ g.nodes, ∀ c ∈ node.childrenIndices, c < g.nodes.length) :
    ∃ found, g.hasCycle = some found ∧ (found = true ↔
      ∃ i, TransGen (fun p c => ∃ node : TransactionNode, g.nodes[p]? = some node ∧
        c ∈ node.childrenIndices) i i) := by
  have hedge : g.Edge = fun p c => ∃ node, g.nodes[p]? = some node ∧ c ∈ node.childrenIndices := by
    funext p c
    exact propext (edge_iff_getElem? p c)
  have hr : g.InRange := by
    intro p c hpc
    obtain ⟨node, hnode, hc⟩ := (edge_iff_getElem? p c).mp hpc
    exact hrange node (List.mem_of_getElem? hnode) c hc
  rw [← hedge]
  exact hasCycle_iff hr

def twoCycle : TransactionGraph :=
  { edgelessGraph 3 with
    nodes := (edgelessGraph 3).nodes.zipWith
      (fun node children => { node with childrenIndices := children }) [[1], [2], [1]] }

theorem twoCycle_found : twoCycle.hasCycle = some true ∧
    ∃ i, TransGen (fun p c => ∃ node : TransactionNode, twoCycle.nodes[p]? = some node ∧
      c ∈ node.childrenIndices) i i := by
  have hcycle : twoCycle.hasCycle = some true := by decide +kernel
  obtain ⟨found, hfound, hiff⟩ := hasCycle_exact twoCycle (by decide +kernel)
  rw [hcycle, Option.some.injEq] at hfound
  exact ⟨hcycle, hiff.mp hfound.symm⟩

end TransactionGraph

end CongestionControl.Pevm
