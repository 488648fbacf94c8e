import CongestionControl.Pevm.Proofs.DependencyGraphProofs
import CongestionControl.Pevm.Proofs.GraphStepsProofs

/-!
# Proofs: the dependency counts of the graph scheduler

`children_released.swap` lets one worker per parent into the loop over its children, so each parent
decrements each child once, however often it is executed. A count that has reached zero stays there.
-/

namespace CongestionControl.Pevm

open Function (update update_eq_self update_of_ne update_self)
open Transition

variable {ω : Type} {graph : TransactionGraph} {r r' : Register} {gate : ω → Gate} {w : ω}
  {x : Gate} {c p : TxIdx}

theorem GateInv.released_of_zero (h : GateInv graph r gate) (hc : r.remaining c = 0)
    (hp : p ∈ graph.parents c) : (p, c) ∈ r.decrements := by
  have hnil : r.pending graph c = [] := by
    rw [h.remaining c] at hc
    exact List.length_eq_zero_iff.mp hc
  by_contra hn
  have hmem : p ∈ r.pending graph c := List.mem_filter.mpr ⟨hp, by simpa using hn⟩
  rw [hnil] at hmem
  cases hmem

def Register.decrement (r : Register) (p c : TxIdx) : Register :=
  { r with
    remaining := update r.remaining c (fetchSub (r.remaining c))
    decrements := r.decrements ++ [(p, c)] }

theorem Register.remaining_decrement (p c : TxIdx) :
    (r.decrement p c).remaining c = fetchSub (r.remaining c) :=
  update_self c _ _

theorem Register.remaining_decrement_of_ne {c' : TxIdx} (hne : c' ≠ c) :
    (r.decrement p c).remaining c' = r.remaining c' :=
  update_of_ne hne _ _

theorem Register.mem_pending (hm : graph.Mirrored) (hc : c ∈ graph.children p)
    (hn : (p, c) ∉ r.decrements) : p ∈ r.pending graph c :=
  List.mem_filter.mpr ⟨(hm.mem_children p c).mp hc, by simpa using hn⟩

theorem Register.pending_pos (hm : graph.Mirrored) (hc : c ∈ graph.children p)
    (hn : (p, c) ∉ r.decrements) : 0 < (r.pending graph c).length :=
  List.length_pos_of_mem (Register.mem_pending hm hc hn)

theorem Register.pending_decrement (hm : graph.Mirrored) (hc : c ∈ graph.children p)
    (hn : (p, c) ∉ r.decrements) :
    ((r.decrement p c).pending graph c).length = (r.pending graph c).length - 1 := by
  have hnd : (r.pending graph c).Nodup := (hm.parents_nodup c).filter _
  have herase : (r.decrement p c).pending graph c = (r.pending graph c).erase p := by
    rw [hnd.erase_eq_filter, Register.pending, Register.pending, List.filter_filter]
    refine List.filter_congr fun q _ => ?_
    rw [Bool.eq_iff_iff]
    simp [Register.decrement, and_comm]
  rw [herase, List.length_erase_of_mem (Register.mem_pending hm hc hn)]

theorem Register.pending_decrement_of_ne {c' : TxIdx} (hne : c' ≠ c) :
    (r.decrement p c).pending graph c' = r.pending graph c' := by
  refine List.filter_congr fun q _ => ?_
  simp [Register.decrement, hne]

section Moves

variable [DecidableEq ω]

section

variable (h : GateInv graph r gate)

include h

theorem GateInv.move (hrem : r'.remaining = r.remaining) (hdec : r'.decrements = r.decrements)
    (hent : ∀ p ∈ r.entered, p ∈ r'.entered)
    (hrel : ∀ p, r.released p = true → r'.released p = true)
    (hends : ∀ {p}, x.ends = some p → p ∈ r'.entered)
    (hreleasing : ∀ {p rest}, x.releasing = some (p, rest) →
      r'.released p = true ∧ p ∈ r'.entered ∧ rest.Nodup ∧
        ∀ c ∈ rest, c ∈ graph.children p ∧ (p, c) ∉ r.decrements)
    (hunique : ∀ {w' p rest rest'}, w' ≠ w → x.releasing = some (p, rest) →
      (gate w').releasing ≠ some (p, rest'))
    (hcleared : ∀ {c}, x.cleared = some c → r.remaining c = 0)
    (hissued : ∀ v ∈ r'.issued, r.remaining v.txIdx = 0) :
    GateInv graph r' (update gate w x) where
  remaining := by
    intro c
    rw [hrem, h.remaining c, Register.pending, Register.pending, hdec]
  once := by rw [hdec]; exact h.once
  decremented := by
    intro p c hpc
    rw [hdec] at hpc
    exact ⟨hrel p (h.decremented hpc).1, hent p (h.decremented hpc).2⟩
  ends := by
    intro w' p
    by_cases hw : w' = w
    · subst hw; rw [update_self]; exact hends
    · rw [update_of_ne hw]; exact fun hp => hent p (h.ends hp)
  releasing := by
    intro w' p rest
    rw [hdec]
    by_cases hw : w' = w
    · subst hw; rw [update_self]; exact hreleasing
    · rw [update_of_ne hw]
      intro hp
      obtain ⟨h1, h2, h3⟩ := h.releasing hp
      exact ⟨hrel p h1, hent p h2, h3⟩
  unique := by
    intro w1 w2 p rest rest'
    by_cases hw1 : w1 = w <;> by_cases hw2 : w2 = w
    · intro _ _; rw [hw1, hw2]
    · subst hw1
      rw [update_self, update_of_ne hw2]
      exact fun h1 h2 => absurd h2 (hunique hw2 h1)
    · subst hw2
      rw [update_self, update_of_ne hw1]
      exact fun h1 h2 => absurd h1 (hunique hw1 h2)
    · rw [update_of_ne hw1, update_of_ne hw2]
      exact h.unique
  cleared := by
    intro w' c
    rw [hrem]
    by_cases hw : w' = w
    · subst hw; rw [update_self]; exact hcleared
    · rw [update_of_ne hw]; exact h.cleared
  issued := by rw [hrem]; exact hissued

theorem GateInv.rest : GateInv graph r (update gate w {}) :=
  h.move rfl rfl (fun _ => id) (fun _ => id) (fun hp => by cases hp) (fun hp => by cases hp)
    (fun _ hp => by cases hp) (fun hp => by cases hp) h.issued

theorem GateInv.clear (hc : r.remaining c = 0) :
    GateInv graph r (update gate w { cleared := some c }) := by
  refine h.move rfl rfl (fun _ => id) (fun _ => id) (fun hp => by cases hp) (fun hp => by cases hp)
    (fun _ hp => by cases hp) ?_ h.issued
  intro c' hc'
  cases hc'
  exact hc

theorem GateInv.issue {c k : Nat} (hw : gate w = { cleared := some c }) :
    GateInv graph { r with issued := r.issued ++ [⟨c, k⟩] } (update gate w {}) := by
  refine h.move rfl rfl (fun _ => id) (fun _ => id) (fun hp => by cases hp) (fun hp => by cases hp)
    (fun _ hp => by cases hp) (fun hp => by cases hp) ?_
  intro v hv
  rcases List.mem_append.mp hv with hv | hv
  · exact h.issued v hv
  · rw [List.mem_singleton.mp hv]
    exact h.cleared (by rw [hw])

theorem GateInv.enter (p : TxIdx) :
    GateInv graph { r with entered := p :: r.entered } (update gate w { ends := some p }) := by
  refine h.move rfl rfl (fun _ => List.mem_cons_of_mem p) (fun _ => id) ?_ (fun hp => by cases hp)
    (fun _ hp => by cases hp) (fun hp => by cases hp) h.issued
  intro q hq
  cases hq
  exact List.mem_cons_self

theorem GateInv.swapAgain (p : TxIdx) :
    GateInv graph { r with released := update r.released p true } (update gate w {}) := by
  refine h.move rfl rfl (fun _ => id) ?_ (fun hp => by cases hp) (fun hp => by cases hp)
    (fun _ hp => by cases hp) (fun hp => by cases hp) h.issued
  intro q hq
  by_cases hqp : q = p
  · subst hqp; simp
  · simpa [hqp] using hq

end

theorem GateInv.swapFirst (hm : graph.Mirrored) (h : GateInv graph r gate)
    (hw : gate w = { ends := some p }) (hp : r.released p = false) :
    GateInv graph { r with released := update r.released p true }
      (update gate w { releasing := some (p, graph.children p) }) := by
  have hfirst : ∀ c, (p, c) ∉ r.decrements := by
    intro c hc
    rw [(h.decremented hc).1] at hp
    cases hp
  refine h.move rfl rfl (fun _ => id) ?_ (fun hp => by cases hp) ?_ ?_ (fun hp => by cases hp)
    h.issued
  · intro q hq
    by_cases hqp : q = p
    · subst hqp; simp
    · simpa [hqp] using hq
  · intro q rest hq
    cases hq
    exact ⟨by simp, h.ends (by rw [hw]), hm.children_nodup p,
      fun c hc => ⟨hc, hfirst c⟩⟩
  · intro w' q rest rest' _ hq hw'
    cases hq
    rw [(h.releasing hw').1] at hp
    cases hp

theorem GateInv.decrement (hm : graph.Mirrored) (h : GateInv graph r gate) {rest : List TxIdx}
    (hw : (gate w).releasing = some (p, c :: rest)) :
    GateInv graph (r.decrement p c) (update gate w { releasing := some (p, rest) }) := by
  obtain ⟨hrel, hent, hnd, hrest⟩ := h.releasing hw
  obtain ⟨hc, hn⟩ := hrest c List.mem_cons_self
  have hpos := Register.pending_pos hm hc hn
  have hzero : ∀ c', r.remaining c' = 0 → (r.decrement p c).remaining c' = 0 := by
    intro c' h0
    have hne : c' ≠ c := by
      rintro rfl
      rw [h.remaining c'] at h0
      omega
    rwa [Register.remaining_decrement_of_ne hne]
  exact
    { remaining := by
        intro c'
        by_cases hcc : c' = c
        · subst hcc
          rw [Register.pending_decrement hm hc hn, Register.remaining_decrement, h.remaining c',
            fetchSub, if_neg (by omega)]
        · rw [Register.pending_decrement_of_ne hcc, Register.remaining_decrement_of_ne hcc,
            h.remaining c']
      once := List.nodup_append.mpr ⟨h.once, List.nodup_singleton _, by
        rintro q hq q' hq' rfl
        exact hn (List.mem_singleton.mp hq' ▸ hq)⟩
      decremented := by
        intro p' c' hpc
        rcases List.mem_append.mp hpc with hpc | hpc
        · exact h.decremented hpc
        · cases List.mem_singleton.mp hpc
          exact ⟨hrel, hent⟩
      ends := by
        intro w' q
        by_cases hww : w' = w
        · subst hww; rw [update_self]; intro hq; cases hq
        · rw [update_of_ne hww]; exact h.ends
      releasing := by
        intro w' q rest'
        by_cases hww : w' = w
        · -- The worker goes on with the other children, which are different from this one.
          subst hww
          rw [update_self]
          intro hq
          cases hq
          refine ⟨hrel, hent, (List.nodup_cons.mp hnd).2, fun c' hc' => ?_⟩
          obtain ⟨h1, h2⟩ := hrest c' (List.mem_cons_of_mem c hc')
          refine ⟨h1, fun hmem => ?_⟩
          rcases List.mem_append.mp hmem with hmem | hmem
          · exact h2 hmem
          · cases List.mem_singleton.mp hmem
            exact (List.nodup_cons.mp hnd).1 hc'
        · rw [update_of_ne hww]
          intro hq
          obtain ⟨h1, h2, h3, h4⟩ := h.releasing hq
          refine ⟨h1, h2, h3, fun c' hc' => ⟨(h4 c' hc').1, fun hmem => ?_⟩⟩
          rcases List.mem_append.mp hmem with hmem | hmem
          · exact (h4 c' hc').2 hmem
          · cases List.mem_singleton.mp hmem
            exact hww (h.unique hq hw)
      unique := by
        intro w1 w2 q rest1 rest2 h1 h2
        -- Each of them was in the loop of this parent before.
        have hold : ∀ {w' rest'}, (update gate w { releasing := some (p, rest) } w').releasing =
            some (q, rest') → ∃ rest'', (gate w').releasing = some (q, rest'') := by
          intro w' rest' hw'
          by_cases hww : w' = w
          · subst hww
            rw [update_self] at hw'
            cases hw'
            exact ⟨_, hw⟩
          · rw [update_of_ne hww] at hw'
            exact ⟨_, hw'⟩
        obtain ⟨_, h1⟩ := hold h1
        obtain ⟨_, h2⟩ := hold h2
        exact h.unique h1 h2
      cleared := by
        intro w' c'
        by_cases hww : w' = w
        · subst hww; rw [update_self]; intro hq; cases hq
        · rw [update_of_ne hww]; exact fun hq => hzero c' (h.cleared hq)
      issued := fun v hv => hzero v.txIdx (h.issued v hv) }

end Moves

section Steps

variable [DecidableEq ω] {g g' : LockedGraphScheduler} {points : ω → GraphPoint} {l : GraphPoint}

open LockedGraphScheduler (whenFree_eq_some)

theorem LockedGraphScheduler.afterMinValidation_gate (g : LockedGraphScheduler) (v : TxVersion)
    (flags : FinishExecFlags) (m : Nat) : (g.afterMinValidation v flags m).gate = {} := by
  unfold afterMinValidation
  split
  · split
    · split <;> rfl
    · rfl
  · rfl

def GateStep (graph : TransactionGraph) (g : LockedGraphScheduler) (gate : ω → Gate) : Prop :=
  g.dependencyGraph = graph ∧ GateInv graph g.register gate

theorem GateStep.step (hm : graph.Mirrored) (h : GateStep graph g fun w => (points w).gate)
    {a : TaskEnd} (hex : g.exec (points w) a = some (g', l)) :
    GateStep graph g' fun w' => (update points w l w').gate := by
  rw [map_update GraphPoint.gate w l]
  obtain ⟨hgraph, h⟩ := h
  have rest : ∀ {g' : LockedGraphScheduler} {l : GraphPoint}, g'.dependencyGraph = g.dependencyGraph →
      g'.register = g.register → l.gate = {} →
      GateStep graph g' (update (fun w' => (points w').gate) w l.gate) := by
    intro g' l hd hg hl
    rw [GateStep, hd, hg, hl]
    exact ⟨hgraph, h.rest⟩
  cases hw : points w <;> rw [hw] at hex
  all_goals have hh : (points w).gate = _ := congrArg GraphPoint.gate hw
  case loadAborted =>
    cases a <;> cases hex <;> refine rest rfl rfl ?_ <;> split <;> rfl
  case timedOut => cases hex; exact rest rfl rfl rfl
  case lookAtHeap => cases hex; exact rest rfl rfl rfl
  case loadValidationIdx => cases hex; exact rest rfl rfl rfl
  case loadNumValidated => cases hex; exact rest rfl rfl rfl
  case loadMinValidationIdx =>
    cases hex
    refine rest rfl rfl ?_
    split <;> rfl
  case left => cases hex
  case loadNextValidation => cases hex; exact rest rfl rfl rfl
  case peekExecutable =>
    cases hex
    refine rest rfl rfl ?_
    split <;> rfl
  case fetchValidationIdx =>
    cases hex
    refine rest rfl rfl ?_
    split <;> rfl
  case checkReady i =>
    obtain ⟨-, he⟩ := whenFree_eq_some hex
    cases he
    refine rest rfl rfl ?_
    split <;> rfl
  case checkSteal i =>
    cases hex
    split
    · rename_i hc
      exact ⟨hgraph, h.clear (of_decide_eq_true hc)⟩
    · exact rest rfl rfl rfl
  case steal i =>
    obtain ⟨-, he⟩ := whenFree_eq_some hex
    split at he <;> cases he
    · exact ⟨hgraph, h.issue hh⟩
    · exact rest rfl rfl rfl
  case lookAt i =>
    obtain ⟨-, he⟩ := whenFree_eq_some hex
    cases he
    refine rest rfl rfl ?_
    split <;> rfl
  case popExecutable =>
    simp only [LockedGraphScheduler.exec] at hex
    split at hex <;> cases hex
    · exact rest rfl rfl rfl
    · refine rest rfl rfl ?_
      split <;> rfl
  case checkDependencies i =>
    cases hex
    split
    · rename_i hc
      exact ⟨hgraph, h.clear (of_decide_eq_true hc)⟩
    · exact rest rfl rfl rfl
  case tryExecute i =>
    obtain ⟨-, he⟩ := whenFree_eq_some hex
    cases hst : (g.transactionsStatus i).status <;> simp only [hst] at he <;> cases he
    case readyToExecute => exact ⟨hgraph, h.issue hh⟩
    case aborting => exact ⟨hgraph, h.issue hh⟩
    all_goals exact rest rfl rfl rfl
  case executing v => cases a <;> cases hex <;> exact rest rfl rfl rfl
  case failed => cases hex
  case addDependency v k =>
    obtain ⟨-, he⟩ := whenFree_eq_some hex
    split at he <;> cases he <;> exact rest rfl rfl rfl
  case pushDependent v k =>
    obtain ⟨-, he⟩ := whenFree_eq_some hex
    cases he
    exact rest rfl rfl rfl
  case finishExecution v flags =>
    obtain ⟨-, he⟩ := whenFree_eq_some hex
    cases he
    exact ⟨hgraph, h.enter v.txIdx⟩
  case swapReleased v flags =>
    cases hex
    split
    · exact ⟨hgraph, h.swapAgain v.txIdx⟩
    · rename_i hfirst
      subst hgraph
      exact ⟨rfl, h.swapFirst hm hh (Bool.eq_false_of_not_eq_true hfirst)⟩
  case releaseChildren v flags children =>
    cases children with
    | nil => cases hex; exact rest rfl rfl rfl
    | cons c children =>
      cases hex
      have hnext := h.decrement hm (by rw [hh]; rfl)
      split <;> exact ⟨hgraph, hnext⟩
  case pushChild v flags child children =>
    cases hex
    refine ⟨hgraph, ?_⟩
    show GateInv graph g.register (update _ w (GraphPoint.pushChild v flags child children).gate)
    rw [← hw, update_eq_self w]
    exact h
  case drainDependents v flags =>
    simp only [LockedGraphScheduler.exec] at hex
    split at hex
    · cases hex; exact rest rfl rfl rfl
    · split at hex <;> cases hex <;> exact rest rfl rfl rfl
  case setReady v flags d =>
    obtain ⟨-, he⟩ := whenFree_eq_some hex
    cases he
    exact rest rfl rfl rfl
  case pushReady => cases hex; exact rest rfl rfl rfl
  case lowerMinValidationIdx v flags =>
    simp only [LockedGraphScheduler.exec] at hex
    split at hex <;> cases hex <;>
      exact rest rfl rfl (LockedGraphScheduler.afterMinValidation_gate _ _ _ _)
  case compareValidationIdx v flags =>
    cases hex
    refine rest rfl rfl ?_
    split
    · split <;> rfl
    · rfl
  case lowerValidationIdx =>
    cases hex
    refine rest rfl rfl ?_
    split <;> rfl
  case settleValidating v flags =>
    simp only [LockedGraphScheduler.exec] at hex
    split at hex <;> cases hex <;> exact rest rfl rfl rfl
  case countTwice => cases hex; exact rest rfl rfl rfl
  case settle v flags =>
    simp only [LockedGraphScheduler.exec] at hex
    split at hex <;> cases hex <;> exact rest rfl rfl rfl
  case validating v => cases a <;> cases hex <;> exact rest rfl rfl rfl
  case tryAbort v =>
    obtain ⟨-, he⟩ := whenFree_eq_some hex
    split at he <;> cases he <;> exact rest rfl rfl rfl
  case uncount => cases hex; exact rest rfl rfl rfl
  case setAborting => cases hex; exact rest rfl rfl rfl
  case aborted v =>
    obtain ⟨-, he⟩ := whenFree_eq_some hex
    cases he
    exact rest rfl rfl rfl
  case lowerAfterAbort => cases hex; exact rest rfl rfl rfl
  case checkAborted =>
    cases hex
    refine rest rfl rfl ?_
    split <;> rfl
  case confirm v =>
    obtain ⟨-, he⟩ := whenFree_eq_some hex
    split at he <;> cases he <;> exact rest rfl rfl rfl
  case count => cases hex; exact rest rfl rfl rfl

end Steps

theorem GateInv.new (n : Nat) (graph : TransactionGraph) :
    GateInv graph (LockedGraphScheduler.new n graph).register
      fun _ : ω => GraphPoint.loadAborted.gate where
  remaining := by
    intro c
    rw [Register.pending, List.filter_eq_self.mpr]
    · rfl
    · simp [LockedGraphScheduler.register, LockedGraphScheduler.new]
  once := List.nodup_nil
  decremented := fun h => by cases h
  ends := fun h => by cases h
  releasing := fun h => by cases h
  unique := fun h => by cases h
  cleared := fun h => by cases h
  issued := fun _ h => by cases h

/-- In every run the count of a transaction is the number of its parents that have not made their
one decrement, and a transaction is issued only after all its parents have ended an execution. -/
theorem graphScheduler_gated [DecidableEq ω] {n : Nat} {graph : TransactionGraph}
    (hm : graph.Mirrored) {c : Config LockedGraphScheduler GraphPoint ω}
    (h : Reachable ((LockedGraphScheduler.program n graph).system ω) c) : Gated graph c.shared := by
  have hinv : GateStep graph c.shared fun w => (c.threads w).gate :=
    Program.invariant (I := fun g points => GateStep graph g fun w => (points w).gate)
      ⟨rfl, GateInv.new n graph⟩ (fun _ _ _ _ _ _ hI _ hex => hI.step hm hex) h
  refine ⟨hinv.2.remaining, hinv.2.once, fun v hv p hp => ?_⟩
  exact (hinv.2.decremented (hinv.2.released_of_zero (hinv.2.issued v hv) hp)).2

theorem graphScheduler_gated_pair : ∃ c : Config LockedGraphScheduler GraphPoint (Fin 1),
    Reachable ((LockedGraphScheduler.program 2 pairGraph).system (Fin 1)) c ∧
    c.shared.decrements = [(0, 1)] ∧ ⟨1, 0⟩ ∈ c.shared.issued ∧ Gated pairGraph c.shared := by
  obtain ⟨c, hc, hp⟩ := exists_reachable_of_run
    (S := (LockedGraphScheduler.program 2 pairGraph).system (Fin 1))
    (stepsOf 0 10 ++ [(0, .executed ⟨0⟩)] ++ stepsOf 0 22)
    (p := fun c => c.shared.decrements = [(0, 1)] ∧ ⟨1, 0⟩ ∈ c.shared.issued) (by decide +kernel)
  obtain ⟨hd, hi⟩ := of_decide_eq_true hp
  exact ⟨c, hc, hd, hi, graphScheduler_gated pairGraph_represents.mirrored hc⟩

end CongestionControl.Pevm
