import CongestionControl.Pevm.Proofs.FairSchedulerProofs

/-!
# The fair batch scheduler returns a batch

From every state the threads can go on until all of them have ended: a thread that waits, waits for one
that can move. What is returned then are the transactions of every caller up to some point, in order.
-/

namespace CongestionControl.Pevm

open Function (update update_eq_self_iff update_of_ne update_self)
open Transition

/-! ## The callers on the injector -/

namespace TokenInv

variable {ω : Type} [DecidableEq ω] {injector : List Address} {token : ω → Option Address} {w : ω}
  {caller : Address}

theorem of_update_none {w' : ω} (h : update token w none w' = some caller) :
    w' ≠ w ∧ token w' = some caller := by
  by_cases hw : w' = w
  · subst hw
    rw [update_self] at h
    cases h
  · rw [update_of_ne hw] at h
    exact ⟨hw, h⟩

theorem take (h : TokenInv (caller :: injector) token) (hw : token w = none) :
    TokenInv injector (update token w (some caller)) where
  nodup := (List.nodup_cons.mp h.nodup).2
  not_mem := by
    intro w' a ha
    by_cases hw' : w' = w
    · subst hw'
      rw [update_self] at ha
      exact Option.some.inj ha ▸ (List.nodup_cons.mp h.nodup).1
    · rw [update_of_ne hw'] at ha
      exact fun hmem => h.not_mem ha (List.mem_cons_of_mem caller hmem)
  unique := by
    intro w₁ w₂ a h₁ h₂
    have hother : ∀ {w'}, w' ≠ w → update token w (some caller) w' = some a → a ≠ caller := by
      rintro w' hw' ha rfl
      rw [update_of_ne hw'] at ha
      exact h.not_mem ha List.mem_cons_self
    have hself : update token w (some caller) w = some a → a = caller := by
      intro ha
      rw [update_self] at ha
      exact (Option.some.inj ha).symm
    by_cases hw₁ : w₁ = w <;> by_cases hw₂ : w₂ = w
    · rw [hw₁, hw₂]
    · exact absurd (hself (hw₁ ▸ h₁)) (hother hw₂ h₂)
    · exact absurd (hself (hw₂ ▸ h₂)) (hother hw₁ h₁)
    · rw [update_of_ne hw₁] at h₁
      rw [update_of_ne hw₂] at h₂
      exact h.unique h₁ h₂

theorem drop (h : TokenInv injector token) : TokenInv injector (update token w none) where
  nodup := h.nodup
  not_mem ha := h.not_mem (of_update_none ha).2
  unique h₁ h₂ := h.unique (of_update_none h₁).2 (of_update_none h₂).2

theorem give (h : TokenInv injector token) (hw : token w = some caller) :
    TokenInv (injector ++ [caller]) (update token w none) where
  nodup := by
    rw [List.nodup_append]
    refine ⟨h.nodup, List.nodup_singleton _, ?_⟩
    rintro a ha b hb rfl
    exact h.not_mem hw (List.mem_singleton.mp hb ▸ ha)
  not_mem := by
    intro w' a ha hmem
    obtain ⟨hw', ha⟩ := of_update_none ha
    rcases List.mem_append.mp hmem with hmem | hmem
    · exact h.not_mem ha hmem
    · rw [List.mem_singleton.mp hmem] at ha
      exact hw' (h.unique ha hw)
  unique h₁ h₂ := h.unique (of_update_none h₁).2 (of_update_none h₂).2

variable {decode : String → Decoding} {c : Nat} {g g' : FairScheduler} {points : ω → FairPoint}
  {old point : FairPoint}

theorem keep (h : TokenInv injector fun w => (points w).token) (hw : points w = old)
    (hp : point.token = old.token) : TokenInv injector fun w' => (update points w point w').token := by
  rw [map_update FairPoint.token, update_eq_self_iff.mpr (hw ▸ hp)]
  exact h

theorem lose (h : TokenInv injector fun w => (points w).token) (hp : point.token = none) :
    TokenInv injector fun w' => (update points w point w').token := by
  rw [map_update FairPoint.token, hp]
  exact h.drop

theorem step (h : TokenInv g.injector fun w => (points w).token) (hw : points w = old)
    (hstep : FairScheduler.Step decode c g old g' point) :
    TokenInv g'.injector fun w' => (update points w point w').token := by
  cases hstep with
  | steal hinjector =>
    rw [hinjector] at h
    rw [map_update FairPoint.token]
    exact h.take (by rw [hw]; rfl)
  | putBack | pushCaller =>
    rw [map_update FairPoint.token]
    exact h.give (by rw [hw]; rfl)
  | leave | empty | full | unknown | outOfBound | lost | failed | pushFront | enough | unmark =>
    exact h.lose rfl
  | mark | busy | pop | panic | decoded | lock | wait | search | searched | place | setPosition
  | positionsSet | scheduled | more => exact h.keep hw rfl

end TokenInv

/-! ## All threads end -/

def FairPoint.rank : FairPoint → Nat
  | .done | .panicked _ => 0
  | .steal => 1
  | .unmark _ => 2
  | .pushFront _ => 3
  | .unlockAccounts _ _ false => 4
  | .claim _ _ _ => 5
  | .search _ _ rest _ => 6 + rest.length
  | .lockAccounts _ accounts => 7 + accounts.length
  | .loadSlots _ => 10
  | .popFront _ => 11
  | .mark _ => 12
  | .putBack _ => 14
  | .pushCaller _ => 15
  | .checkQueue _ => 16
  | .unlockAccounts _ _ true => 17
  | .setPositions _ _ rest _ => 18 + rest.length

/-- A thread with a caller of the injector, and a free slot, are more work. -/
def FairScheduler.work (g : FairScheduler) : Nat := 16 * g.availableSlots + 12 * g.injector.length

def FairPoint.isFree : FairPoint → Bool
  | .mark _ | .lockAccounts _ _ | .done | .panicked _ => false
  | _ => true

section Progress

variable {decode : String → Decoding} {c : Nat} {txns : List TransactionWithHint} {g : FairScheduler}

theorem length_accessedAccounts (caller : Address) (transactTo : TransactTo) :
    (accessedAccounts caller transactTo).length ≤ 2 := by
  cases transactTo
  · exact Nat.le_refl 2
  · exact Nat.le_succ 1

theorem length_accountsAt (i : Nat) : (accountsAt decode txns i).length ≤ 2 := by
  unfold accountsAt
  cases txns[i]? with
  | none => exact Nat.zero_le 2
  | some txn =>
    rw [Option.elim_some, TransactionWithHint.accounts]
    split
    · exact length_accessedAccounts _ _
    · exact Nat.zero_le 2
    · exact Nat.zero_le 2

/-- A step gets something done, unless the thread has to wait for another one. -/
theorem FairScheduler.Step.work_lt {g' : FairScheduler} {old point : FairPoint}
    (hstep : FairScheduler.Step decode c g old g' point) (hok : old.Ok decode c txns g)
    (hbusy : ∀ caller, old = .mark caller → point ≠ .putBack caller)
    (hwait : ∀ job accounts, old = .lockAccounts job accounts → point ≠ .lockAccounts job accounts) :
    g'.work + point.rank < g.work + old.rank := by
  cases hstep with
  | busy => exact absurd rfl (hbusy _ rfl)
  | wait => exact absurd rfl (hwait _ _ rfl)
  | steal hinjector =>
    simp only [FairScheduler.work, FairPoint.rank, hinjector, List.length_cons]
    omega
  | putBack | pushCaller =>
    simp only [FairScheduler.work, FairPoint.rank, List.length_append, List.length_singleton]
    omega
  | @decoded job transactTo _ =>
    have hlen := length_accessedAccounts job.txn.caller transactTo
    simp only [FairPoint.rank]
    omega
  | @place job accounts _ _ _ _ havail =>
    have hlen : accounts.length ≤ 2 := hok.1 ▸ length_accountsAt job.index
    simp only [FairScheduler.work, FairScheduler.place, FairPoint.rank]
    omega
  | lock =>
    simp only [FairScheduler.work, FairPoint.rank]
    omega
  | search | setPosition =>
    simp only [FairScheduler.work, FairScheduler.setLastPosition, FairPoint.rank, List.length_cons]
    omega
  | leave | mark | pop | empty | full | panic | unknown | searched | outOfBound | lost
  | positionsSet | scheduled | failed | pushFront | more | enough | unmark =>
    exact Nat.add_lt_add_left (by simp [FairPoint.rank]) _

theorem exists_exec (decode : String → Decoding) (c : Nat) (g : FairScheduler) {point : FairPoint}
    (h : point.hasEnded = false) :
    ∃ g' point', FairScheduler.exec decode c g point false = some (g', point') := by
  cases point with
  | done | panicked => cases h
  | putBack | unlockAccounts | pushFront | pushCaller | unmark => exact ⟨_, _, rfl⟩
  | search _ _ rest _ =>
    cases rest with
    | nil =>
      simp only [FairScheduler.exec]
      split_ifs <;> exact ⟨_, _, rfl⟩
    | cons => exact ⟨_, _, rfl⟩
  | setPositions _ _ rest _ => cases rest <;> exact ⟨_, _, rfl⟩
  | steal | popFront =>
    simp only [FairScheduler.exec]
    split <;> exact ⟨_, _, rfl⟩
  | mark | lockAccounts | checkQueue =>
    simp only [FairScheduler.exec]
    split_ifs <;> exact ⟨_, _, rfl⟩
  | loadSlots =>
    simp only [FairScheduler.exec]
    split_ifs
    · split <;> exact ⟨_, _, rfl⟩
    · exact ⟨_, _, rfl⟩
  | claim =>
    simp only [FairScheduler.exec]
    split
    · split_ifs <;> exact ⟨_, _, rfl⟩
    · exact ⟨_, _, rfl⟩

variable {ω : Type} {points : ω → FairPoint}

section

variable (h : FairInv decode c txns g points)

include h

theorem exec_lockAccounts (hnone : ∀ w, (points w).locks = []) (job : Job)
    (accounts : List Address) :
    ∃ g', FairScheduler.exec decode c g (.lockAccounts job accounts) false =
      some (g', .search job accounts accounts .new) := by
  have hfree : (accounts.all fun a => decide (a ∉ g.accountBeingAccessed)) = true := by
    refine List.all_eq_true.mpr fun a _ => decide_eq_true fun hmem => ?_
    obtain ⟨w, hw⟩ := (h.locks.locked_iff a).mp hmem
    rw [hnone w] at hw
    cases hw
  simp only [FairScheduler.exec, if_pos hfree]
  exact ⟨_, rfl⟩

/-- A thread that waits for a caller gets it if only threads that have panicked have one: they have
not pushed it back. -/
theorem exec_mark (htokens : TokenInv g.injector fun w => (points w).token)
    (hmarked : ∀ w caller, (points w).marked = some caller → (points w).token = some caller) {w : ω}
    {caller : Address} (hw : points w = .mark caller) :
    ∃ g', FairScheduler.exec decode c g (.mark caller) false = some (g', .popFront caller) := by
  have hfree : ¬ g.callerProcessing caller = true := by
    intro hlocked
    obtain ⟨w', hw'⟩ := (h.marks.locked_iff caller).mp hlocked
    have hsame : w' = w := htokens.unique (hmarked w' caller hw') (by rw [hw]; rfl)
    rw [hsame, hw] at hw'
    cases hw'
  simp only [FairScheduler.exec, if_neg hfree]
  exact ⟨_, rfl⟩

/-- As long as a thread is running, some thread gets something done. -/
theorem exists_progress (htokens : TokenInv g.injector fun w => (points w).token) {w : ω}
    (hw : (points w).hasEnded = false) :
    ∃ w g' point, FairScheduler.exec decode c g (points w) false = some (g', point) ∧
      g'.work + point.rank < g.work + (points w).rank := by
  by_cases hfree : ∃ w, (points w).isFree = true
  · obtain ⟨w, hfree⟩ := hfree
    have hrun : (points w).hasEnded = false := by
      cases hp : points w <;> rw [hp] at hfree <;> first | rfl | cases hfree
    obtain ⟨g', point, hex⟩ := exists_exec decode c g hrun
    refine ⟨w, g', point, hex, (FairScheduler.step_of_exec hex).work_lt (h.ok w) ?_ ?_⟩
    · intro caller hp
      rw [hp] at hfree
      cases hfree
    · intro job accounts hp
      rw [hp] at hfree
      cases hfree
  · have hfree : ∀ w, (points w).isFree = false := by simpa using hfree
    have hnone : ∀ w, (points w).locks = [] := by
      intro w
      have hp := hfree w
      cases hpoint : points w <;> rw [hpoint] at hp <;> first | rfl | cases hp
    by_cases hlock : ∃ w job accounts, points w = .lockAccounts job accounts
    · obtain ⟨w, job, accounts, hp⟩ := hlock
      obtain ⟨g', hex⟩ := exec_lockAccounts h hnone job accounts
      rw [← hp] at hex
      refine ⟨w, g', _, hex, (FairScheduler.step_of_exec hex).work_lt (h.ok w) ?_ ?_⟩
      · exact fun caller _ => nofun
      · exact fun job accounts _ => nofun
    · have hmarked : ∀ w caller, (points w).marked = some caller →
          (points w).token = some caller := by
        intro w caller hm
        have hp := hfree w
        cases hpoint : points w with
        | panicked job =>
          rw [hpoint] at hm
          exact hm
        | lockAccounts job accounts => exact absurd ⟨w, job, accounts, hpoint⟩ hlock
        | mark | done =>
          rw [hpoint] at hm
          cases hm
        | _ =>
          rw [hpoint] at hp
          cases hp
      have hp := hfree w
      cases hpoint : points w with
      | mark caller =>
        obtain ⟨g', hex⟩ := exec_mark h htokens hmarked hpoint
        rw [← hpoint] at hex
        refine ⟨w, g', _, hex, (FairScheduler.step_of_exec hex).work_lt (h.ok w) ?_ ?_⟩
        · exact fun caller _ => nofun
        · exact fun job accounts _ => nofun
      | lockAccounts job accounts => exact absurd ⟨w, job, accounts, hpoint⟩ hlock
      | done | panicked =>
        rw [hpoint] at hw
        cases hw
      | _ =>
        rw [hpoint] at hp
        cases hp

end

variable [DecidableEq ω] [Fintype ω]

theorem sum_rank_update (points : ω → FairPoint) (w : ω) (point : FairPoint) :
    ∑ w', (update points w point w').rank + (points w).rank =
      ∑ w', (points w').rank + point.rank := by
  rw [map_update FairPoint.rank, Finset.sum_update_of_mem (Finset.mem_univ w),
    ← Finset.add_sum_erase Finset.univ (fun w' => (points w').rank) (Finset.mem_univ w),
    Finset.sdiff_singleton_eq_erase]
  omega

/-- The threads can go on until all of them have ended. -/
theorem exists_run (hc : 1 ≤ c) (order : IterOrder Address) {config : Config FairScheduler FairPoint ω}
    (h : FairInv decode c txns config.shared config.threads)
    (htokens : TokenInv config.shared.injector fun w => (config.threads w).token) :
    ∃ labels config', ((FairScheduler.program decode c order txns).system ω).run (fun _ a => !a.2)
        config labels = some config' ∧
      FairInv decode c txns config'.shared config'.threads ∧
      ∀ w, (config'.threads w).hasEnded = true := by
  induction hn : config.shared.work + ∑ w, (config.threads w).rank using
    Nat.strong_induction_on generalizing config with
  | h n ih =>
    by_cases hend : ∀ w, (config.threads w).hasEnded = true
    · exact ⟨[], config, rfl, h, hend⟩
    · obtain ⟨w, hw⟩ := not_forall.mp hend
      obtain ⟨w, g', point, hex, hlt⟩ :=
        exists_progress h htokens (Bool.eq_false_of_not_eq_true hw)
      have hstep := FairScheduler.step_of_exec hex
      have hsum := sum_rank_update config.threads w point
      have hless : g'.work + ∑ w', (update config.threads w point w').rank < n := by omega
      obtain ⟨labels, config', hrun, h', hend'⟩ :
          ∃ labels config', ((FairScheduler.program decode c order txns).system ω).run
            (fun _ a => !a.2) ⟨g', update config.threads w point⟩ labels = some config' ∧
          FairInv decode c txns config'.shared config'.threads ∧
          ∀ w, (config'.threads w).hasEnded = true :=
        ih _ hless (h.step hc rfl hstep) (htokens.step rfl hstep) rfl
      refine ⟨(w, false) :: labels, config', ?_, h', hend'⟩
      have hnext : ((FairScheduler.program decode c order txns).system ω).next config (w, false) =
          some ⟨g', update config.threads w point⟩ := Program.next_eq_some.mpr ⟨g', point, hex, rfl⟩
      change (((FairScheduler.program decode c order txns).system ω).next config (w, false)).bind _ = _
      rw [hnext]
      exact hrun

end Progress

/-! ## The result -/

theorem TokenInv.of_reachable {decode : String → Decoding} {c : Nat} {order : IterOrder Address}
    {txns : List TransactionWithHint} {ω : Type} [DecidableEq ω]
    {config : Config FairScheduler FairPoint ω}
    (h : Reachable ((FairScheduler.program decode c order txns).system ω) config) :
    TokenInv config.shared.injector fun w => (config.threads w).token :=
  Program.invariant (I := fun g points => TokenInv g.injector fun w => (points w).token)
    ⟨order.nodup_toList _, (by rintro _ _ ⟨⟩), (by rintro _ _ _ ⟨⟩)⟩
    (fun _ _ _ _ _ _ hI _ hex => hI.step rfl (FairScheduler.step_of_exec hex)) h

section Result

variable {decode : String → Decoding} {c : Nat} {txns : List TransactionWithHint} {g : FairScheduler}
  {ω : Type} {points : ω → FairPoint}

theorem FairInv.apart (h : FairInv decode c txns g points) {p q : Nat}
    {txn txn' : TransactionWithHint} (hne : p ≠ q) (hp : g.scheduled[p]? = some (some txn))
    (hq : g.scheduled[q]? = some (some txn'))
    (hshare : ∃ a ∈ txn.accounts decode, a ∈ txn'.accounts decode) : p + c ≤ q ∨ q + c ≤ p := by
  have hslot : ∀ {p txn}, g.scheduled[p]? = some (some txn) →
      ∃ x ∈ g.writes, x.1 = p ∧ accountsAt decode txns x.2 = txn.accounts decode := by
    intro p txn hp
    have hlt : p < FairScheduler.txnsPerBatch c := by
      rw [← h.slots.length]
      exact (List.getElem?_eq_some_iff.mp hp).1
    rw [h.slots.slot p hlt, Option.some.injEq] at hp
    obtain ⟨x, hx, htxn⟩ := Option.bind_eq_some_iff.mp hp
    obtain ⟨hmem, hfst⟩ := Placement.mem_of_slot hx
    exact ⟨x, hmem, hfst, by rw [accountsAt, htxn, Option.elim_some]⟩
  obtain ⟨x, hx, rfl, hxa⟩ := hslot hp
  obtain ⟨y, hy, rfl, hya⟩ := hslot hq
  obtain ⟨a, ha, ha'⟩ := hshare
  exact h.positions.spaced.apart hx hy (fun he => hne (congrArg Prod.fst he)) (hxa ▸ ha) (hya ▸ ha')

/-- A thread panics at a transaction that cannot be decoded without a panic. -/
theorem FairInv.isDone (h : FairInv decode c txns g points)
    (hdecode : ∀ txn ∈ txns, decode txn.rawHex ≠ .panics) {w : ω} (hw : (points w).hasEnded = true) :
    (points w).isDone = true := by
  have hok := h.ok w
  cases hp : points w with
  | done => rfl
  | panicked job =>
    rw [hp] at hok
    obtain ⟨hindex, -⟩ := h.order.job (by rw [hp]; rfl : (points w).flight = some job)
    exact absurd hok (hdecode job.txn (List.mem_of_getElem? hindex))
  | _ =>
    rw [hp] at hw
    cases hw

end Result

/-- Under every interleaving no slot is written twice and transactions that access a common account
are apart. The function can always still return. Then the batch has the transactions with some indices
and the others are left in their order; for every caller the indices in the batch are the first ones of
the caller, in their order. -/
theorem fairSchedule_exact (decode : String → Decoding) (c : Nat) (hc : 1 ≤ c)
    (order : IterOrder Address) (txns : List TransactionWithHint)
    {config : Config FairScheduler FairPoint (Fin FairScheduler.numThreads)}
    (h : Reachable ((FairScheduler.program decode c order txns).system _) config) :
    (config.shared.writes.map Prod.fst).Nodup ∧
    (∀ p q txn txn', p ≠ q → config.shared.scheduled[p]? = some (some txn) →
      config.shared.scheduled[q]? = some (some txn') →
      (∃ a ∈ txn.accounts decode, a ∈ txn'.accounts decode) → p + c ≤ q ∨ q + c ≤ p) ∧
    (∃ labels config', ((FairScheduler.program decode c order txns).system _).run (fun _ a => !a.2)
        config labels = some config' ∧ (∀ w, (config'.threads w).hasEnded = true) ∧
      ((∀ txn ∈ txns, decode txn.rawHex ≠ .panics) →
        (FairScheduler.returned config' txns).isSome = true)) ∧
    ∀ batch left, FairScheduler.returned config txns = some (batch, left) →
      ∃ chosen : List Nat, chosen.Nodup ∧ batch = chosen.map (txns[·]?) ∧
        left = Placement.leftover chosen txns ∧ left.Sublist txns ∧
        (batch ++ left.map some).Perm (txns.map some) ∧
        ∀ caller, chosen.filter (fun i => callerAt txns i = some caller) <+:
          indicesOf txns caller := by
  have hinv := FairInv.of_reachable hc h
  refine ⟨hinv.slots.once, fun p q txn txn' => hinv.apart, ?_, fun batch left hreturned => ?_⟩
  · obtain ⟨labels, config', hrun, hinv', hend⟩ := exists_run hc order hinv (.of_reachable h)
    refine ⟨labels, config', hrun, hend, fun hdecode => ?_⟩
    rw [FairScheduler.returned, if_pos fun w => hinv'.isDone hdecode (hend w)]
    rfl
  · rw [FairScheduler.returned] at hreturned
    split_ifs at hreturned
    cases hreturned
    have hperm := (Placement.perm_bySlot hinv.slots.once hinv.slots.inside).map Prod.snd
    have hnodup := hperm.nodup_iff.mpr hinv.nodup_indices
    have hbatch : config.shared.scheduled.filter Option.isSome =
        ((Placement.bySlot (FairScheduler.txnsPerBatch c) config.shared.writes).map Prod.snd).map
          (txns[·]?) := by
      rw [hinv.batch_eq, List.map_map]
      rfl
    have hleft : FairScheduler.removeScheduled config.shared.scheduledIndices txns =
        Placement.leftover ((Placement.bySlot (FairScheduler.txnsPerBatch c)
          config.shared.writes).map Prod.snd) txns := by
      rw [hinv.left_eq, Placement.leftover_congr hperm]
    refine ⟨_, hnodup, hbatch, hleft, hleft ▸ Placement.leftover_sublist, ?_, fun caller => ?_⟩
    · rw [hbatch, hleft]
      refine Placement.perm_map_some_leftover hnodup fun i hi => ?_
      obtain ⟨x, hx, rfl⟩ := List.mem_map.mp (hperm.mem_iff.mp hi)
      exact hinv.index_lt hx
    · rw [hinv.filter_batch hc]
      exact hinv.order.prefixes caller

def callsTwo (hex : String) : Decoding := if hex = "0x" then .unknown else .decoded (.call 2)

def threeTxns : List TransactionWithHint := [⟨"0x01", 1, ""⟩, ⟨"0x", 3, ""⟩, ⟨"0x02", 1, ""⟩]

def oneWorks : List (Fin FairScheduler.numThreads × Bool) :=
  List.replicate 38 (⟨0, by decide⟩, false) ++ (List.finRange FairScheduler.numThreads).tail.map (·, false)

/-- The two transactions of account 1 are scheduled in their order, the other one is left. -/
theorem threeTxns_scheduled :
    ∃ config, Reachable ((FairScheduler.program callsTwo 1 .sorted threeTxns).system _) config ∧
      (config.shared.writes.map Prod.fst).Nodup ∧
      ∃ batch left, FairScheduler.returned config threeTxns = some (batch, left) ∧
        batch = [some ⟨"0x01", 1, ""⟩, some ⟨"0x02", 1, ""⟩] ∧ left = [⟨"0x", 3, ""⟩] ∧
        ∃ chosen : List Nat, batch = chosen.map (threeTxns[·]?) ∧
          chosen.filter (fun i => callerAt threeTxns i = some 1) <+: indicesOf threeTxns 1 := by
  obtain ⟨config, h, hreturned⟩ := exists_reachable_of_run
    (S := (FairScheduler.program callsTwo 1 .sorted threeTxns).system _) oneWorks
    (p := fun config => FairScheduler.returned config threeTxns =
      some ([some ⟨"0x01", 1, ""⟩, some ⟨"0x02", 1, ""⟩], [⟨"0x", 3, ""⟩])) (by decide)
  have hreturned := of_decide_eq_true hreturned
  obtain ⟨honce, -, -, hresult⟩ := fairSchedule_exact callsTwo 1 (Nat.le_refl 1) .sorted threeTxns h
  obtain ⟨chosen, -, hbatch, -, -, -, hprefix⟩ := hresult _ _ hreturned
  exact ⟨config, h, honce, _, _, hreturned, rfl, rfl, chosen, hbatch, hprefix 1⟩

end CongestionControl.Pevm
