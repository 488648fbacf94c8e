import CongestionControl.Pevm.FairScheduler

/-!
# The fair batch scheduler keeps the order of the callers

The caller of a transaction is processed by one thread at a time, and its accounts are locked from the
search for a position until the last positions are set. So a slot is written once, callers keep their
order, and transactions that access a common account are apart.
-/

namespace CongestionControl.Pevm

open Function (update update_eq_self_iff update_of_ne update_self)
open Transition

/-! ## The search for a position -/

section Search

variable {scheduled : List (Option TransactionWithHint)} {n p c : Nat}
  {last : Address → Option Nat} {seen : List Address} {s : Search} {a : Address}

theorem freeSlot_spec {start : Nat} (h : freeSlot scheduled start n = some p) :
    start ≤ p ∧ scheduled[p]? = some none := by
  have hmem := List.mem_range'_1.mp (List.mem_of_find?_eq_some h)
  exact ⟨hmem.1, by simpa using List.find?_some h⟩

namespace Search.Sound

theorem new : (Search.new).Sound c last [] := .fresh fun _ h => absurd h List.not_mem_nil

theorem account (hc : 1 ≤ c) (h : s.Sound c last seen) :
    (s.account c n scheduled (last a)).Sound c last (seen ++ [a]) := by
  have hseen : ∀ {P : Address → Prop}, (∀ b ∈ seen, P b) → P a → ∀ b ∈ seen ++ [a], P b := by
    intro P hP ha b hb
    rcases List.mem_append.mp hb with hb | hb
    · exact hP b hb
    · exact List.mem_singleton.mp hb ▸ ha
  unfold Search.account
  cases h with
  | outOfBound => exact .outOfBound
  | fresh hnone =>
    cases hlast : last a with
    | none => exact .fresh (hseen hnone hlast)
    | some q =>
      have hpos : ¬ q + c ≤ 0 := by omega
      simp only [Bool.false_eq_true, if_false, if_neg hpos]
      cases hfree : freeSlot scheduled (q + c) n with
      | none => exact .outOfBound
      | some p =>
        refine .found (hseen (fun b hb q' hq' => ?_) fun q' hq' => ?_)
        · rw [hnone b hb] at hq'
          cases hq'
        · rw [hlast] at hq'
          cases hq'
          exact (freeSlot_spec hfree).1
  | @found position hfound =>
    cases hlast : last a with
    | none =>
      refine .found (hseen hfound fun q hq => ?_)
      rw [hlast] at hq
      cases hq
    | some q =>
      by_cases hle : q + c ≤ position
      · simp only [Bool.false_eq_true, if_false, if_pos hle]
        refine .found (hseen hfound fun q' hq' => ?_)
        rw [hlast] at hq'
        cases hq'
        exact hle
      · simp only [Bool.false_eq_true, if_false, if_neg hle]
        cases hfree : freeSlot scheduled (q + c) n with
        | none => exact .outOfBound
        | some p =>
          have hp := (freeSlot_spec hfree).1
          refine .found (hseen (fun b hb q' hq' => ?_) fun q' hq' => ?_)
          · exact (hfound b hb q' hq').trans (by omega)
          · rw [hlast] at hq'
            cases hq'
            exact hp

theorem position (h : s.Sound c last seen) (hp : s.position n scheduled = some p) :
    ∀ a ∈ seen, ∀ q, last a = some q → q + c ≤ p := by
  intro a ha q hq
  cases h with
  | fresh hnone =>
    rw [hnone a ha] at hq
    cases hq
  | found hfound =>
    cases hp
    exact hfound a ha q hq
  | outOfBound => cases hp

theorem congr {last' : Address → Option Nat} (h : s.Sound c last seen)
    (hlast : ∀ a ∈ seen, last' a = last a) : s.Sound c last' seen := by
  cases h with
  | fresh hnone => exact .fresh fun a ha => (hlast a ha).trans (hnone a ha)
  | found hfound => exact .found fun a ha q hq => hfound a ha q ((hlast a ha).symm.trans hq)
  | outOfBound => exact .outOfBound

end Search.Sound

end Search

/-! ## The slots -/

variable {g' : FairScheduler} {queue : List (Nat × TransactionWithHint)} {rest : List Address}

section Effects

variable {decode : String → Decoding} {c : Nat} {txns : List TransactionWithHint}
  {g : FairScheduler} {job : Job} {p : Nat} {a : Address} {txn : TransactionWithHint}

theorem callerAt_of_getElem? {i : Nat} (h : txns[i]? = some txn) :
    callerAt txns i = some txn.caller := by
  rw [callerAt, h]
  rfl

namespace SlotInv

section

variable (h : SlotInv decode c txns g)

include h

theorem congr (hscheduled : g'.scheduled = g.scheduled)
    (hindices : g'.scheduledIndices = g.scheduledIndices) (hwrites : g'.writes = g.writes) :
    SlotInv decode c txns g' := by
  obtain ⟨h1, h2, h3, h4, h5, h6⟩ := h
  constructor <;> simpa only [hscheduled, hindices, hwrites]

theorem exists_txn {x : Nat × Nat} (hx : x ∈ g.writes) :
    ∃ txn, txns[x.2]? = some txn := by
  obtain ⟨caller, -, hcaller⟩ := h.accessed x hx
  obtain ⟨txn, htxn, -⟩ := Option.map_eq_some_iff.mp hcaller
  exact ⟨txn, htxn⟩

theorem fills :
    Placement.Fills (txns[·]?) (FairScheduler.txnsPerBatch c) g.scheduled g.writes where
  length := h.length
  slot := h.slot
  once := h.once
  inside := h.inside
  known _ hx := Option.isSome_iff_exists.mpr (h.exists_txn hx)

theorem place (hfree : g.scheduled[p]? = some none) (hjob : txns[job.index]? = some job.txn)
    (hcaller : job.txn.caller ∈ accountsAt decode txns job.index) :
    SlotInv decode c txns (g.place p job) := by
  obtain ⟨hlength, hslot, honce, hinside, -⟩ := h.fills.place hfree hjob
  refine ⟨hlength, hslot, honce, hinside, fun x hx => ?_, ?_⟩
  · rcases List.mem_append.mp hx with hx | hx
    · exact h.accessed x hx
    · exact List.mem_singleton.mp hx ▸ ⟨_, hcaller, callerAt_of_getElem? hjob⟩
  · change g.scheduledIndices ++ [job.index] = (g.writes ++ [(p, job.index)]).map Prod.snd
    rw [h.indices, List.map_append]
    rfl

end

end SlotInv

/-! ## The order of the callers -/

namespace OrderInv

variable {ω : Type} {flight : ω → Option Job} {w : ω}

theorem congr (h : OrderInv txns g flight) (hqueues : g'.callerQueues = g.callerQueues)
    (hslots : g'.availableSlots = g.availableSlots) (hwrites : g'.writes = g.writes) :
    OrderInv txns g' flight := by
  obtain ⟨h1, h2, h3, h4, h5⟩ := h
  constructor <;> simpa only [hqueues, hslots, hwrites]

theorem scheduledOf_append (writes : List (Nat × Nat)) (hjob : callerAt txns job.index = some job.caller) :
    scheduledOf txns (writes ++ [(p, job.index)]) a =
      scheduledOf txns writes a ++ if job.caller = a then [job.index] else [] := by
  rw [scheduledOf, List.map_append, List.filter_append]
  congr 1
  by_cases ha : job.caller = a <;> simp [hjob, ha]

variable [DecidableEq ω]

theorem setQueue_of_ne {b : Address} (hb : b ≠ a) :
    (g.setQueue a queue).callerQueues b = g.callerQueues b := update_of_ne hb _ _

theorem setQueue_self :
    (g.setQueue a queue).callerQueues a = queue := update_self _ _ _

theorem of_update_none {w' : ω} {job' : Job} (h : update flight w none w' = some job') :
    w' ≠ w ∧ flight w' = some job' := by
  by_cases hw : w' = w
  · subst hw
    rw [update_self] at h
    cases h
  · rw [update_of_ne hw] at h
    exact ⟨hw, h⟩

section

variable (h : OrderInv txns g flight)

include h

theorem take {index : Nat} (hqueue : g.callerQueues a = (index, txn) :: queue)
    (hw : flight w = none) (hnone : ∀ w job, flight w = some job → job.caller ≠ a) :
    OrderInv txns (g.setQueue a queue) (update flight w (some ⟨a, index, txn⟩)) := by
  have hhead := h.queue a (index, txn) (hqueue ▸ List.mem_cons_self)
  have hcases : ∀ {w' job'}, update flight w (some ⟨a, index, txn⟩) w' = some job' →
      job' = ⟨a, index, txn⟩ ∨ flight w' = some job' := by
    intro w' job' hf
    by_cases hw' : w' = w
    · subst hw'
      rw [update_self] at hf
      exact .inl (Option.some.inj hf).symm
    · rw [update_of_ne hw'] at hf
      exact .inr hf
  constructor
  · exact h.prefixes
  · intro b x hx
    by_cases hb : b = a
    · subst hb
      rw [setQueue_self] at hx
      exact h.queue b x (hqueue ▸ List.mem_cons_of_mem _ hx)
    · rw [setQueue_of_ne hb] at hx
      exact h.queue b x hx
  · intro w' job' hf
    rcases hcases hf with rfl | hf
    · exact hhead
    · exact h.job hf
  · intro havail b hb
    have hba : b ≠ a := Ne.symm (hb w ⟨a, index, txn⟩ (update_self ..))
    rw [setQueue_of_ne hba]
    refine h.queued havail b fun w' job' hf => hb w' job' ?_
    rwa [update_of_ne]
    rintro rfl
    rw [hw] at hf
    cases hf
  · intro havail w' job' hf
    rcases hcases hf with rfl | hf
    · have hall := h.queued havail a hnone
      rw [hqueue] at hall
      rw [setQueue_self]
      exact hall
    · rw [setQueue_of_ne (hnone w' job' hf)]
      exact h.taken havail hf

theorem putBack (hw : flight w = some job)
    (honly : ∀ w' job', flight w' = some job' → job'.caller = job.caller → w' = w) :
    OrderInv txns (g.setQueue job.caller ((job.index, job.txn) :: g.callerQueues job.caller))
      (update flight w none) := by
  constructor
  · exact h.prefixes
  · intro b x hx
    by_cases hb : b = job.caller
    · subst hb
      rw [setQueue_self] at hx
      rcases List.mem_cons.mp hx with rfl | hx
      · exact h.job hw
      · exact h.queue _ x hx
    · rw [setQueue_of_ne hb] at hx
      exact h.queue b x hx
  · intro w' job' hf
    exact h.job (of_update_none hf).2
  · intro havail b hb
    by_cases hbj : b = job.caller
    · subst hbj
      rw [setQueue_self]
      exact h.taken havail hw
    · rw [setQueue_of_ne hbj]
      refine h.queued havail b fun w' job' hf => ?_
      by_cases hw' : w' = w
      · subst hw'
        rw [hw] at hf
        cases hf
        exact Ne.symm hbj
      · exact hb w' job' (by rwa [update_of_ne hw'])
  · intro havail w' job' hf
    obtain ⟨hw', hf⟩ := of_update_none hf
    rw [setQueue_of_ne fun he => hw' (honly w' job' hf he)]
    exact h.taken havail hf

theorem drop (hfull : g.availableSlots = 0) :
    OrderInv txns g (update flight w none) where
  prefixes := h.prefixes
  queue := h.queue
  job hf := h.job (of_update_none hf).2
  queued havail := absurd havail (by omega)
  taken havail := absurd havail (by omega)

theorem place (hw : flight w = some job) (hfree : 0 < g.availableSlots)
    (honly : ∀ w' job', flight w' = some job' → job'.caller = job.caller → w' = w) :
    OrderInv txns (g.place p job) (update flight w none) := by
  obtain ⟨hindex, hcaller⟩ := h.job hw
  have hjob : callerAt txns job.index = some job.caller := hcaller ▸ callerAt_of_getElem? hindex
  have hself : scheduledOf txns (g.place p job).writes job.caller =
      scheduledOf txns g.writes job.caller ++ [job.index] := by
    have happend := scheduledOf_append (p := p) (a := job.caller) g.writes hjob
    rw [if_pos rfl] at happend
    exact happend
  have hother : ∀ {b}, b ≠ job.caller →
      scheduledOf txns (g.place p job).writes b = scheduledOf txns g.writes b := by
    intro b hb
    have happend := scheduledOf_append (p := p) (a := b) g.writes hjob
    rw [if_neg (Ne.symm hb), List.append_nil] at happend
    exact happend
  have hall := h.taken hfree hw
  rw [List.append_cons, ← hself] at hall
  constructor
  · intro b
    by_cases hb : b = job.caller
    · subst hb
      exact ⟨_, hall.symm⟩
    · rw [hother hb]
      exact h.prefixes b
  · exact h.queue
  · intro w' job' hf
    exact h.job (of_update_none hf).2
  · intro _ b hb
    by_cases hbj : b = job.caller
    · subst hbj
      exact hall
    · rw [hother hbj]
      refine h.queued hfree b fun w' job' hf => ?_
      by_cases hw' : w' = w
      · subst hw'
        rw [hw] at hf
        cases hf
        exact Ne.symm hbj
      · exact hb w' job' (by rwa [update_of_ne hw'])
  · intro _ w' job' hf
    obtain ⟨hw', hf⟩ := of_update_none hf
    rw [hother fun he => hw' (honly w' job' hf he)]
    exact h.taken hfree hf

end

end OrderInv

/-! ## The last positions -/

namespace PositionInv

variable {ω : Type} {pending : ω → List Address} {w : ω} {accounts : List Address}

theorem congr (h : PositionInv decode c txns g pending)
    (hlast : g'.accountLastPosition = g.accountLastPosition) (hwrites : g'.writes = g.writes) :
    PositionInv decode c txns g' pending := by
  obtain ⟨h1, h2⟩ := h
  constructor <;> simpa only [hlast, hwrites]

variable [DecidableEq ω]

/-- A transaction is placed behind the last positions of its accounts, which are locked. -/
theorem place (h : PositionInv decode c txns g pending)
    (haccounts : accountsAt decode txns job.index = accounts)
    (hbehind : ∀ a ∈ accounts, ∀ q, g.accountLastPosition a = some q → q + c ≤ p)
    (hset : ∀ a ∈ accounts, ∀ w, a ∉ pending w) (hw : pending w = []) :
    PositionInv decode c txns (g.place p job) (update pending w accounts) where
  spaced := by
    refine h.spaced.append fun a ha q hq => ?_
    rw [haccounts] at ha
    exact hbehind a ha q ((h.last a (hset a ha)).trans hq)
  last a ha := by
    have hnot : a ∉ accountsAt decode txns job.index := by
      rw [haccounts]
      simpa using ha w
    have hlast : g.accountLastPosition a = Placement.last (accountsAt decode txns) g.writes a := by
      refine h.last a fun w' => ?_
      by_cases hw' : w' = w
      · rw [hw', hw]
        exact List.not_mem_nil
      · simpa [hw'] using ha w'
    exact hlast.trans (Placement.last_append_of_not_mem hnot).symm

theorem setLast (h : PositionInv decode c txns g pending) (hw : pending w = a :: rest)
    (hlast : Placement.last (accountsAt decode txns) g.writes a = some p) :
    PositionInv decode c txns (g.setLastPosition a p) (update pending w rest) where
  spaced := h.spaced
  last b hb := by
    change update g.accountLastPosition a (some p) b = _
    by_cases hba : b = a
    · subst hba
      rw [update_self]
      exact hlast.symm
    · rw [update_of_ne hba]
      refine h.last b fun w' => ?_
      by_cases hw' : w' = w
      · have hrest : b ∉ rest := by simpa using hb w
        rw [hw', hw]
        exact fun hmem => (List.mem_cons.mp hmem).elim hba hrest
      · simpa [hw'] using hb w'

end PositionInv

end Effects

/-! ## The steps -/

namespace FairScheduler

inductive Step (decode : String → Decoding) (c : Nat) (g : FairScheduler) :
    FairPoint → FairScheduler → FairPoint → Prop
  | steal {caller callers} : g.injector = caller :: callers →
    Step decode c g .steal { g with injector := callers } (.mark caller)
  | leave : Step decode c g .steal g .done
  | mark {caller} : g.callerProcessing caller = false →
    Step decode c g (.mark caller) (g.setProcessing caller true) (.popFront caller)
  | busy {caller} : Step decode c g (.mark caller) g (.putBack caller)
  | putBack {caller} :
    Step decode c g (.putBack caller) { g with injector := g.injector ++ [caller] } .steal
  | pop {caller index txn queue} : g.callerQueues caller = (index, txn) :: queue →
    Step decode c g (.popFront caller) (g.setQueue caller queue) (.loadSlots ⟨caller, index, txn⟩)
  | empty {caller} : Step decode c g (.popFront caller) g (.unmark caller)
  | full {job} : g.availableSlots = 0 → Step decode c g (.loadSlots job) g (.unmark job.caller)
  | panic {job} : decode job.txn.rawHex = .panics → Step decode c g (.loadSlots job) g (.panicked job)
  | unknown {job} : Step decode c g (.loadSlots job) g (.pushFront job)
  | decoded {job transactTo} : decode job.txn.rawHex = .decoded transactTo →
    Step decode c g (.loadSlots job) g
      (.lockAccounts job (accessedAccounts job.txn.caller transactTo))
  | lock {job accounts} : (∀ a ∈ accounts, a ∉ g.accountBeingAccessed) →
    Step decode c g (.lockAccounts job accounts)
      { g with accountBeingAccessed := g.accountBeingAccessed ∪ accounts.toFinset }
      (.search job accounts accounts .new)
  | wait {job accounts} : Step decode c g (.lockAccounts job accounts) g (.lockAccounts job accounts)
  | search {job accounts account rest s} :
    Step decode c g (.search job accounts (account :: rest) s) g (.search job accounts rest
      (s.account c (txnsPerBatch c) g.scheduled (g.accountLastPosition account)))
  | searched {job accounts s} : Step decode c g (.search job accounts [] s) g (.claim job accounts s)
  | outOfBound {job accounts s} :
    Step decode c g (.search job accounts [] s) g (.unlockAccounts job accounts false)
  | place {job accounts s p} : s.position (txnsPerBatch c) g.scheduled = some p →
    g.scheduled[p]? = some none → 0 < g.availableSlots →
    Step decode c g (.claim job accounts s) (g.place p job) (.setPositions job accounts accounts p)
  | lost {job accounts s} :
    Step decode c g (.claim job accounts s) g (.unlockAccounts job accounts false)
  | setPosition {job accounts account rest p} :
    Step decode c g (.setPositions job accounts (account :: rest) p) (g.setLastPosition account p)
      (.setPositions job accounts rest p)
  | positionsSet {job accounts p} :
    Step decode c g (.setPositions job accounts [] p) g (.unlockAccounts job accounts true)
  | scheduled {job accounts} :
    Step decode c g (.unlockAccounts job accounts true)
      { g with accountBeingAccessed := g.accountBeingAccessed \ accounts.toFinset } (.checkQueue job)
  | failed {job accounts} :
    Step decode c g (.unlockAccounts job accounts false)
      { g with accountBeingAccessed := g.accountBeingAccessed \ accounts.toFinset } (.pushFront job)
  | pushFront {job} :
    Step decode c g (.pushFront job)
      (g.setQueue job.caller ((job.index, job.txn) :: g.callerQueues job.caller)) (.unmark job.caller)
  | more {job} : Step decode c g (.checkQueue job) g (.pushCaller job.caller)
  | enough {job} : Step decode c g (.checkQueue job) g (.unmark job.caller)
  | pushCaller {caller} :
    Step decode c g (.pushCaller caller) { g with injector := g.injector ++ [caller] } (.unmark caller)
  | unmark {caller} : Step decode c g (.unmark caller) (g.setProcessing caller false) .steal

theorem step_of_exec {decode : String → Decoding} {c : Nat} {g : FairScheduler}
    {point point' : FairPoint} {retry : Bool}
    (h : exec decode c g point retry = some (g', point')) :
    Step decode c g point g' point' := by
  cases point with
  | steal =>
    simp only [exec] at h
    split at h <;> rename_i hinjector <;> cases h
    · exact .steal hinjector
    · exact .leave
  | mark caller =>
    simp only [exec] at h
    split_ifs at h with hmarked <;> cases h
    · exact .busy
    · exact .mark (Bool.eq_false_of_not_eq_true hmarked)
  | popFront caller =>
    simp only [exec] at h
    split at h <;> rename_i hqueue <;> cases h
    · exact .empty
    · exact .pop hqueue
  | loadSlots job =>
    simp only [exec] at h
    split_ifs at h with havail
    · split at h <;> rename_i hdecode <;> cases h
      · exact .panic hdecode
      · exact .unknown
      · exact .decoded hdecode
    · cases h
      exact .full (Nat.eq_zero_of_not_pos havail)
  | lockAccounts job accounts =>
    simp only [exec] at h
    split_ifs at h with hfree <;> cases h
    · exact .lock (by simpa using hfree)
    · exact .wait
  | search job accounts rest s =>
    cases rest with
    | nil =>
      simp only [exec] at h
      split_ifs at h <;> cases h
      · exact .searched
      · exact .outOfBound
    | cons account rest =>
      cases h
      exact .search
  | claim job accounts s =>
    simp only [exec] at h
    split at h
    · rename_i p hp
      split_ifs at h with hfree <;> cases h
      · exact .place hp hfree.1 hfree.2
      · exact .lost
    · cases h
      exact .lost
  | setPositions job accounts rest p =>
    cases rest with
    | nil =>
      cases h
      exact .positionsSet
    | cons account rest =>
      cases h
      exact .setPosition
  | unlockAccounts job accounts positionFound =>
    cases h
    cases positionFound with
    | true => exact .scheduled
    | false => exact .failed
  | checkQueue job =>
    simp only [exec] at h
    split_ifs at h <;> cases h
    · exact .more
    · exact .enough
  | putBack caller =>
    cases h
    exact .putBack
  | pushFront job =>
    cases h
    exact .pushFront
  | pushCaller caller =>
    cases h
    exact .pushCaller
  | unmark caller =>
    cases h
    exact .unmark
  | done => cases h
  | panicked job => cases h

end FairScheduler

/-! ## The invariant -/

namespace FairPoint

variable {decode : String → Decoding} {c : Nat} {txns : List TransactionWithHint}
  {g g' : FairScheduler} {point : FairPoint}

theorem marked_of_flight {job : Job} (h : point.flight = some job) :
    point.marked = some job.caller := by
  cases point with
  | unlockAccounts job accounts positionFound =>
    cases positionFound <;> cases h
    rfl
  | _ => cases h <;> rfl

theorem pending_subset (h : point.Ok decode c txns g) : ∀ a ∈ point.pending, a ∈ point.locks := by
  cases point with
  | setPositions job accounts rest position => exact fun a ha => (h a ha).1
  | _ => exact fun a ha => absurd ha List.not_mem_nil

theorem Ok.frame (h : point.Ok decode c txns g)
    (hlast : ∀ a ∈ point.locks, g'.accountLastPosition a = g.accountLastPosition a)
    (hwrites : ∀ a ∈ point.locks, Placement.last (accountsAt decode txns) g'.writes a =
      Placement.last (accountsAt decode txns) g.writes a) : point.Ok decode c txns g' := by
  cases point with
  | search job accounts rest s =>
    obtain ⟨haccounts, hcaller, seen, rfl, hs⟩ := h
    exact ⟨haccounts, hcaller, seen, rfl,
      hs.congr fun a ha => hlast a (List.mem_append_left rest ha)⟩
  | claim job accounts s => exact ⟨h.1, h.2.1, h.2.2.congr hlast⟩
  | setPositions job accounts rest position =>
    exact fun a ha => ⟨(h a ha).1, (hwrites a (h a ha).1).trans (h a ha).2⟩
  | lockAccounts job accounts => exact h
  | panicked job => exact h
  | _ => trivial

end FairPoint

namespace FairInv

variable {decode : String → Decoding} {c : Nat} {txns : List TransactionWithHint}
  {g g' : FairScheduler} {ω : Type} {points : ω → FairPoint} {w : ω}
  {old point : FairPoint} {job : Job} {a : Address} {accounts : List Address}

theorem eq_of_caller (h : FairInv decode c txns g points) {w' : ω} {job' : Job}
    (hw : (points w).marked = some a) (hf : (points w').flight = some job') (ha : job'.caller = a) :
    w' = w :=
  h.marks.unique (ha ▸ FairPoint.marked_of_flight hf) hw

variable [DecidableEq ω]

theorem move
    (hmarks : Mutex.LockInv g'.callerProcessing (update (fun w => (points w).marked) w point.marked))
    (hlocks : Mutex.LockSetInv g'.accountBeingAccessed
      (update (fun w => (points w).locks) w point.locks))
    (hslots : SlotInv decode c txns g')
    (horder : OrderInv txns g' (update (fun w => (points w).flight) w point.flight))
    (hpositions : PositionInv decode c txns g' (update (fun w => (points w).pending) w point.pending))
    (hok : point.Ok decode c txns g') (hothers : ∀ w' ≠ w, (points w').Ok decode c txns g') :
    FairInv decode c txns g' (update points w point) where
  marks := by rwa [map_update FairPoint.marked]
  locks := by rwa [map_update FairPoint.locks]
  slots := hslots
  order := by rwa [map_update FairPoint.flight]
  positions := by rwa [map_update FairPoint.pending]
  ok w' := by
    by_cases hw : w' = w
    · subst hw
      rwa [update_self]
    · rw [update_of_ne hw]
      exact hothers w' hw

/-! What a step keeps. -/

section

variable (h : FairInv decode c txns g points)

include h

section

variable (hw : points w = old)

include hw

theorem keep_marks (hp : point.marked = old.marked) :
    Mutex.LockInv g.callerProcessing (update (fun w => (points w).marked) w point.marked) := by
  rw [update_eq_self_iff.mpr (hw ▸ hp)]
  exact h.marks

theorem keep_locks (hp : point.locks = old.locks) :
    Mutex.LockSetInv g.accountBeingAccessed
      (update (fun w => (points w).locks) w point.locks) := by
  rw [update_eq_self_iff.mpr (hw ▸ hp)]
  exact h.locks

theorem keep_order (hp : point.flight = old.flight) :
    OrderInv txns g (update (fun w => (points w).flight) w point.flight) := by
  rw [update_eq_self_iff.mpr (hw ▸ hp)]
  exact h.order

theorem keep_positions (hp : point.pending = old.pending) :
    PositionInv decode c txns g (update (fun w => (points w).pending) w point.pending) := by
  rw [update_eq_self_iff.mpr (hw ▸ hp)]
  exact h.positions

theorem quiet (injector : List Address) (hmarked : point.marked = old.marked)
    (hlocks : point.locks = old.locks) (hflight : point.flight = old.flight)
    (hpending : point.pending = old.pending) (hok : point.Ok decode c txns g) :
    FairInv decode c txns { g with injector := injector } (update points w point) :=
  move (h.keep_marks hw hmarked) (h.keep_locks hw hlocks) (h.slots.congr rfl rfl rfl)
    ((h.keep_order hw hflight).congr rfl rfl rfl) ((h.keep_positions hw hpending).congr rfl rfl)
    (hok.frame (fun _ _ => rfl) fun _ _ => rfl)
    fun w' _ => (h.ok w').frame (fun _ _ => rfl) fun _ _ => rfl

theorem setProcessing {processing : Bool}
    (hmarks : Mutex.LockInv (update g.callerProcessing a processing)
      (update (fun w => (points w).marked) w point.marked)) (hlocks : point.locks = old.locks)
    (hflight : point.flight = old.flight) (hpending : point.pending = old.pending)
    (hok : point.Ok decode c txns g) :
    FairInv decode c txns (g.setProcessing a processing) (update points w point) :=
  move hmarks (h.keep_locks hw hlocks) (h.slots.congr rfl rfl rfl)
    ((h.keep_order hw hflight).congr rfl rfl rfl) ((h.keep_positions hw hpending).congr rfl rfl)
    (hok.frame (fun _ _ => rfl) fun _ _ => rfl)
    fun w' _ => (h.ok w').frame (fun _ _ => rfl) fun _ _ => rfl

theorem setQueue
    (horder : OrderInv txns (g.setQueue a queue) (update (fun w => (points w).flight) w point.flight))
    (hmarked : point.marked = old.marked) (hlocks : point.locks = old.locks)
    (hpending : point.pending = old.pending) (hok : point.Ok decode c txns g) :
    FairInv decode c txns (g.setQueue a queue) (update points w point) :=
  move (h.keep_marks hw hmarked) (h.keep_locks hw hlocks) (h.slots.congr rfl rfl rfl) horder
    ((h.keep_positions hw hpending).congr rfl rfl) (hok.frame (fun _ _ => rfl) fun _ _ => rfl)
    fun w' _ => (h.ok w').frame (fun _ _ => rfl) fun _ _ => rfl

theorem setLocks {locked : Finset Address}
    (hlocks : Mutex.LockSetInv locked (update (fun w => (points w).locks) w point.locks))
    (hmarked : point.marked = old.marked) (hflight : point.flight = old.flight)
    (hpending : point.pending = old.pending) (hok : point.Ok decode c txns g) :
    FairInv decode c txns { g with accountBeingAccessed := locked } (update points w point) :=
  move (h.keep_marks hw hmarked) hlocks (h.slots.congr rfl rfl rfl)
    ((h.keep_order hw hflight).congr rfl rfl rfl) ((h.keep_positions hw hpending).congr rfl rfl)
    (hok.frame (fun _ _ => rfl) fun _ _ => rfl)
    fun w' _ => (h.ok w').frame (fun _ _ => rfl) fun _ _ => rfl

end

theorem place {s : Search} {p : Nat} (hw : points w = .claim job accounts s)
    (hp : s.position (FairScheduler.txnsPerBatch c) g.scheduled = some p)
    (hfree : g.scheduled[p]? = some none) (havail : 0 < g.availableSlots) :
    FairInv decode c txns (g.place p job)
      (update points w (.setPositions job accounts accounts p)) := by
  have hok := h.ok w
  rw [hw] at hok
  obtain ⟨haccounts, hcaller, hs⟩ := hok
  have hflight : (points w).flight = some job := by rw [hw]; rfl
  have hlocks : (points w).locks = accounts := by rw [hw]; rfl
  have hpending : (points w).pending = [] := by rw [hw]; rfl
  obtain ⟨hindex, hjob⟩ := h.order.job hflight
  have honly : ∀ w' job', (points w').flight = some job' → job'.caller = job.caller → w' = w :=
    fun w' job' hf ha => h.eq_of_caller (FairPoint.marked_of_flight hflight) hf ha
  -- Another thread sets the last positions of its own accounts.
  have hset : ∀ a ∈ accounts, ∀ w', a ∉ (points w').pending := by
    intro a ha w' hmem
    have hw' : w' = w := h.locks.unique (FairPoint.pending_subset (h.ok w') a hmem) (hlocks ▸ ha)
    rw [hw', hpending] at hmem
    cases hmem
  refine move (h.keep_marks hw rfl) (h.keep_locks hw rfl) ?_ ?_ ?_ ?_ ?_
  · exact h.slots.place hfree hindex (by rwa [haccounts, hjob])
  · exact h.order.place hflight havail honly
  · exact h.positions.place haccounts (hs.position hp) hset hpending
  · intro a ha
    exact ⟨ha, Placement.last_append_of_mem (haccounts ▸ ha)⟩
  · intro w' hne
    refine (h.ok w').frame (fun _ _ => rfl) fun a ha => ?_
    refine Placement.last_append_of_not_mem fun hmem => hne (h.locks.unique ha ?_)
    rw [hlocks, ← haccounts]
    exact hmem

theorem setLast {p : Nat} (hw : points w = .setPositions job accounts (a :: rest) p) :
    FairInv decode c txns (g.setLastPosition a p)
      (update points w (.setPositions job accounts rest p)) := by
  have hok := h.ok w
  rw [hw] at hok
  have hlocks : (points w).locks = accounts := by rw [hw]; rfl
  obtain ⟨hmem, hlast⟩ := hok a List.mem_cons_self
  refine move (h.keep_marks hw rfl) (h.keep_locks hw rfl)
    (h.slots.congr rfl rfl rfl) ((h.keep_order hw rfl).congr rfl rfl rfl)
    (h.positions.setLast (by rw [hw]; rfl) hlast)
    (fun b hb => hok b (List.mem_cons_of_mem a hb)) fun w' hne => ?_
  refine (h.ok w').frame (fun b hb => update_of_ne ?_ _ _) fun _ _ => rfl
  rintro rfl
  exact hne (h.locks.unique hb (hlocks ▸ hmem))

end

theorem accountsAt_of_decoded {transactTo : TransactTo} (hindex : txns[job.index]? = some job.txn)
    (hdecode : decode job.txn.rawHex = .decoded transactTo) :
    accountsAt decode txns job.index = accessedAccounts job.txn.caller transactTo := by
  rw [accountsAt, hindex, Option.elim_some, TransactionWithHint.accounts, hdecode]

theorem caller_mem_accessedAccounts {caller : Address} (transactTo : TransactTo) :
    caller ∈ accessedAccounts caller transactTo := by
  cases transactTo <;> exact List.mem_cons_self

theorem step (hc : 1 ≤ c) (h : FairInv decode c txns g points) (hw : points w = old)
    (hstep : FairScheduler.Step decode c g old g' point) :
    FairInv decode c txns g' (update points w point) := by
  have hok := h.ok w
  rw [hw] at hok
  cases hstep with
  | steal | putBack | pushCaller => exact h.quiet hw _ rfl rfl rfl rfl trivial
  | leave | busy | empty | unknown | outOfBound | lost | positionsSet | more | enough =>
    exact h.quiet hw g.injector rfl rfl rfl rfl trivial
  | mark hfree =>
    exact h.setProcessing hw (h.marks.acquire hfree (by rw [hw]; rfl)) rfl rfl rfl trivial
  | unmark => exact h.setProcessing hw (h.marks.release (by rw [hw]; rfl)) rfl rfl rfl trivial
  | @pop caller _ _ _ hqueue =>
    have hmarked : (points w).marked = some caller := by rw [hw]; rfl
    have hflight : (points w).flight = none := by rw [hw]; rfl
    refine h.setQueue hw (h.order.take hqueue hflight fun w' job hf hcaller => ?_) rfl rfl rfl trivial
    rw [h.eq_of_caller hmarked hf hcaller, hflight] at hf
    cases hf
  | @pushFront job =>
    have hflight : (points w).flight = some job := by rw [hw]; rfl
    refine h.setQueue hw (h.order.putBack hflight fun w' job' hf hcaller => ?_) rfl rfl rfl trivial
    exact h.eq_of_caller (FairPoint.marked_of_flight hflight) hf hcaller
  | full hfull =>
    exact move (h.keep_marks hw rfl) (h.keep_locks hw rfl) h.slots (h.order.drop hfull)
      (h.keep_positions hw rfl) trivial fun w' _ => h.ok w'
  | panic hdecode => exact h.quiet hw g.injector rfl rfl rfl rfl hdecode
  | @decoded job transactTo hdecode =>
    obtain ⟨hindex, hjob⟩ := h.order.job (by rw [hw]; rfl : (points w).flight = some job)
    refine h.quiet hw g.injector rfl rfl rfl rfl ⟨accountsAt_of_decoded hindex hdecode, ?_⟩
    exact hjob ▸ caller_mem_accessedAccounts transactTo
  | wait => exact h.quiet hw g.injector rfl rfl rfl rfl hok
  | lock hfree =>
    exact h.setLocks hw (h.locks.acquire hfree (by rw [hw]; rfl)) rfl rfl rfl
      ⟨hok.1, hok.2, [], rfl, .new⟩
  | scheduled | failed =>
    exact h.setLocks hw (h.locks.release (by rw [hw]; rfl)) rfl rfl rfl trivial
  | @search _ _ account _ _ =>
    obtain ⟨haccounts, hcaller, seen, hseen, hs⟩ := hok
    refine h.quiet hw g.injector rfl rfl rfl rfl ⟨haccounts, hcaller, seen ++ [account], ?_, ?_⟩
    · rw [hseen, List.append_cons]
    · exact hs.account hc
  | searched =>
    obtain ⟨haccounts, hcaller, seen, hseen, hs⟩ := hok
    rw [List.append_nil] at hseen
    subst hseen
    exact h.quiet hw g.injector rfl rfl rfl rfl ⟨haccounts, hcaller, hs⟩
  | place hp hfree havail => exact h.place hw hp hfree havail
  | setPosition => exact h.setLast hw

/-! ## The start -/

theorem queues_eq (txns : List TransactionWithHint) (a : Address) :
    FairScheduler.queues txns a =
      (txns.zipIdx.filter fun x => x.1.caller = a).map fun x => (x.2, x.1) := by
  have hfold : ∀ (l : List (TransactionWithHint × Nat))
      (queues : Address → List (Nat × TransactionWithHint)),
      l.foldl (fun queues entry => update queues entry.1.caller
        (queues entry.1.caller ++ [(entry.2, entry.1)])) queues a =
      queues a ++ (l.filter fun x => x.1.caller = a).map fun x => (x.2, x.1) := by
    intro l
    induction l with
    | nil => simp
    | cons x l ih =>
      intro queues
      rw [List.foldl_cons, ih]
      by_cases hx : x.1.caller = a
      · subst hx
        simp
      · rw [update_of_ne (Ne.symm hx)]
        simp [hx]
  exact hfold txns.zipIdx fun _ => []

theorem indicesOf_eq (txns : List TransactionWithHint) (a : Address) :
    indicesOf txns a = (FairScheduler.queues txns a).map Prod.fst := by
  have hrange : List.range txns.length = txns.zipIdx.map Prod.snd := by
    rw [List.zipIdx_map_snd, List.range_eq_range']
  rw [queues_eq, List.map_map, indicesOf, hrange, List.filter_map]
  refine congrArg _ (List.filter_congr fun x hx => ?_)
  simp [callerAt_of_getElem? (List.mem_zipIdx_iff_getElem?.mp hx)]

omit [DecidableEq ω] in
theorem new (order : IterOrder Address) :
    FairInv decode c txns (FairScheduler.new c order txns) fun _ : ω => .steal where
  marks := ⟨fun _ => by simp [FairScheduler.new, FairPoint.marked], nofun⟩
  locks := ⟨fun _ => by simp [FairScheduler.new, FairPoint.locks], nofun⟩
  slots := {
    length := List.length_replicate
    slot := fun p hp => by
      change (List.replicate _ none)[p]? = some none
      rw [List.getElem?_replicate, if_pos hp]
    once := List.nodup_nil
    inside := nofun
    accessed := nofun
    indices := rfl }
  order := {
    prefixes := fun _ => List.nil_prefix
    queue := fun a x hx => by
      change x ∈ FairScheduler.queues txns a at hx
      rw [queues_eq] at hx
      obtain ⟨y, hy, rfl⟩ := List.mem_map.mp hx
      obtain ⟨hmem, hcaller⟩ := List.mem_filter.mp hy
      exact ⟨List.mem_zipIdx_iff_getElem?.mp hmem, of_decide_eq_true hcaller⟩
    job := nofun
    queued := fun _ a _ => indicesOf_eq txns a
    taken := nofun }
  positions := ⟨Placement.spaced_nil, fun _ _ => rfl⟩
  ok _ := trivial

theorem of_reachable (hc : 1 ≤ c) {order : IterOrder Address}
    {config : Config FairScheduler FairPoint ω}
    (h : Reachable ((FairScheduler.program decode c order txns).system ω) config) :
    FairInv decode c txns config.shared config.threads :=
  Program.invariant (I := fun g points => FairInv decode c txns g points) (new order)
    (fun _ _ _ _ _ _ hI _ hex => hI.step hc rfl (FairScheduler.step_of_exec hex)) h

/-! ## The batch -/

section Batch

variable (h : FairInv decode c txns g points)
include h

omit [DecidableEq ω]

theorem nodup_indices : (g.writes.map Prod.snd).Nodup := by
  rw [List.nodup_iff_count_le_one]
  intro i
  by_cases hi : i ∈ g.writes.map Prod.snd
  · obtain ⟨x, hx, rfl⟩ := List.mem_map.mp hi
    obtain ⟨caller, -, hcaller⟩ := h.slots.accessed x hx
    have hnodup : (scheduledOf txns g.writes caller).Nodup :=
      (List.nodup_range.filter _).sublist (h.order.prefixes caller).sublist
    have hcount := List.nodup_iff_count_le_one.mp hnodup x.2
    rwa [scheduledOf, List.count_filter
      (a := x.2) (decide_eq_true hcaller)] at hcount
  · rw [List.count_eq_zero_of_not_mem hi]
    exact Nat.zero_le 1

theorem index_lt {x : Nat × Nat} (hx : x ∈ g.writes) : x.2 < txns.length := by
  obtain ⟨txn, htxn⟩ := h.slots.exists_txn hx
  exact (List.getElem?_eq_some_iff.mp htxn).1

theorem batch_eq : g.scheduled.filter Option.isSome =
    (Placement.bySlot (FairScheduler.txnsPerBatch c) g.writes).map fun x => txns[x.2]? :=
  h.slots.fills.filter_isSome

theorem filter_batch (hc : 1 ≤ c) (caller : Address) :
    ((Placement.bySlot (FairScheduler.txnsPerBatch c) g.writes).map Prod.snd).filter
      (fun i => callerAt txns i = some caller) = scheduledOf txns g.writes caller := by
  rw [scheduledOf, List.filter_map, List.filter_map]
  refine congrArg _ (Placement.filter_bySlot h.slots.once h.slots.inside ?_)
  -- The caller is one of the accounts, so its transactions are apart.
  have hsub : g.writes.filter ((fun i => decide (callerAt txns i = some caller)) ∘ Prod.snd) =
      (Placement.users (accountsAt decode txns) caller g.writes).filter
        ((fun i => decide (callerAt txns i = some caller)) ∘ Prod.snd) := by
    rw [Placement.users, List.filter_filter]
    refine List.filter_congr fun x hx => ?_
    obtain ⟨caller', hmem, hcaller'⟩ := h.slots.accessed x hx
    by_cases hx2 : callerAt txns x.2 = some caller
    · rw [hcaller'] at hx2
      cases hx2
      simp [hcaller', hmem]
    · simp [hx2]
  rw [hsub]
  refine ((h.positions.spaced caller).filter _).imp fun hle => ?_
  omega

theorem left_eq : FairScheduler.removeScheduled g.scheduledIndices txns =
    Placement.leftover (g.writes.map Prod.snd) txns := by
  have hperm := List.perm_insertionSort (· ≥ ·) g.scheduledIndices
  rw [h.slots.indices] at hperm
  have hsorted : ((g.writes.map Prod.snd).insertionSort (· ≥ ·)).Pairwise (· > ·) := by
    have hnodup := hperm.nodup_iff.mpr h.nodup_indices
    refine ((List.pairwise_insertionSort (· ≥ ·) _).and hnodup).imp fun {i j} hij => ?_
    exact Nat.lt_of_le_of_ne hij.1 (Ne.symm hij.2)
  rw [FairScheduler.removeScheduled, h.slots.indices, Placement.foldl_eraseIdx hsorted fun i hi => ?_,
    Placement.leftover_congr hperm]
  obtain ⟨x, hx, rfl⟩ := List.mem_map.mp (hperm.mem_iff.mp hi)
  exact h.index_lt hx

end Batch

end FairInv

end CongestionControl.Pevm
