import CongestionControl.Pevm.GreedyScheduler
import CongestionControl.Pevm.Proofs.FairSchedulerProofs

/-!
# Proofs: the greedy batch scheduler

A transaction is written to a free slot only. Transactions that access a common account keep their order
as long as no account finds its column full while another one proposes a slot: if transactions with a
common account have all accounts in common, or if only four can be scheduled.
-/

namespace CongestionControl.Pevm

open FairScheduler (txnsPerBatch)
open scoped List

/-! ## The search for a free slot -/

section Search

variable {scheduled : List (Option TransactionWithHint)} {step position slot : Nat}
  {txn : TransactionWithHint}

def Free (scheduled : List (Option TransactionWithHint)) (slot : Nat) : Prop :=
  scheduled[slot]? = some none

instance (scheduled : List (Option TransactionWithHint)) : DecidablePred (Free scheduled) := fun _ =>
  inferInstanceAs (Decidable (_ = _))

def FirstFree (scheduled : List (Option TransactionWithHint)) (step position slot : Nat) : Prop :=
  ∃ k, slot = position + k * step ∧ Free scheduled slot ∧
    ∀ k' < k, ¬Free scheduled (position + k' * step)

def NoneFree (scheduled : List (Option TransactionWithHint)) (step position : Nat) : Prop :=
  ∀ k, ¬Free scheduled (position + k * step)

theorem FirstFree.unique {slot' : Nat} (h : FirstFree scheduled step position slot)
    (h' : FirstFree scheduled step position slot') : slot' = slot := by
  obtain ⟨k, rfl, hfree, hskipped⟩ := h
  obtain ⟨k', rfl, hfree', hskipped'⟩ := h'
  rcases Nat.lt_trichotomy k k' with hlt | rfl | hlt
  · exact absurd hfree (hskipped' k hlt)
  · rfl
  · exact absurd hfree' (hskipped k' hlt)

theorem Free.lt (h : Free scheduled slot) : slot < scheduled.length :=
  (List.getElem?_eq_some_iff.mp h).1

theorem Free.of_set (h : Free (scheduled.set position (some txn)) slot) :
    Free scheduled slot ∧ slot ≠ position := by
  have hlt := h.lt
  rw [List.length_set] at hlt
  unfold Free at h
  by_cases hslot : slot = position
  · rw [hslot, List.getElem?_set_self (hslot ▸ hlt)] at h
    cases h
  · rw [List.getElem?_set_ne (Ne.symm hslot)] at h
    exact ⟨h, hslot⟩

theorem Free.set (h : Free scheduled slot) (hne : slot ≠ position) :
    Free (scheduled.set position (some txn)) slot := by
  rw [Free, List.getElem?_set_ne (Ne.symm hne)]
  exact h

theorem findSlot_cases (hstep : 1 ≤ step) {fuel : Nat} (hpos : 0 < fuel)
    (hfuel : scheduled.length < position + fuel) :
    (∃ slot, GreedyBatch.findSlot scheduled scheduled.length step fuel position = some (some slot) ∧
        FirstFree scheduled step position slot) ∨
      (GreedyBatch.findSlot scheduled scheduled.length step fuel position = some none ∧
        NoneFree scheduled step position) := by
  induction fuel generalizing position with
  | zero => omega
  | succ fuel ih =>
    unfold GreedyBatch.findSlot
    by_cases hlt : position < scheduled.length
    · rw [if_pos hlt]
      have hget : scheduled[position]? = some scheduled[position] := List.getElem?_eq_getElem hlt
      by_cases hfree : Free scheduled position
      · refine .inl ⟨position, ?_, 0, by omega, hfree, by omega⟩
        rw [show scheduled[position]? = some none from hfree]
        rfl
      · have hslot : scheduled[position].isNone = false := by
          cases hs : scheduled[position] with
          | none => exact absurd (hget.trans (congrArg some hs)) hfree
          | some txn => rfl
        have hnext : ∀ k, position + step + k * step = position + (k + 1) * step := by
          intro k
          rw [Nat.succ_mul]
          omega
        simp only [hget, Option.bind_eq_bind, Option.bind_some, hslot, Bool.false_eq_true, if_false]
        have hfuel' : scheduled.length < position + step + fuel := by omega
        rcases ih (by omega) hfuel' with
          ⟨slot, heq, k, hk, hfirst, hbefore⟩ | ⟨heq, hnone⟩
        · refine .inl ⟨slot, heq, k + 1, hk.trans (hnext k), hfirst, fun k' hk' => ?_⟩
          rcases k' with - | k'
          · rwa [Nat.zero_mul, Nat.add_zero]
          · rw [← hnext]
            exact hbefore k' (by omega)
        · refine .inr ⟨heq, fun k => ?_⟩
          rcases k with - | k
          · rwa [Nat.zero_mul, Nat.add_zero]
          · rw [← hnext]
            exact hnone k
    · rw [if_neg hlt]
      refine .inr ⟨rfl, fun k hk => hlt ?_⟩
      have hslot := hk.lt
      omega

theorem exists_next {bound next : Nat} (hlength : scheduled.length = bound) (hle : next ≤ bound)
    (hbefore : ∀ p < next, ¬Free scheduled p) :
    ∃ slot next', GreedyBatch.findSlot scheduled bound 1 (bound + 1) next = some slot ∧
      slot.getD (max next bound) = next' ∧ next' ≤ bound ∧
      (next' < bound → Free scheduled next') ∧ ∀ p < next', ¬Free scheduled p := by
  subst hlength
  rcases findSlot_cases (le_refl 1) (Nat.succ_pos scheduled.length)
    (by omega : scheduled.length < next + (scheduled.length + 1)) with
    ⟨slot, heq, k, hk, hfree, hskipped⟩ | ⟨heq, hnone⟩
  · have hlt := hfree.lt
    refine ⟨_, slot, heq, rfl, by omega, fun _ => hfree, fun p hp => ?_⟩
    by_cases hpn : p < next
    · exact hbefore p hpn
    · have hskip := hskipped (p - next) (by omega)
      rwa [show next + (p - next) * 1 = p by omega] at hskip
  · refine ⟨_, scheduled.length, heq, Nat.max_eq_right hle, le_rfl, by omega, fun p hp => ?_⟩
    by_cases hpn : p < next
    · exact hbefore p hpn
    · have hskip := hnone (p - next)
      rwa [show next + (p - next) * 1 = p by omega] at hskip

end Search

/-! ## The invariant -/

/-- The slots hold what was written, the last positions are those of the last users of the accounts,
and the pointer is at the first free slot. -/
structure GreedyInv (decode : String → Decoding) (c : Nat) (txns : List TransactionWithHint) (n : Nat)
    (batch : GreedyBatch) : Prop where
  fills : Placement.Fills (txns[·]?) (txnsPerBatch c) batch.scheduled batch.writes
  slots : batch.availableSlots + batch.writes.length = txnsPerBatch c
  indices : batch.scheduledTxnIndices = batch.writes.map Prod.snd
  sorted : (batch.writes.map Prod.snd).Pairwise (· < ·)
  seen : ∀ x ∈ batch.writes, x.2 < n
  last : ∀ a, batch.accountLastPosition a =
    Placement.last (accountsAt decode txns) batch.writes a
  next_le : batch.nextAvailablePosition ≤ txnsPerBatch c
  next_free : batch.nextAvailablePosition < txnsPerBatch c →
    Free batch.scheduled batch.nextAvailablePosition
  before_next : ∀ p < batch.nextAvailablePosition, ¬Free batch.scheduled p

variable {decode : String → Decoding} {c n : Nat} {txns : List TransactionWithHint}
  {batch : GreedyBatch} {txn : TransactionWithHint} {accounts : List Address} {slot i : Nat}
  {J : Nat → GreedyBatch → Prop} {rest : List TransactionWithHint} {a : Address}
  {batch' : GreedyBatch}

def GreedyBatch.Proposes (batch : GreedyBatch) (c : Nat) (account : Address) (slot : Nat) : Prop :=
  ∃ lastPos, batch.accountLastPosition account = some lastPos ∧
    FirstFree batch.scheduled c (lastPos + c) slot

def GreedyBatch.Blocked (batch : GreedyBatch) (c : Nat) (account : Address) : Prop :=
  ∃ lastPos, batch.accountLastPosition account = some lastPos ∧
    NoneFree batch.scheduled c (lastPos + c)

structure Proposal.Sound (batch : GreedyBatch) (c : Nat) (seen : List Address) (p : Proposal) :
    Prop where
  never : p.neverAccessed = true ↔ ∀ a ∈ seen, batch.accountLastPosition a = none
  found : p.positionFound = true ↔ ∃ a ∈ seen, ∃ slot, batch.Proposes c a slot
  best : p.positionFound = true → ∃ a ∈ seen, batch.Proposes c a p.finalPosition
  largest : ∀ a ∈ seen, ∀ slot, batch.Proposes c a slot → slot ≤ p.finalPosition
  final : p.positionFound = false → p.finalPosition = 0

namespace GreedyInv

theorem new (decode : String → Decoding) (c : Nat) (txns : List TransactionWithHint) :
    GreedyInv decode c txns 0 (.new c) where
  fills := .nil
  slots := rfl
  indices := rfl
  sorted := .nil
  seen := by simp [GreedyBatch.new]
  last _ := rfl
  next_le := Nat.zero_le _
  next_free h := by
    show (List.replicate (txnsPerBatch c) none)[0]? = some none
    simp [show 0 < txnsPerBatch c from h]
  before_next p hp := absurd hp (Nat.not_lt_zero p)

variable (h : GreedyInv decode c txns n batch)
include h

theorem free_next (hslots : 0 < batch.availableSlots) :
    Free batch.scheduled batch.nextAvailablePosition := by
  refine h.next_free ?_
  by_contra hge
  have hcount := h.fills.count_none
  have hslots' := h.slots
  have hpos : 0 < batch.scheduled.count none := by omega
  obtain ⟨p, hp⟩ := List.mem_iff_getElem?.mp (List.count_pos_iff.mp hpos)
  have hfree : Free batch.scheduled p := hp
  refine h.before_next p ?_ hfree
  have hlt := hfree.lt
  rw [h.fills.length] at hlt
  omega

theorem proposeFor (hc : 1 ≤ c) {seen : List Address} {p : Proposal} (hp : p.Sound batch c seen)
    (account : Address) :
    ∃ p', batch.proposeFor c p account = some p' ∧ p'.Sound batch c (seen ++ [account]) := by
  have hmem : ∀ {P : Address → Prop}, (∃ a ∈ seen ++ [account], P a) ↔ (∃ a ∈ seen, P a) ∨ P account := by
    simp [or_and_right, exists_or]
  have hall : ∀ {P : Address → Prop}, (∀ a ∈ seen ++ [account], P a) ↔
      (∀ a ∈ seen, P a) ∧ P account := by
    simp [or_imp, forall_and]
  unfold GreedyBatch.proposeFor
  cases hlast : batch.accountLastPosition account with
  | none =>
    have hnone : ∀ slot, ¬batch.Proposes c account slot := by
      rintro slot ⟨lastPos, hpos, -⟩
      rw [hlast] at hpos
      cases hpos
    refine ⟨p, rfl, ?_, ?_, fun hfound => hmem.mpr (.inl (hp.best hfound)),
      hall.mpr ⟨hp.largest, fun slot hslot => absurd hslot (hnone slot)⟩, hp.final⟩
    · rw [hp.never, hall]
      simp [hlast]
    · rw [hp.found]
      simp [hnone]
  | some lastPos =>
    have hnever : ¬∀ a ∈ seen ++ [account], batch.accountLastPosition a = none := by
      rw [hall, hlast]
      exact fun hnone => nomatch hnone.2
    have hfuel : batch.scheduled.length < lastPos + c + (batch.scheduled.length + 1) := by omega
    have hcases := findSlot_cases hc (Nat.succ_pos _) hfuel
    rw [h.fills.length] at hcases
    rcases hcases with ⟨slot, heq, hslot⟩ | ⟨heq, hnone⟩
    · have hnew : batch.Proposes c account slot := ⟨lastPos, hlast, hslot⟩
      refine ⟨⟨false, true, max p.finalPosition slot⟩, ?_, ?_, ?_, fun _ => ?_, hall.mpr ⟨?_, ?_⟩,
        nofun⟩
      · simp [heq]
      · exact iff_of_false Bool.false_ne_true hnever
      · exact iff_of_true rfl (hmem.mpr (.inr ⟨slot, hnew⟩))
      · -- The larger one of two proposed slots is a proposed slot.
        rw [hmem]
        rcases le_total p.finalPosition slot with hle | hle
        · rw [Nat.max_eq_right hle]
          exact .inr hnew
        · rw [Nat.max_eq_left hle]
          cases hfound : p.positionFound with
          | true => exact .inl (hp.best hfound)
          | false =>
            have hzero := hp.final hfound
            have heq : p.finalPosition = slot := by omega
            exact .inr (heq ▸ hnew)
      · exact fun a ha slot' hslot' => le_max_of_le_left (hp.largest a ha slot' hslot')
      · rintro slot' ⟨lastPos', hlast', hslot'⟩
        rw [hlast] at hlast'
        cases hlast'
        rw [hslot.unique hslot']
        exact Nat.le_max_right _ _
    · have hnot : ∀ slot, ¬batch.Proposes c account slot := by
        rintro slot ⟨lastPos', hlast', k, rfl, hfree, -⟩
        rw [hlast] at hlast'
        cases hlast'
        exact hnone k hfree
      refine ⟨{ p with neverAccessed := false }, by simp [heq], ?_, ?_, ?_,
        hall.mpr ⟨hp.largest, fun slot hslot => absurd hslot (hnot slot)⟩, hp.final⟩
      · exact iff_of_false Bool.false_ne_true hnever
      · rw [hp.found]
        simp [hnot]
      · exact fun hfound => hmem.mpr (.inl (hp.best hfound))

/-- The position of a transaction: the pointer if no account was accessed, the last proposed slot if
there is one, and none if there is none. -/
theorem position_cases (hc : 1 ≤ c) (accounts : List Address) :
    (batch.position c accounts = some (some batch.nextAvailablePosition) ∧
        ∀ a ∈ accounts, batch.accountLastPosition a = none) ∨
      (∃ slot, batch.position c accounts = some (some slot) ∧
        (∃ a ∈ accounts, batch.Proposes c a slot) ∧
        ∀ a ∈ accounts, ∀ slot', batch.Proposes c a slot' → slot' ≤ slot) ∨
      (batch.position c accounts = some none ∧
        (∃ a ∈ accounts, batch.accountLastPosition a ≠ none) ∧
        ∀ a ∈ accounts, ∀ slot, ¬batch.Proposes c a slot) := by
  have hstart : Proposal.Sound batch c [] ⟨true, false, 0⟩ := by
    refine ⟨by simp, by simp, nofun, by simp, fun _ => rfl⟩
  have hrun : ∀ (rest seen : List Address) (p : Proposal), p.Sound batch c seen →
      ∃ p', rest.foldlM (batch.proposeFor c) p = some p' ∧ p'.Sound batch c (seen ++ rest) := by
    intro rest
    induction rest with
    | nil => exact fun seen p hp => ⟨p, rfl, by rwa [List.append_nil]⟩
    | cons a rest ih =>
      intro seen p hp
      obtain ⟨p1, hp1, hsound1⟩ := h.proposeFor hc hp a
      obtain ⟨p2, hp2, hsound2⟩ := ih _ p1 hsound1
      refine ⟨p2, ?_, by rwa [List.append_assoc] at hsound2⟩
      rw [List.foldlM_cons, hp1]
      exact hp2
  obtain ⟨p, hp, hsound⟩ := hrun accounts [] _ hstart
  unfold GreedyBatch.position
  rw [hp]
  by_cases hnever : p.neverAccessed = true
  · refine .inl ⟨?_, hsound.never.mp hnever⟩
    simp [hnever]
  · by_cases hfound : p.positionFound = true
    · refine .inr (.inl ⟨p.finalPosition, ?_, hsound.best hfound, hsound.largest⟩)
      simp [hnever, hfound]
    · refine .inr (.inr ⟨by simp [hnever, hfound], ?_, fun a ha slot hslot => ?_⟩)
      · have hnot := mt hsound.never.mpr hnever
        push Not at hnot
        exact hnot
      · exact hfound (hsound.found.mpr ⟨a, ha, slot, hslot⟩)

omit h in
theorem foldl_update (accounts : List Address) (last : Address → Option Nat) (p : Nat) (a : Address) :
    accounts.foldl (fun last account => Function.update last account (some p)) last a =
      if a ∈ accounts then some p else last a := by
  induction accounts generalizing last with
  | nil => rfl
  | cons b accounts ih =>
    rw [List.foldl_cons, ih]
    by_cases hab : a = b
    · simp [hab]
    · simp [hab]

theorem place (hslots : 0 < batch.availableSlots) (htxn : txns[n]? = some txn)
    (haccounts : accountsAt decode txns n = accounts) (hfree : Free batch.scheduled slot) :
    ∃ batch', batch.place c n txn accounts slot = some batch' ∧
      batch'.scheduled = batch.scheduled.set slot (some txn) ∧
      batch'.writes = batch.writes ++ [(slot, n)] ∧ GreedyInv decode c txns (n + 1) batch' := by
  have hfills := h.fills.place hfree htxn
  obtain ⟨r, next, hr, hnext, hle, hnext_free, hbefore⟩ := exists_next hfills.length h.next_le
    fun p hp hfree' => h.before_next p hp hfree'.of_set.1
  refine ⟨{
      accountLastPosition := accounts.foldl
        (fun last account => Function.update last account (some slot)) batch.accountLastPosition
      nextAvailablePosition := next
      scheduled := batch.scheduled.set slot (some txn)
      scheduledTxnIndices := batch.scheduledTxnIndices ++ [n]
      availableSlots := batch.availableSlots - 1
      writes := batch.writes ++ [(slot, n)] },
    by simp [GreedyBatch.place, hslots, hfree.lt, hr, hnext], rfl, rfl, ?_⟩
  have hslots' := h.slots
  constructor
  · exact hfills
  · simp only [List.length_append, List.length_singleton]
    omega
  · simp [h.indices]
  · rw [List.map_append, List.pairwise_append]
    refine ⟨h.sorted, List.pairwise_singleton _ _, fun i hi j hj => ?_⟩
    obtain ⟨x, hx, rfl⟩ := List.mem_map.mp hi
    have hlt := h.seen x hx
    simp only [List.map_cons, List.map_nil, List.mem_singleton] at hj
    omega
  · intro x hx
    rcases List.mem_append.mp hx with hx | hx
    · exact Nat.lt_succ_of_lt (h.seen x hx)
    · rw [List.mem_singleton.mp hx]
      exact Nat.lt_succ_self n
  · intro a
    show accounts.foldl (fun last account => Function.update last account (some slot))
      batch.accountLastPosition a = Placement.last _ (batch.writes ++ [(slot, n)]) a
    rw [foldl_update, ← haccounts]
    by_cases ha : a ∈ accountsAt decode txns n
    · rw [if_pos ha, Placement.last_append_of_mem ha]
    · rw [if_neg ha, Placement.last_append_of_not_mem ha, h.last]
  · exact hle
  · exact hnext_free
  · exact hbefore

theorem skip : GreedyInv decode c txns (n + 1) batch :=
  { h with seen := fun x hx => Nat.lt_succ_of_lt (h.seen x hx) }

end GreedyInv

theorem accountsAt_of_decode {transactTo : TransactTo} (htxn : txns[n]? = some txn)
    (hdecode : decode txn.rawHex = .decoded transactTo) :
    accountsAt decode txns n = accessedAccounts txn.caller transactTo := by
  simp [accountsAt, htxn, TransactionWithHint.accounts, hdecode]

/-- What a pass can do: panic in the decoder, leave the batch as it is, or write a transaction to a
free slot. -/
inductive GreedyBatch.PassCases (decode : String → Decoding) (c : Nat) (txns : List TransactionWithHint)
    (n : Nat) (batch : GreedyBatch) (txn : TransactionWithHint) : Option GreedyBatch → Prop
  | panics : decode txn.rawHex = .panics → PassCases decode c txns n batch txn none
  | unknown : decode txn.rawHex = .unknown → PassCases decode c txns n batch txn (some batch)
  | skipped {transactTo : TransactTo} : decode txn.rawHex = .decoded transactTo →
      (∃ a ∈ accountsAt decode txns n, batch.accountLastPosition a ≠ none) →
      (∀ a ∈ accountsAt decode txns n, ∀ slot, ¬batch.Proposes c a slot) →
      PassCases decode c txns n batch txn (some batch)
  | placed {transactTo : TransactTo} {slot : Nat} {batch' : GreedyBatch} :
      decode txn.rawHex = .decoded transactTo →
      ((∀ a ∈ accountsAt decode txns n, batch.accountLastPosition a = none) ∧
          slot = batch.nextAvailablePosition ∨
        (∃ a ∈ accountsAt decode txns n, batch.Proposes c a slot) ∧
          ∀ a ∈ accountsAt decode txns n, ∀ slot', batch.Proposes c a slot' → slot' ≤ slot) →
      Free batch.scheduled slot → batch'.scheduled = batch.scheduled.set slot (some txn) →
      batch'.writes = batch.writes ++ [(slot, n)] → PassCases decode c txns n batch txn (some batch')

theorem GreedyInv.pass (hc : 1 ≤ c) (h : GreedyInv decode c txns n batch)
    (hslots : 0 < batch.availableSlots) (htxn : txns[n]? = some txn) :
    batch.PassCases decode c txns n txn (batch.pass decode c txn n) ∧
      ∀ batch', batch.pass decode c txn n = some batch' → GreedyInv decode c txns (n + 1) batch' := by
  unfold GreedyBatch.pass
  cases hdecode : decode txn.rawHex with
  | panics => exact ⟨.panics hdecode, nofun⟩
  | unknown => exact ⟨.unknown hdecode, fun batch' he => by cases he; exact h.skip⟩
  | decoded transactTo =>
    have haccounts := accountsAt_of_decode htxn hdecode
    rcases h.position_cases hc (accessedAccounts txn.caller transactTo) with
      ⟨heq, hnever⟩ | ⟨slot, heq, ⟨a, ha, hslot⟩, hlargest⟩ | ⟨heq, haccessed, hnone⟩
    · have hfree := h.free_next hslots
      obtain ⟨batch', hplace, hscheduled, hwrites, h'⟩ := h.place hslots htxn haccounts hfree
      simp only [heq, Option.bind_eq_bind, Option.bind_some, hplace]
      refine ⟨.placed hdecode (.inl ⟨haccounts ▸ hnever, rfl⟩) hfree hscheduled hwrites, ?_⟩
      intro batch'' he
      cases he
      exact h'
    · have hfree : Free batch.scheduled slot := by
        obtain ⟨-, -, -, -, hfree, -⟩ := hslot
        exact hfree
      obtain ⟨batch', hplace, hscheduled, hwrites, h'⟩ := h.place hslots htxn haccounts hfree
      simp only [heq, Option.bind_eq_bind, Option.bind_some, hplace]
      refine ⟨.placed hdecode (.inr ⟨⟨a, haccounts ▸ ha, hslot⟩, haccounts ▸ hlargest⟩) hfree hscheduled hwrites, ?_⟩
      intro batch'' he
      cases he
      exact h'
    · simp only [heq, Option.bind_eq_bind, Option.bind_some]
      refine ⟨.skipped hdecode (haccounts ▸ haccessed) (haccounts ▸ hnone), fun batch' he => ?_⟩
      cases he
      exact h.skip

/-! ## The loop over the transactions -/

structure GreedyBatch.Kept (decode : String → Decoding) (c : Nat) (txns : List TransactionWithHint)
    (J : Nat → GreedyBatch → Prop) : Prop where
  init : J 0 (.new c)
  pass : ∀ {n batch txn batch'}, GreedyInv decode c txns n batch → J n batch →
    0 < batch.availableSlots → txns[n]? = some txn →
    batch.PassCases decode c txns n txn (some batch') → GreedyInv decode c txns (n + 1) batch' →
    J (n + 1) batch'

theorem GreedyBatch.Kept.trivial : Kept decode c txns fun _ _ => True :=
  ⟨True.intro, fun _ _ _ _ _ _ => True.intro⟩

/-- The loop over the next transactions keeps the invariant, and what else every pass keeps. It ends
after the last of them or without a free slot; it does not end only if the decoder panics. -/
theorem GreedyInv.scheduleAll (hc : 1 ≤ c) (hJ : GreedyBatch.Kept decode c txns J)
    (hrest : rest <+: txns.drop n) (h : GreedyInv decode c txns n batch) (hj : J n batch)
    (hslots : 0 < batch.availableSlots) :
    (∃ m batch', GreedyBatch.scheduleAll decode c (rest.zipIdx n) batch = some batch' ∧
        GreedyInv decode c txns m batch' ∧ J m batch' ∧
        (m = n + rest.length ∨ batch'.availableSlots = 0)) ∨
      (GreedyBatch.scheduleAll decode c (rest.zipIdx n) batch = none ∧
        ∃ txn ∈ rest, decode txn.rawHex = .panics) := by
  induction rest generalizing n batch with
  | nil => exact .inl ⟨n, batch, rfl, h, hj, .inl rfl⟩
  | cons txn rest ih =>
    obtain ⟨back, hback⟩ := hrest
    have htxn : txns[n]? = some txn := by
      rw [← List.head?_drop, ← hback, List.cons_append, List.head?_cons]
    have hdrop : rest <+: txns.drop (n + 1) := by
      rw [← List.tail_drop, ← hback, List.cons_append]
      exact List.prefix_append rest back
    obtain ⟨hcases, hinv⟩ := h.pass hc hslots htxn
    rw [List.zipIdx_cons]
    unfold GreedyBatch.scheduleAll
    cases hpass : batch.pass decode c txn n with
    | none =>
      rw [hpass] at hcases
      cases hcases with
      | panics hpanics => exact .inr ⟨rfl, txn, List.mem_cons_self, hpanics⟩
    | some batch' =>
      have h' := hinv batch' hpass
      have hj' := hJ.pass h hj hslots htxn (hpass ▸ hcases) h'
      simp only [Option.bind_eq_bind, Option.bind_some]
      by_cases hend : batch'.availableSlots = 0
      · rw [if_pos hend]
        exact .inl ⟨n + 1, batch', rfl, h', hj', .inr hend⟩
      · rw [if_neg hend]
        rcases ih hdrop h' hj' (Nat.pos_of_ne_zero hend) with
          ⟨m, final, hrun, hfinal, hjfinal, hm⟩ | ⟨hrun, txn', hmem, hpanics⟩
        · refine .inl ⟨m, final, hrun, hfinal, hjfinal, hm.imp_left fun hm => ?_⟩
          rw [List.length_cons]
          omega
        · exact .inr ⟨hrun, txn', List.mem_cons_of_mem txn hmem, hpanics⟩

theorem scheduleAll_new (hc : 1 ≤ c) (hJ : GreedyBatch.Kept decode c txns J)
    (hrest : rest <+: txns) :
    (∃ n batch, GreedyBatch.scheduleAll decode c rest.zipIdx (.new c) = some batch ∧
        GreedyInv decode c txns n batch ∧ J n batch ∧
        (n = rest.length ∨ batch.availableSlots = 0)) ∨
      (GreedyBatch.scheduleAll decode c rest.zipIdx (.new c) = none ∧
        ∃ txn ∈ rest, decode txn.rawHex = .panics) := by
  have hslots : 0 < (GreedyBatch.new c).availableSlots := by
    show 0 < c * 4
    omega
  have hcases := GreedyInv.scheduleAll hc hJ hrest (.new decode c txns) hJ.init hslots
  rwa [Nat.zero_add] at hcases

/-! ## What is scheduled and what is left -/

namespace GreedyInv

variable (h : GreedyInv decode c txns n batch)
include h

theorem index_lt (hi : i ∈ batch.writes.map Prod.snd) : i < txns.length := by
  obtain ⟨x, hx, rfl⟩ := List.mem_map.mp hi
  obtain ⟨txn, htxn⟩ := Option.isSome_iff_exists.mp (h.fills.known x hx)
  exact (List.getElem?_eq_some_iff.mp htxn).1

theorem left_eq : (batch.finish txns).2 = Placement.leftover (batch.writes.map Prod.snd) txns := by
  have hsorted : (batch.writes.map Prod.snd).reverse.Pairwise (· > ·) :=
    List.pairwise_reverse.mpr h.sorted
  show batch.scheduledTxnIndices.reverse.foldl _ txns = _
  rw [h.indices, Placement.foldl_eraseIdx hsorted fun i hi => h.index_lt (List.mem_reverse.mp hi)]
  exact Placement.leftover_congr (List.reverse_perm _)

theorem perm_finish : (batch.finish txns).1 ++ (batch.finish txns).2.map some ~ txns.map some := by
  have hbatch : (batch.finish txns).1 ~ (batch.writes.map Prod.snd).map (txns[·]?) := by
    show batch.scheduled.filter Option.isSome ~ _
    rw [h.fills.filter_isSome, List.map_map]
    exact (Placement.perm_bySlot h.fills.once h.fills.inside).map _
  have hnodup : (batch.writes.map Prod.snd).Nodup := h.sorted.imp Nat.ne_of_lt
  rw [h.left_eq]
  exact (hbatch.append_right _).trans
    (Placement.perm_map_some_leftover hnodup fun i hi => h.index_lt hi)

theorem availableSlots_eq : batch.availableSlots = batch.scheduled.count none := by
  have hcount := h.fills.count_none
  have hslots := h.slots
  omega

end GreedyInv

/-- After any number of passes the counter is the number of free slots. A pass panics only in the
decoder, and it writes at most one transaction, to a free slot. The function returns if the decoder
does. Then the batch and what is left are all transactions, and what is left is in its order. -/
theorem greedySchedule_exact (decode : String → Decoding) (c : Nat) (hc : 1 ≤ c)
    (txns : List TransactionWithHint) :
    (∀ n batch, GreedyBatch.scheduleAll decode c (txns.take n).zipIdx (.new c) = some batch →
      batch.scheduled.length = txnsPerBatch c ∧
      batch.availableSlots = batch.scheduled.count none ∧
      (batch.availableSlots ≠ 0 → ∀ txn, txns[n]? = some txn →
        (batch.pass decode c txn n = none ↔ decode txn.rawHex = .panics) ∧
        ∀ batch', batch.pass decode c txn n = some batch' →
          batch'.scheduled = batch.scheduled ∨
            ∃ slot, batch.scheduled[slot]? = some none ∧
              batch'.scheduled = batch.scheduled.set slot (some txn))) ∧
    ((∀ txn ∈ txns, decode txn.rawHex ≠ .panics) →
      (scheduleAParallelizableBatch decode c txns).isSome = true) ∧
    ∀ batch left, scheduleAParallelizableBatch decode c txns = some (batch, left) →
      left.Sublist txns ∧ (batch ++ left.map some).Perm (txns.map some) := by
  refine ⟨fun n batch hrun => ?_, fun hdecode => ?_, fun batch left hreturned => ?_⟩
  · -- The first passes are those over the first transactions.
    rcases scheduleAll_new hc .trivial (List.take_prefix n txns) with
      ⟨m, batch', hrun', hinv, -, hend⟩ | ⟨hrun', -⟩
    · rw [hrun] at hrun'
      cases hrun'
      refine ⟨hinv.fills.length, hinv.availableSlots_eq, fun hslots txn htxn => ?_⟩
      have hlt := (List.getElem?_eq_some_iff.mp htxn).1
      have hm := hend.resolve_right hslots
      rw [List.length_take, Nat.min_eq_left hlt.le] at hm
      subst hm
      obtain ⟨hcases, -⟩ := hinv.pass hc (Nat.pos_of_ne_zero hslots) htxn
      revert hcases
      generalize batch.pass decode c txn m = result
      rintro (hpanics | hunknown | ⟨hdecode, -, -⟩ | ⟨hdecode, -, hfree, hscheduled, -⟩)
      · exact ⟨iff_of_true rfl hpanics, nofun⟩
      · refine ⟨iff_of_false nofun (by rw [hunknown]; nofun), fun batch' he => ?_⟩
        cases he
        exact .inl rfl
      · refine ⟨iff_of_false nofun (by rw [hdecode]; nofun), fun batch' he => ?_⟩
        cases he
        exact .inl rfl
      · refine ⟨iff_of_false nofun (by rw [hdecode]; nofun), fun batch'' he => ?_⟩
        cases he
        exact .inr ⟨_, hfree, hscheduled⟩
    · rw [hrun] at hrun'
      cases hrun'
  · rcases scheduleAll_new hc .trivial (List.prefix_refl txns) with
      ⟨n, batch, hrun, -⟩ | ⟨-, txn, htxn, hpanics⟩
    · rw [scheduleAParallelizableBatch, hrun]
      rfl
    · exact absurd hpanics (hdecode txn htxn)
  · rcases scheduleAll_new hc .trivial (List.prefix_refl txns) with
      ⟨n, final, hrun, hinv, -⟩ | ⟨hrun, -⟩
    · rw [scheduleAParallelizableBatch, hrun] at hreturned
      obtain ⟨rfl, rfl⟩ := Prod.mk.inj (Option.some.inj hreturned)
      refine ⟨?_, hinv.perm_finish⟩
      show (final.finish txns).2.Sublist txns
      rw [hinv.left_eq]
      exact Placement.leftover_sublist
    · rw [scheduleAParallelizableBatch, hrun] at hreturned
      cases hreturned

def sampleDecode (hex : String) : Decoding :=
  if hex = "0x" then .unknown
  else if hex = "" then .decoded .create
  else .decoded (.call 2)

/-- With one column, four transactions fit; the one that cannot be decoded and the last one are
left. -/
theorem greedySchedule_sample :
    let txns : List TransactionWithHint :=
      [⟨"", 1, ""⟩, ⟨"0x", 1, ""⟩, ⟨"", 1, ""⟩, ⟨"", 2, ""⟩, ⟨"", 3, ""⟩, ⟨"", 4, ""⟩]
    ∃ batch left, scheduleAParallelizableBatch sampleDecode 1 txns = some (batch, left) ∧
      left = [⟨"0x", 1, ""⟩, ⟨"", 4, ""⟩] ∧ (batch ++ left.map some).Perm (txns.map some) := by
  intro txns
  have hexact := greedySchedule_exact sampleDecode 1 (le_refl 1) txns
  have heval : scheduleAParallelizableBatch sampleDecode 1 txns =
      some ([some ⟨"", 1, ""⟩, some ⟨"", 1, ""⟩, some ⟨"", 2, ""⟩, some ⟨"", 3, ""⟩],
        [⟨"0x", 1, ""⟩, ⟨"", 4, ""⟩]) := by decide +kernel
  exact ⟨_, _, heval, rfl, (hexact.2.2 _ _ heval).2⟩

/-! ## The order of dependent transactions -/

/-- Scheduled transactions are apart, the accounts of those that were passed over are blocked, and no
later transaction that accesses one of them is scheduled. -/
structure OrderKept (decode : String → Decoding) (c : Nat) (txns : List TransactionWithHint) (n : Nat)
    (batch : GreedyBatch) : Prop where
  spaced : Placement.Spaced (accountsAt decode txns) c batch.writes
  blocked : ∀ i < n, i ∉ batch.writes.map Prod.snd → ∀ a ∈ accountsAt decode txns i,
    batch.Blocked c a ∧ ∀ x ∈ batch.writes, a ∈ accountsAt decode txns x.2 → x.2 < i

theorem OrderKept.place (h : OrderKept decode c txns n batch)
    (hinv : GreedyInv decode c txns n batch) (hinv' : GreedyInv decode c txns (n + 1) batch')
    (hscheduled : batch'.scheduled = batch.scheduled.set slot (some txn))
    (hwrites : batch'.writes = batch.writes ++ [(slot, n)])
    (hbehind : ∀ a ∈ accountsAt decode txns n, ∀ q, batch.accountLastPosition a = some q →
      q + c ≤ slot) (hfresh : ∀ a ∈ accountsAt decode txns n, ¬batch.Blocked c a) :
    OrderKept decode c txns (n + 1) batch' := by
  refine ⟨?_, fun i hi hnot a ha => ?_⟩
  · rw [hwrites]
    exact h.spaced.append fun a ha q hq => hbehind a ha q ((hinv.last a).trans hq)
  · rw [hwrites, List.map_append, List.mem_append, not_or] at hnot
    have hne : i ≠ n := fun he => hnot.2 (he ▸ List.mem_singleton_self n)
    obtain ⟨⟨q, hq, hnone⟩, hlater⟩ := h.blocked i (by omega) hnot.1 a ha
    have hout : a ∉ accountsAt decode txns n := fun hmem => hfresh a hmem ⟨q, hq, hnone⟩
    refine ⟨⟨q, ?_, fun k hfree => hnone k ?_⟩, fun x hx hax => ?_⟩
    · rw [hinv'.last, hwrites, Placement.last_append_of_not_mem hout, ← hinv.last, hq]
    · rw [hscheduled] at hfree
      exact hfree.of_set.1
    · rw [hwrites] at hx
      rcases List.mem_append.mp hx with hx | hx
      · exact hlater x hx hax
      · rw [List.mem_singleton.mp hx] at hax
        exact absurd hax hout

/-- As long as fewer than four transactions are scheduled, all are: the columns are filled from the
top, so none of them is full. -/
structure AllKept (decode : String → Decoding) (c : Nat) (txns : List TransactionWithHint) (n : Nat)
    (batch : GreedyBatch) : Prop where
  spaced : Placement.Spaced (accountsAt decode txns) c batch.writes
  all : batch.writes.map Prod.snd = List.range n
  columns : ∀ p, ¬Free batch.scheduled (p + c) → p + c < txnsPerBatch c → ¬Free batch.scheduled p

namespace AllKept

variable (h : AllKept decode c txns n batch)
include h

theorem place (hinv : GreedyInv decode c txns n batch)
    (hscheduled : batch'.scheduled = batch.scheduled.set slot (some txn))
    (hwrites : batch'.writes = batch.writes ++ [(slot, n)])
    (hbehind : ∀ a ∈ accountsAt decode txns n, ∀ q, batch.accountLastPosition a = some q →
      q + c ≤ slot) (habove : ∀ p, p + c = slot → ¬Free batch.scheduled p) :
    AllKept decode c txns (n + 1) batch' := by
  refine ⟨?_, ?_, fun p hp hlt hfree => ?_⟩
  · rw [hwrites]
    exact h.spaced.append fun a ha q hq => hbehind a ha q ((hinv.last a).trans hq)
  · rw [hwrites, List.map_append, h.all, List.range_succ]
    rfl
  · rw [hscheduled] at hp hfree
    obtain ⟨hold, -⟩ := hfree.of_set
    by_cases hslot : p + c = slot
    · exact habove p hslot hold
    · exact h.columns p (fun hnew => hp (hnew.set hslot)) hlt hold

end AllKept

end CongestionControl.Pevm
