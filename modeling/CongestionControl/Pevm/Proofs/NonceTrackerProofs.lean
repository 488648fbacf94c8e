import CongestionControl.Pevm.NonceTracker
import Mathlib.Data.List.TakeWhile

/-!
# The nonces that the tracker hands out

The tracker counts on from the nonce that it has recorded for a caller. That nonce is the one before
the first block only if nothing has bumped it before the block in which it is recorded.
-/

namespace CongestionControl.Pevm

open NonceTracker

def SetCodeTxEnv.bumps (tx : SetCodeTxEnv) (a : Address) : Nat :=
  (if tx.caller = a then 1 else 0) + tx.authorities.count a

def bumps (txs : List SetCodeTxEnv) (a : Address) : Nat := (txs.map fun tx => tx.bumps a).sum

theorem getNonce_increaseNonce (t : NonceTracker) (b a : Address) :
    (t.increaseNonce b).getNonce a = t.getNonce a + if b = a then 1 else 0 := by
  unfold increaseNonce getNonce
  by_cases h : b = a
  · subst h
    simp
  · rw [Finmap.lookup_insert_of_ne _ (Ne.symm h), if_neg h, UInt64.add_zero]

theorem getNonce_foldl_increaseNonce (l : List Address) (t : NonceTracker) (a : Address) :
    (l.foldl increaseNonce t).getNonce a = t.getNonce a + UInt64.ofNat (l.count a) := by
  induction l generalizing t with
  | nil => exact (UInt64.add_zero _).symm
  | cons b l ih =>
    rw [List.foldl_cons, ih, getNonce_increaseNonce, List.count_cons, UInt64.ofNat_add,
      UInt64.add_assoc, UInt64.add_comm (UInt64.ofNat _)]
    by_cases h : b = a
    · simp [h]
    · simp [h]

theorem getNonce_updateTxenvNonce (t : NonceTracker) (tx : SetCodeTxEnv) (a : Address) :
    (t.updateTxenvNonce tx).1.getNonce a = t.getNonce a + UInt64.ofNat (tx.bumps a) := by
  have h := getNonce_foldl_increaseNonce tx.authorities (t.increaseNonce tx.caller) a
  rw [getNonce_increaseNonce] at h
  refine h.trans ?_
  rw [SetCodeTxEnv.bumps, UInt64.add_assoc]
  by_cases hc : tx.caller = a
  · simp [hc]
  · simp [hc]

/-- The nonce of each transaction: what the tracker started with, and the bumps since. -/
theorem updateTxenvNonces_getElem? (t : NonceTracker) (txs : List SetCodeTxEnv) (i : Nat) :
    ((t.updateTxenvNonces txs).2[i]?).map (fun tx => tx.nonce) =
      (txs[i]?).map fun tx =>
        some (t.getNonce tx.caller + UInt64.ofNat (bumps (txs.take i) tx.caller)) := by
  induction txs generalizing t i with
  | nil => rfl
  | cons tx txs ih =>
    cases i with
    | zero => simp [updateTxenvNonces, updateTxenvNonce, bumps]
    | succ i =>
      have := ih (t.updateTxenvNonce tx).1 i
      simp only [updateTxenvNonces, List.getElem?_cons_succ, this, getNonce_updateTxenvNonce,
        List.take_succ_cons, bumps, List.map_cons, List.sum_cons, UInt64.ofNat_add,
        UInt64.add_assoc]

section Record

variable {C : Type}

abbrev PrestateBlock (C : Type) := InMemoryStorage C × List SetCodeTxEnv

def recordedNonce (a : Address) (block : PrestateBlock C) : Option UInt64 :=
  if a ∈ callers block.2 then (block.1.basic a).map AccountBasic.nonce else none

theorem lookup_foldl_record (storage : InMemoryStorage C) (l : List Address)
    (nonces : HashMap Address UInt64) (a : Address) :
    (l.foldl (record storage) nonces).lookup a =
      (nonces.lookup a).or (if a ∈ l then (storage.basic a).map AccountBasic.nonce else none) := by
  induction l generalizing nonces with
  | nil => simp
  | cons b l ih =>
    rw [List.foldl_cons, ih]
    have hb : (record storage nonces b).lookup a =
        (nonces.lookup a).or (if a = b then (storage.basic a).map AccountBasic.nonce else none) := by
      unfold record
      by_cases hmem : b ∈ nonces
      · rw [if_neg (not_not_intro hmem)]
        obtain ⟨n, hn⟩ := Finmap.mem_iff.mp hmem
        by_cases h : a = b
        · subst h
          simp [hn]
        · simp [h]
      · rw [if_pos hmem]
        have hnone := Finmap.lookup_eq_none.mpr hmem
        by_cases h : a = b
        · subst h
          cases storage.basic a <;> simp [hnone]
        · cases storage.basic b <;> simp [h, Finmap.lookup_insert_of_ne nonces h]
    rw [hb, Option.or_assoc]
    by_cases h : a = b
    · subst h
      cases (storage.basic a).map AccountBasic.nonce <;> simp
    · simp [h]

theorem lookup_recordFromPrestate (order : IterOrder Address) (t : NonceTracker)
    (block : PrestateBlock C) (a : Address) :
    (t.recordFromPrestate order block.1 block.2).nonces.lookup a =
      (t.nonces.lookup a).or (recordedNonce a block) := by
  unfold recordFromPrestate recordedNonce
  rw [lookup_foldl_record]
  simp

theorem lookup_recordAll (order : IterOrder Address) (blocks : List (PrestateBlock C))
    (t : NonceTracker) (a : Address) :
    (blocks.foldl (fun t block => t.recordFromPrestate order block.1 block.2) t).nonces.lookup a =
      (t.nonces.lookup a).or (blocks.findSome? (recordedNonce a)) := by
  induction blocks generalizing t with
  | nil => simp
  | cons block blocks ih =>
    rw [List.foldl_cons, ih, lookup_recordFromPrestate, List.findSome?_cons, Option.or_assoc]
    cases recordedNonce a block <;> rfl

/-- The nonce of an account in the prestate of a block is its nonce before the first block and the
bumps by earlier blocks; a caller that is not in the prestate has nonce 0. -/
def Consistent (firstNonce : Address → UInt64) (blocks : List (PrestateBlock C)) : Prop :=
  ∀ earlier block later, blocks = earlier ++ block :: later → ∀ a,
    (∀ account, block.1.basic a = some account →
      account.nonce = firstNonce a + UInt64.ofNat (bumps (earlier.flatMap Prod.snd) a)) ∧
    (a ∈ callers block.2 → block.1.basic a = none →
      0 = firstNonce a + UInt64.ofNat (bumps (earlier.flatMap Prod.snd) a))

/-- The blocks before the one in which an account is recorded, or before the first one with the
account as a caller if it is never recorded. -/
def beforeRecording (blocks : List (PrestateBlock C)) (a : Address) : List (PrestateBlock C) :=
  if (blocks.findSome? (recordedNonce a)).isSome then
    blocks.takeWhile fun block => (recordedNonce a block).isNone
  else blocks.takeWhile fun block => a ∉ callers block.2

/-- The tracker starts from the nonce before the first block and the bumps before the recording. -/
theorem getNonce_recordAll (order : IterOrder Address) {firstNonce : Address → UInt64}
    {blocks : List (PrestateBlock C)} (h : Consistent firstNonce blocks) {a : Address}
    (ha : a ∈ callers (blocks.flatMap Prod.snd)) :
    (blocks.foldl (fun t block => t.recordFromPrestate order block.1 block.2) new).getNonce a =
      firstNonce a + UInt64.ofNat (bumps ((beforeRecording blocks a).flatMap Prod.snd) a) := by
  unfold getNonce
  rw [lookup_recordAll]
  unfold beforeRecording
  cases hfind : blocks.findSome? (recordedNonce a) with
  | some nonce =>
    obtain ⟨earlier, block, later, rfl, hblock, hearlier⟩ := List.findSome?_eq_some_iff.mp hfind
    have hnone : ∀ b ∈ earlier, (recordedNonce a b).isNone = true :=
      fun b hb => by rw [hearlier b hb]; rfl
    have htake : (earlier ++ block :: later).takeWhile
        (fun block => (recordedNonce a block).isNone) = earlier := by
      rw [List.takeWhile_append_of_pos hnone, List.takeWhile_cons_of_neg (by simp [hblock]),
        List.append_nil]
    rw [Option.isSome_some, htake]
    unfold recordedNonce at hblock
    split at hblock
    · obtain ⟨account, hacc, rfl⟩ := Option.map_eq_some_iff.mp hblock
      exact (h earlier block later rfl a).1 account hacc
    · cases hblock
  | none =>
    generalize hp : (fun block : PrestateBlock C => decide (a ∉ callers block.2)) = p
    have hne : blocks.dropWhile p ≠ [] := by
      intro hnil
      obtain ⟨tx, htx, rfl⟩ := List.mem_map.mp (List.mem_toFinset.mp ha)
      obtain ⟨block, hblock, htx⟩ := List.mem_flatMap.mp htx
      have := List.dropWhile_eq_nil_iff.mp hnil block hblock
      rw [← hp, decide_eq_true_eq] at this
      exact this (List.mem_toFinset.mpr (List.mem_map_of_mem htx))
    obtain ⟨block, later, hdrop⟩ := List.exists_cons_of_ne_nil hne
    have hsplit : blocks = blocks.takeWhile p ++ block :: later := by
      rw [← hdrop, List.takeWhile_append_dropWhile]
    have hcaller : a ∈ callers block.2 := by
      have := List.head_dropWhile_not p hne
      simp only [hdrop, List.head_cons] at this
      rwa [← hp, decide_eq_false_iff_not, not_not] at this
    have habsent : block.1.basic a = none := by
      have := List.findSome?_eq_none_iff.mp hfind block
        (hsplit ▸ List.mem_append_right _ List.mem_cons_self)
      rwa [recordedNonce, if_pos hcaller, Option.map_eq_none_iff] at this
    exact (h _ block later hsplit a).2 hcaller habsent

/-- Every transaction gets the nonce of its caller before the first block and the bumps of the caller
by earlier transactions, exactly if nothing bumps a caller before the block in which its nonce is
recorded. -/
theorem reassign_exact_iff (order : IterOrder Address) {firstNonce : Address → UInt64}
    {blocks : List (PrestateBlock C)} (h : Consistent firstNonce blocks) :
    (∀ i, ((reassign order blocks)[i]?).map (fun tx => tx.nonce) =
      ((blocks.flatMap Prod.snd)[i]?).map fun tx => some (firstNonce tx.caller +
        UInt64.ofNat (bumps ((blocks.flatMap Prod.snd).take i) tx.caller))) ↔
    ∀ a ∈ callers (blocks.flatMap Prod.snd),
      UInt64.ofNat (bumps ((beforeRecording blocks a).flatMap Prod.snd) a) = 0 := by
  unfold reassign
  simp only [updateTxenvNonces_getElem?]
  constructor
  · intro hexact a ha
    obtain ⟨tx, htx, rfl⟩ := List.mem_map.mp (List.mem_toFinset.mp ha)
    obtain ⟨i, hi⟩ := List.mem_iff_getElem?.mp htx
    have := hexact i
    rw [hi, Option.map_some, Option.map_some, getNonce_recordAll order h ha] at this
    have heq := UInt64.add_left_inj _ |>.mp (Option.some.inj (Option.some.inj this))
    exact UInt64.add_eq_left.mp heq
  · intro hzero i
    cases hi : (blocks.flatMap Prod.snd)[i]? with
    | none => rfl
    | some tx =>
      have ha : tx.caller ∈ callers (blocks.flatMap Prod.snd) :=
        List.mem_toFinset.mpr (List.mem_map_of_mem (List.mem_of_getElem? hi))
      rw [Option.map_some, Option.map_some, getNonce_recordAll order h ha, hzero _ ha,
        UInt64.add_zero]

end Record

def callBy (caller : Address) (authorities : List Address) : SetCodeTxEnv :=
  { caller, nonce := none, gasLimit := 21000, gasPrice := 0, value := 0, maxFeePerBlobGas := none,
    totalBlobGas := 0, authorizationList := some (authorities.map some) }

def prestate (nonce₁ nonce₂ : UInt64) : InMemoryStorage String :=
  ⟨(Finmap.singleton 1 ⟨0, nonce₁, none, none, ∅⟩).insert 2 ⟨0, nonce₂, none, none, ∅⟩, ∅⟩

theorem basic_prestate (nonce₁ nonce₂ : UInt64) (a : Address) :
    (prestate nonce₁ nonce₂).basic a =
      if a = 2 then some ⟨0, nonce₂⟩ else if a = 1 then some ⟨0, nonce₁⟩ else none := by
  unfold InMemoryStorage.basic prestate
  by_cases h2 : a = 2
  · subst h2
    simp
  · rw [Finmap.lookup_insert_of_ne _ h2, if_neg h2]
    by_cases h1 : a = 1
    · subst h1
      simp
    · have hnone : (Finmap.singleton 1 ⟨0, nonce₁, none, none, ∅⟩ : ChainState String).lookup a =
          none := Finmap.lookup_eq_none.mpr (by simpa using h1)
      rw [hnone, if_neg h1]
      rfl

def firstNonces (nonce₁ nonce₂ : UInt64) (a : Address) : UInt64 :=
  if a = 2 then nonce₂ else if a = 1 then nonce₁ else 0

theorem consistent_pair {nonce₁ nonce₂ nonce₁' nonce₂' : UInt64} {txs txs' : List SetCodeTxEnv}
    (hcallers : ∀ tx ∈ txs ++ txs', tx.caller = 1 ∨ tx.caller = 2)
    (h1 : nonce₁' = nonce₁ + UInt64.ofNat (bumps txs 1))
    (h2 : nonce₂' = nonce₂ + UInt64.ofNat (bumps txs 2)) :
    Consistent (firstNonces nonce₁ nonce₂)
      [(prestate nonce₁ nonce₂, txs), (prestate nonce₁' nonce₂', txs')] := by
  have habsent : ∀ (a : Address) (n n' : UInt64), (prestate n n').basic a = none →
      a ∉ callers txs ∧ a ∉ callers txs' := by
    intro a n n' ha
    rw [basic_prestate] at ha
    have hne : ∀ tx ∈ txs ++ txs', tx.caller ≠ a := by
      rintro tx htx rfl
      rcases hcallers tx htx with hc | hc <;> simp [hc] at ha
    constructor
    · intro hmem
      obtain ⟨tx, htx, he⟩ := List.mem_map.mp (List.mem_toFinset.mp hmem)
      exact hne tx (List.mem_append_left _ htx) he
    · intro hmem
      obtain ⟨tx, htx, he⟩ := List.mem_map.mp (List.mem_toFinset.mp hmem)
      exact hne tx (List.mem_append_right _ htx) he
  intro earlier block later he a
  match earlier, he with
  | [], he =>
    cases he
    refine ⟨fun account hacc => ?_, fun hmem hnone => absurd hmem (habsent a _ _ hnone).1⟩
    rw [basic_prestate] at hacc
    unfold firstNonces
    split_ifs at hacc ⊢ <;> cases hacc <;> exact (UInt64.add_zero _).symm
  | [_], he =>
    cases he
    refine ⟨fun account hacc => ?_, fun hmem hnone => absurd hmem (habsent a _ _ hnone).2⟩
    rw [basic_prestate] at hacc
    rw [List.flatMap_singleton]
    split_ifs at hacc ⊢ with ha2 ha1 <;> cases hacc
    · rw [ha2]
      exact h2
    · rw [ha1]
      exact h1
  | _ :: _ :: _, he => exact absurd (congrArg List.length he) (by simp)

/-- Account 2 signs an authorization in the first block and is a caller in the second one. -/
def authorityThenCaller : List (PrestateBlock String) :=
  [(prestate 5 10, [callBy 1 [2]]), (prestate 6 11, [callBy 2 []])]

/-- The bump by the first block is counted twice: account 2 gets nonce 12 instead of 11. -/
theorem authorityThenCaller_nonce_too_high :
    Consistent (firstNonces 5 10) authorityThenCaller ∧
    (reassign .sorted authorityThenCaller).map (fun tx => tx.nonce) = [some 5, some 12] ∧
    firstNonces 5 10 2 + UInt64.ofNat (bumps [callBy 1 [2]] 2) = 11 :=
  ⟨consistent_pair (by decide +kernel) (by decide +kernel) (by decide +kernel), by decide +kernel⟩

def callerTwice : List (PrestateBlock String) :=
  [(prestate 5 10, [callBy 1 []]), (prestate 6 10, [callBy 1 [2]])]

theorem callerTwice_exact :
    Consistent (firstNonces 5 10) callerTwice ∧
    ∀ i : Nat, ((reassign .sorted callerTwice)[i]?).map (fun tx => tx.nonce) =
      ((callerTwice.flatMap Prod.snd)[i]?).map fun tx => some (firstNonces 5 10 tx.caller +
        UInt64.ofNat (bumps ((callerTwice.flatMap Prod.snd).take i) tx.caller)) := by
  have hcons : Consistent (firstNonces 5 10) callerTwice :=
    consistent_pair (by decide +kernel) (by decide +kernel) (by decide +kernel)
  refine ⟨hcons, (reassign_exact_iff .sorted hcons).mpr fun a ha => ?_⟩
  have hcallers : callers (callerTwice.flatMap Prod.snd) = {1} := by decide +kernel
  rw [hcallers, Finset.mem_singleton] at ha
  subst ha
  decide +kernel

end CongestionControl.Pevm
