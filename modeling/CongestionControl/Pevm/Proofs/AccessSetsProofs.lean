import CongestionControl.Pevm.AccessSets

/-!
# Which write sets intersect

The write set of a result has the changed slots, and the account itself only if it was created or if
none of its slots has changed. Two transactions that both move ETH into a contract and change
different slots of it have disjoint write sets.
-/

namespace CongestionControl.Pevm

variable {H : Type} [DecidableEq H] {hash : MemoryLocation → H} {order : StateOrder}
  {coinbase address : Address} {account : ResultAccount} {index : U256}

def ResultAccount.SlotChanged (account : ResultAccount) (index : U256) : Prop :=
  ∃ slot, account.storage.lookup index = some slot ∧ slot.originalValue ≠ slot.presentValue

def ResultAccount.WithoutSlots (account : ResultAccount) : Prop :=
  account.isCreated = true ∨ account.isTouched = true ∧ ∀ index, ¬ account.SlotChanged index

inductive WritesTo (address : Address) (account : ResultAccount) : MemoryLocation → Prop
  | basic : account.WithoutSlots → WritesTo address account (.basic address)
  | slot {index : U256} : account.SlotChanged index → WritesTo address account (.storage address index)

theorem mem_changedStorageSlots {slot : StorageSlot} :
    (index, slot) ∈ account.changedStorageSlots order ↔
      account.storage.lookup index = some slot ∧ slot.originalValue ≠ slot.presentValue := by
  unfold ResultAccount.changedStorageSlots
  rw [List.mem_filter, IterOrder.mem_entries]
  exact and_congr_right fun _ => decide_eq_true_iff

theorem changedStorageSlots_isEmpty :
    (account.changedStorageSlots order).isEmpty = true ↔ ∀ index, ¬ account.SlotChanged index := by
  rw [List.isEmpty_iff, List.eq_nil_iff_forall_not_mem]
  constructor
  · rintro h index ⟨slot, hslot⟩
    exact h (index, slot) (mem_changedStorageSlots.mpr hslot)
  · rintro h ⟨index, slot⟩ hmem
    exact h index ⟨slot, mem_changedStorageSlots.mp hmem⟩

theorem infoChanged_iff :
    ((account.changedStorageSlots order).isEmpty && account.isTouched || account.isCreated) = true ↔
      account.WithoutSlots := by
  rw [Bool.or_eq_true, Bool.and_eq_true, changedStorageSlots_isEmpty, or_comm, and_comm]
  rfl

theorem mem_insertSlots {l : List (U256 × StorageSlot)} {writeSet : Finset H} {h : H} :
    h ∈ l.foldl (fun writeSet (slot, _) => insert (hash (.storage address slot)) writeSet) writeSet ↔
      h ∈ writeSet ∨ ∃ entry ∈ l, h = hash (.storage address entry.1) := by
  induction l generalizing writeSet with
  | nil => simp
  | cons entry l ih =>
    rw [List.foldl_cons, ih, Finset.mem_insert, List.exists_mem_cons_iff]
    tauto

theorem mem_extractAccount {writeSet : Finset H} {h : H} :
    h ∈ extractAccount hash order coinbase writeSet (address, account) ↔
      h ∈ writeSet ∨ ¬ (address = 0 ∨ address = coinbase) ∧
        ∃ location, WritesTo address account location ∧ h = hash location := by
  unfold extractAccount
  dsimp only
  split_ifs with hskip hinfo
  · exact (or_iff_left fun h => h.1 hskip).symm
  · rw [mem_insertSlots, Finset.mem_insert, and_iff_right hskip]
    constructor
    · rintro ((rfl | hmem) | ⟨⟨index, slot⟩, hslot, rfl⟩)
      · exact .inr ⟨_, .basic (infoChanged_iff.mp hinfo), rfl⟩
      · exact .inl hmem
      · exact .inr ⟨_, .slot ⟨slot, mem_changedStorageSlots.mp hslot⟩, rfl⟩
    · rintro (hmem | ⟨location, hwrites, rfl⟩)
      · exact .inl (.inr hmem)
      · cases hwrites with
        | basic => exact .inl (.inl rfl)
        | @slot index hslot =>
          obtain ⟨slot, hslot⟩ := hslot
          exact .inr ⟨(index, slot), mem_changedStorageSlots.mpr hslot, rfl⟩
  · rw [mem_insertSlots, and_iff_right hskip]
    constructor
    · rintro (hmem | ⟨⟨index, slot⟩, hslot, rfl⟩)
      · exact .inl hmem
      · exact .inr ⟨_, .slot ⟨slot, mem_changedStorageSlots.mp hslot⟩, rfl⟩
    · rintro (hmem | ⟨location, hwrites, rfl⟩)
      · exact .inl hmem
      · cases hwrites with
        | basic hwithout => exact absurd (infoChanged_iff.mpr hwithout) hinfo
        | @slot index hslot =>
          obtain ⟨slot, hslot⟩ := hslot
          exact .inr ⟨(index, slot), mem_changedStorageSlots.mpr hslot, rfl⟩

/-- The write set has the hashes of the locations that the accounts stand for, whatever the order of
the iteration. -/
theorem mem_extractWriteSetFromResult {result : ResultAndState} {h : H} :
    h ∈ extractWriteSetFromResult hash order result coinbase ↔
      ∃ address account, result.state.lookup address = some account ∧
        ¬ (address = 0 ∨ address = coinbase) ∧
        ∃ location, WritesTo address account location ∧ h = hash location := by
  have hrun : ∀ (l : List (Address × ResultAccount)) (writeSet : Finset H),
      h ∈ l.foldl (extractAccount hash order coinbase) writeSet ↔
        h ∈ writeSet ∨ ∃ entry ∈ l, ¬ (entry.1 = 0 ∨ entry.1 = coinbase) ∧
          ∃ location, WritesTo entry.1 entry.2 location ∧ h = hash location := by
    intro l
    induction l with
    | nil => simp
    | cons entry l ih =>
      intro writeSet
      rw [List.foldl_cons, ih, mem_extractAccount, List.exists_mem_cons_iff, or_assoc]
  unfold extractWriteSetFromResult
  rw [hrun, or_iff_right (Finset.notMem_empty h)]
  constructor
  · rintro ⟨⟨address, account⟩, hmem, hwrites⟩
    exact ⟨address, account, order.accounts.mem_entries.mp hmem, hwrites⟩
  · rintro ⟨address, account, hlookup, hwrites⟩
    exact ⟨(address, account), order.accounts.mem_entries.mpr hlookup, hwrites⟩

theorem exists_writes_iff {account₁ account₂ : ResultAccount} :
    (∃ location, WritesTo address account₁ location ∧ WritesTo address account₂ location) ↔
      account₁.WithoutSlots ∧ account₂.WithoutSlots ∨
        ∃ index, account₁.SlotChanged index ∧ account₂.SlotChanged index := by
  constructor
  · rintro ⟨location, h₁, h₂⟩
    cases h₁ with
    | basic hwithout₁ =>
      cases h₂ with
      | basic hwithout₂ => exact .inl ⟨hwithout₁, hwithout₂⟩
    | slot hslot₁ =>
      cases h₂ with
      | slot hslot₂ => exact .inr ⟨_, hslot₁, hslot₂⟩
  · rintro (⟨h₁, h₂⟩ | ⟨index, h₁, h₂⟩)
    · exact ⟨_, .basic h₁, .basic h₂⟩
    · exact ⟨_, .slot h₁, .slot h₂⟩

theorem WritesTo.address_eq {address' : Address} {account' : ResultAccount} {location : MemoryLocation}
    (h : WritesTo address account location) (h' : WritesTo address' account' location) :
    address = address' := by
  cases h with
  | basic =>
    cases h' with
    | basic => rfl
  | slot =>
    cases h' with
    | slot => rfl

/-- Two write sets intersect if and only if for some address, neither zero nor the coinbase, both
accounts were created or touched without a change of their slots, or both changed a common slot. -/
theorem writeSets_intersect_iff (hinj : Function.Injective hash) (order : StateOrder)
    (result₁ result₂ : ResultAndState) (coinbase : Address) :
    (extractWriteSetFromResult hash order result₁ coinbase ∩
        extractWriteSetFromResult hash order result₂ coinbase).Nonempty ↔
      ∃ address account₁ account₂, address ≠ 0 ∧ address ≠ coinbase ∧
        result₁.state.lookup address = some account₁ ∧
        result₂.state.lookup address = some account₂ ∧
        (account₁.WithoutSlots ∧ account₂.WithoutSlots ∨
          ∃ index, account₁.SlotChanged index ∧ account₂.SlotChanged index) := by
  constructor
  · rintro ⟨h, hmem⟩
    obtain ⟨hmem₁, hmem₂⟩ := Finset.mem_inter.mp hmem
    obtain ⟨address, account₁, hlookup₁, hskip, location, hwrites₁, rfl⟩ :=
      mem_extractWriteSetFromResult.mp hmem₁
    obtain ⟨address', account₂, hlookup₂, -, location', hwrites₂, heq⟩ :=
      mem_extractWriteSetFromResult.mp hmem₂
    obtain rfl := hinj heq
    obtain rfl := hwrites₁.address_eq hwrites₂
    rw [not_or] at hskip
    exact ⟨address, account₁, account₂, hskip.1, hskip.2, hlookup₁, hlookup₂,
      exists_writes_iff.mp ⟨location, hwrites₁, hwrites₂⟩⟩
  · rintro ⟨address, account₁, account₂, hzero, hcoinbase, hlookup₁, hlookup₂, hshared⟩
    obtain ⟨location, hwrites₁, hwrites₂⟩ := exists_writes_iff.mpr hshared
    have hskip : ¬ (address = 0 ∨ address = coinbase) := not_or.mpr ⟨hzero, hcoinbase⟩
    refine ⟨hash location, Finset.mem_inter.mpr ⟨?_, ?_⟩⟩
    · exact mem_extractWriteSetFromResult.mpr
        ⟨address, account₁, hlookup₁, hskip, location, hwrites₁, rfl⟩
    · exact mem_extractWriteSetFromResult.mpr
        ⟨address, account₂, hlookup₂, hskip, location, hwrites₂, rfl⟩

def deposit (sender : Address) (balance : U256) (index : U256) : ResultAndState :=
  ⟨((∅ : HashMap Address ResultAccount).insert 7
      ⟨⟨balance, 1, keccakEmpty⟩, (∅ : HashMap U256 StorageSlot).insert index ⟨0, 1⟩, true, false⟩).insert
    sender ⟨⟨0, 1, keccakEmpty⟩, ∅, true, false⟩⟩

def increasing : StateOrder := ⟨.sorted, .sorted⟩

theorem sameSender_intersect : (extractWriteSetFromResult id increasing (deposit 1 5 1) 9 ∩
    extractWriteSetFromResult id increasing (deposit 1 8 1) 9).Nonempty := by
  refine (writeSets_intersect_iff Function.injective_id increasing (deposit 1 5 1) (deposit 1 8 1)
    9).mpr ⟨1, ⟨⟨0, 1, keccakEmpty⟩, ∅, true, false⟩, ⟨⟨0, 1, keccakEmpty⟩, ∅, true, false⟩, by decide,
      by decide, Finmap.lookup_insert _, Finmap.lookup_insert _, .inl ⟨.inr ⟨rfl, ?_⟩, .inr ⟨rfl, ?_⟩⟩⟩
  · rintro index ⟨slot, hslot, -⟩
    cases hslot
  · rintro index ⟨slot, hslot, -⟩
    cases hslot

/-- Two deposits of two senders: the balance of the contract goes from 0 to 5 and from 5 to 8, and the
write sets are disjoint. -/
theorem deposits_disjoint : ∃ account₁ account₂,
    (deposit 1 5 1).state.lookup 7 = some account₁ ∧ account₁.info.balance ≠ 0 ∧
    (deposit 2 8 2).state.lookup 7 = some account₂ ∧
    account₂.info.balance ≠ account₁.info.balance ∧
    extractWriteSetFromResult id increasing (deposit 1 5 1) 9 ∩
      extractWriteSetFromResult id increasing (deposit 2 8 2) 9 = ∅ := by
  have hlookup {sender : Address} {balance index : U256} (h : 7 ≠ sender) :
      (deposit sender balance index).state.lookup 7 = some ⟨⟨balance, 1, keccakEmpty⟩,
        (∅ : HashMap U256 StorageSlot).insert index ⟨0, 1⟩, true, false⟩ :=
    (Finmap.lookup_insert_of_ne _ h).trans (Finmap.lookup_insert _)
  exact ⟨_, _, hlookup (by decide), by decide, hlookup (by decide), by decide, by decide +kernel⟩

end CongestionControl.Pevm
