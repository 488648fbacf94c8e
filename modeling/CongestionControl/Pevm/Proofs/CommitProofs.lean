import CongestionControl.Pevm.Commit

/-!
# What the commit paths leave in the storage

The account that a commit leaves at an address is determined by the account that was there and by the
changes of that address. On the merging path it shows the overlay of the results, but their code never
reaches the map from hashes to code. The other two paths leave the last change.
-/

namespace CongestionControl.Pevm

variable {C : Type} {order : CommitOrder} {existing new : EvmAccount C}

/-! ## The changes of one address -/

def changes (results : List (PevmTxExecutionResult C)) (address : Address) :
    List (Option (EvmAccount C)) :=
  results.filterMap fun result => result.state.lookup address

theorem lookup_foldl_results (order : CommitOrder)
    {f : ChainState C → Address × Option (EvmAccount C) → ChainState C}
    {g : Option (EvmAccount C) → Option (EvmAccount C) → Option (EvmAccount C)}
    (hf : ∀ m a b x, (f m (a, b)).lookup x = if x = a then g b (m.lookup a) else m.lookup x)
    (results : List (PevmTxExecutionResult C)) (accounts : ChainState C) (address : Address) :
    (results.foldl (fun accounts result =>
      (order.addresses.entries result.state).foldl f accounts) accounts).lookup address =
    (changes results address).foldl (fun old change => g change old) (accounts.lookup address) := by
  induction results generalizing accounts with
  | nil => rfl
  | cons result results ih =>
    rw [List.foldl_cons, ih, order.addresses.lookup_foldl_entries hf, changes, changes,
      List.filterMap_cons]
    cases result.state.lookup address <;> rfl

section Merge

variable (order : CommitOrder)

def mergeAt (change old : Option (EvmAccount C)) : Option (EvmAccount C) :=
  change.map fun new => old.elim new fun existing => existing.merge order new

def merged (changes : List (Option (EvmAccount C))) (old : Option (EvmAccount C)) :
    Option (EvmAccount C) :=
  changes.foldl (fun old change => mergeAt order change old) old

theorem lookup_mergeChange (m : ChainState C) (a : Address) (b : Option (EvmAccount C))
    (x : Address) : (mergeChange order m (a, b)).lookup x =
      if x = a then mergeAt order b (m.lookup a) else m.lookup x := by
  unfold mergeChange mergeAt
  by_cases hx : x = a
  · subst hx
    cases b with
    | none => simp
    | some new => cases m.lookup x <;> simp
  · cases b with
    | none => simp [hx, Finmap.lookup_erase_ne hx]
    | some new => cases m.lookup a <;> simp [hx, Finmap.lookup_insert_of_ne m hx]

theorem lookup_updateStorageWithResults (storage : InMemoryStorage C)
    (results : List (PevmTxExecutionResult C)) (address : Address) :
    (updateStorageWithResults order storage results).accounts.lookup address =
      merged order (changes results address) (storage.accounts.lookup address) :=
  lookup_foldl_results order (lookup_mergeChange order) results storage.accounts address

theorem lookup_extendSlots (slots new : HashMap U256 U256) (index : U256) :
    (extendSlots order slots new).lookup index = (new.lookup index).or (slots.lookup index) := by
  unfold extendSlots
  rw [order.slots.lookup_foldl_entries (g := fun _ b _ => some b)]
  · cases new.lookup index <;> rfl
  · intro m a b x
    by_cases hx : x = a
    · subst hx
      simp
    · simp [hx, Finmap.lookup_insert_of_ne m hx]

end Merge

/-! ## The overlay -/

/-- What is known of an account: `slot` for the slots that it has, `code` for the code that a result
has set, with its hash. -/
structure View (C : Type) where
  basic : Option AccountBasic
  slot : U256 → Option U256
  code : Option (Option B256 × C)

namespace View

def start (account : Option (EvmAccount C)) : View C where
  basic := account.map fun a => ⟨a.balance, a.nonce⟩
  slot index := account.bind fun a => a.storage.lookup index
  code := none

/-- A change writes the balance, the nonce and the slots that it has; it sets the code if it has
one. Nothing is left of a removed account. -/
def write (v : View C) : Option (EvmAccount C) → View C
  | none => ⟨none, fun _ => none, none⟩
  | some new =>
    { basic := some ⟨new.balance, new.nonce⟩
      slot := fun index => (new.storage.lookup index).or (v.slot index)
      code := (new.code.map fun code => (new.codeHash, code)).or v.code }

end View

def overlay (storage : InMemoryStorage C) (results : List (PevmTxExecutionResult C))
    (address : Address) : View C :=
  (changes results address).foldl View.write (.start (storage.accounts.lookup address))

structure InMemoryStorage.Reads (s : InMemoryStorage C) (view : Address → View C) : Prop where
  basic : ∀ address, s.basic address = (view address).basic
  storage : ∀ address index, s.storage address index = ((view address).slot index).getD 0
  hasStorage : ∀ address, s.hasStorage address = true ↔ ∃ index, (view address).slot index ≠ none
  code : ∀ address codeHash, s.codeHash address = some codeHash →
    ∀ set, (view address).code = some set → s.codeByHash codeHash = some set.2

structure Shows (account : Option (EvmAccount C)) (v : View C) : Prop where
  basic : account.map (fun a => (⟨a.balance, a.nonce⟩ : AccountBasic)) = v.basic
  slot : ∀ index, (account.bind fun a => a.storage.lookup index) = v.slot index
  code : ∀ set, v.code = some set → ∃ a, account = some a ∧ a.codeHash = set.1

theorem Shows.start (account : Option (EvmAccount C)) : Shows account (.start account) :=
  ⟨rfl, fun _ => rfl, fun _ h => nomatch h⟩

theorem Shows.mergeAt {account : Option (EvmAccount C)} {v : View C} (h : Shows account v)
    (change : Option (EvmAccount C)) :
    Shows (mergeAt order change account) (v.write change) := by
  cases change with
  | none => exact ⟨rfl, fun _ => rfl, fun _ h => nomatch h⟩
  | some new =>
    have hslot : ∀ index, (v.write (some new)).slot index =
        (new.storage.lookup index).or (account.bind fun a => a.storage.lookup index) :=
      fun index => by rw [h.slot index]; rfl
    have hcode : ∀ set, (v.write (some new)).code = some set →
        new.code.isSome ∧ new.codeHash = set.1 ∨ ¬ new.code.isSome ∧ v.code = some set := by
      intro set hset
      change (new.code.map fun code => (new.codeHash, code)).or v.code = some set at hset
      cases hc : new.code with
      | none =>
        rw [hc] at hset
        exact .inr ⟨Bool.false_ne_true, hset⟩
      | some c =>
        rw [hc] at hset
        cases hset
        exact .inl ⟨rfl, rfl⟩
    cases account with
    | none =>
      refine ⟨rfl, fun index => ?_, fun set hset => ⟨new, rfl, ?_⟩⟩
      · rw [hslot]
        exact (Option.or_none).symm
      · rcases hcode set hset with ⟨-, he⟩ | ⟨-, hv⟩
        · exact he
        · obtain ⟨_, ha, -⟩ := h.code set hv
          cases ha
    | some existing =>
      refine ⟨rfl, fun index => ?_, fun set hset => ⟨existing.merge order new, rfl, ?_⟩⟩
      · rw [hslot]
        exact lookup_extendSlots order existing.storage new.storage index
      · rcases hcode set hset with ⟨hs, he⟩ | ⟨hs, hv⟩
        · exact (if_pos hs).trans he
        · obtain ⟨_, ha, he⟩ := h.code set hv
          cases ha
          exact (if_neg hs).trans he

theorem shows_overlay (order : CommitOrder) (storage : InMemoryStorage C)
    (results : List (PevmTxExecutionResult C)) (address : Address) :
    Shows ((updateStorageWithResults order storage results).accounts.lookup address)
      (overlay storage results address) := by
  rw [lookup_updateStorageWithResults]
  unfold merged overlay
  have hstart := Shows.start (storage.accounts.lookup address)
  generalize View.start (storage.accounts.lookup address) = v at hstart ⊢
  generalize storage.accounts.lookup address = account at hstart ⊢
  induction changes results address generalizing account v with
  | nil => exact hstart
  | cons change rest ih => exact ih _ _ (hstart.mergeAt change)

theorem hasStorage_iff (s : InMemoryStorage C) (address : Address) : s.hasStorage address = true ↔
    ∃ index, ((s.accounts.lookup address).bind fun a => a.storage.lookup index) ≠ none := by
  unfold InMemoryStorage.hasStorage
  cases s.accounts.lookup address with
  | none => simp
  | some a =>
    simp only [Option.any_some, decide_eq_true_eq, ne_eq, Option.bind_some]
    rw [← ne_eq, ← Finset.nonempty_iff_ne_empty]
    refine exists_congr fun index => ?_
    rw [Finmap.mem_keys, ← Finmap.lookup_isSome, Option.isSome_iff_ne_none]

/-- After `update_storage_with_results` the reads agree with the overlay of the results exactly if
the map from hashes to code already had the code that the results set last. -/
theorem updateStorageWithResults_reads_iff (order : CommitOrder) (storage : InMemoryStorage C)
    (results : List (PevmTxExecutionResult C)) :
    (updateStorageWithResults order storage results).Reads (overlay storage results) ↔
      ∀ address codeHash code, (overlay storage results address).code = some (some codeHash, code) →
        storage.bytecodes.lookup codeHash = some code := by
  constructor
  · intro h address codeHash code hset
    obtain ⟨a, ha, hhash⟩ := (shows_overlay order storage results address).code _ hset
    exact h.code address codeHash (by rw [InMemoryStorage.codeHash, ha]; exact hhash) _ hset
  · intro h
    refine ⟨fun address => (shows_overlay order storage results address).basic,
      fun address index => ?_, fun address => ?_, fun address codeHash hhash set hset => ?_⟩
    · rw [InMemoryStorage.storage, (shows_overlay order storage results address).slot]
    · rw [hasStorage_iff]
      exact exists_congr fun index => by rw [(shows_overlay order storage results address).slot]
    · obtain ⟨a, ha, hset'⟩ := (shows_overlay order storage results address).code _ hset
      rw [InMemoryStorage.codeHash, ha, Option.bind_some, hset'] at hhash
      exact h address codeHash set.2 (by rw [hset, ← hhash])

def sortedOrder : CommitOrder := ⟨.sorted, .sorted⟩

def emptyStorage : InMemoryStorage String := ⟨∅, ∅⟩

def deployed : Account String := ⟨0, 1, 77, some "code", ∅⟩

def singleResult (address : Address) (change : Option (EvmAccount C)) : PevmTxExecutionResult C :=
  ⟨Finmap.singleton address change⟩

/-- The code of a contract that has been deployed cannot be read back. -/
theorem deployed_code_not_found : ∃ account, EvmAccount.ofAccount deployed = some account ∧
    let results := [singleResult 1 (some account)]
    let s := updateStorageWithResults sortedOrder emptyStorage results
    (overlay emptyStorage results 1).code = some (some 77, "code") ∧ s.codeHash 1 = some 77 ∧
      s.codeByHash 77 = none :=
  ⟨⟨0, 1, some 77, some "code", ∅⟩, rfl, by decide +kernel⟩

/-! ## Replacing and replaying -/

section Replace

variable (order : CommitOrder)

theorem lookup_replaceChange (m : ChainState C) (a : Address) (b : Option (EvmAccount C))
    (x : Address) :
    (replaceChange m (a, b)).lookup x = if x = a then b else m.lookup x := by
  unfold replaceChange
  by_cases hx : x = a
  · subst hx
    cases b <;> simp
  · cases b with
    | none => simp [hx, Finmap.lookup_erase_ne hx]
    | some account => simp [hx, Finmap.lookup_insert_of_ne m hx]

theorem lookup_insertAll (accounts new : ChainState C) (address : Address) :
    (insertAll order accounts new).lookup address =
      (new.lookup address).or (accounts.lookup address) := by
  unfold insertAll
  rw [order.addresses.lookup_foldl_entries (g := fun _ b _ => some b)]
  · cases new.lookup address <;> rfl
  · intro m a b x
    by_cases hx : x = a
    · subst hx
      simp
    · simp [hx, Finmap.lookup_insert_of_ne m hx]

theorem lookup_replaceAll (accounts : ChainState C) (results : List (PevmTxExecutionResult C))
    (address : Address) : (replaceAll order accounts results).lookup address =
      (changes results address).getLast?.getD (accounts.lookup address) := by
  have h := lookup_foldl_results order (g := fun change _ => change)
    lookup_replaceChange results accounts address
  refine h.trans ?_
  cases hl : (changes results address).getLast? with
  | none => rw [List.getLast?_eq_none_iff.mp hl]; rfl
  | some last =>
    obtain ⟨init, hinit⟩ := List.getLast?_eq_some_iff.mp hl
    rw [hinit, List.foldl_append]
    rfl

/-- The account that is left if the last change counts only where it is an account. -/
def replayed (changes : List (Option (EvmAccount C))) (old : Option (EvmAccount C)) :
    Option (EvmAccount C) :=
  changes.getLast?.join.or old

/-- The account that a removal takes out of the copy is still there in the storage that the copy is
written back to. -/
theorem lookup_updateStorage (storage : InMemoryStorage C)
    (results : List (PevmTxExecutionResult C)) (address : Address) :
    (updateStorage order storage results).accounts.lookup address =
      replayed (changes results address) (storage.accounts.lookup address) := by
  refine (lookup_insertAll order _ _ _).trans ?_
  rw [lookup_replaceAll, replayed]
  cases (changes results address).getLast? with
  | none => exact Option.or_self
  | some last => rfl

theorem lookup_applyDeltaState (storage : InMemoryStorage C)
    (results : List (PevmTxExecutionResult C)) (address : Address) :
    (applyDeltaState order storage (getDeltaState order results)).accounts.lookup address =
      replayed (changes results address) (storage.accounts.lookup address) := by
  refine (lookup_insertAll order _ _ _).trans ?_
  rw [lookup_insertAll, getDeltaState, lookup_replaceAll, replayed]
  cases (changes results address).getLast? with
  | none => simp
  | some last => simp [Option.or_assoc]

end Replace

/-! ## Comparing the paths -/

section Compare

variable {β : Type}

/-- The two paths agree at an address, in what `f` looks at, if and only if the last change carries
all that `f` sees of the account in front of it, and is not the removal of an old account. -/
theorem map_replayed_eq_map_merged_iff {f : EvmAccount C → β}
    (changes : List (Option (EvmAccount C))) (old : Option (EvmAccount C)) :
    (replayed changes old).map f = (merged order changes old).map f ↔
      (changes.getLast? = some none → old = none) ∧
      ∀ new, changes.getLast? = some (some new) →
        ∀ existing, merged order changes.dropLast old = some existing →
          f (existing.merge order new) = f new := by
  cases hl : changes.getLast? with
  | none =>
    rw [List.getLast?_eq_none_iff.mp hl]
    simp [replayed, merged]
  | some last =>
    obtain ⟨init, rfl⟩ := List.getLast?_eq_some_iff.mp hl
    have hm : merged order (init ++ [last]) old = mergeAt order last (merged order init old) := by
      unfold merged
      rw [List.foldl_append]
      rfl
    rw [hm, List.dropLast_concat, replayed]
    cases last with
    | none => simp [mergeAt]
    | some new =>
      cases merged order init old with
      | none => simp [mergeAt]
      | some existing => simp [mergeAt, eq_comm]

end Compare

def EvmAccount.SlotsIn (existing new : EvmAccount C) : Prop :=
  ∀ index, existing.storage.lookup index ≠ none → new.storage.lookup index ≠ none

theorem EvmAccount.storage_merge_eq_iff (order : CommitOrder) :
    (existing.merge order new).storage = new.storage ↔ existing.SlotsIn new := by
  have hlook := lookup_extendSlots order existing.storage new.storage
  constructor
  · intro h index hne hnone
    have := hlook index
    rw [show extendSlots order existing.storage new.storage = new.storage from h, hnone,
      Option.none_or] at this
    exact hne this.symm
  · intro h
    refine Finmap.ext_lookup fun index => (hlook index).trans ?_
    cases hn : new.storage.lookup index with
    | some v => rfl
    | none =>
      exact not_not.mp fun hne => h index hne hn

def EvmAccount.state (account : EvmAccount C) : U256 × UInt64 × HashMap U256 U256 :=
  (account.balance, account.nonce, account.storage)

def SameState (s s' : InMemoryStorage C) : Prop :=
  ∀ address, (s.accounts.lookup address).map EvmAccount.state =
    (s'.accounts.lookup address).map EvmAccount.state

/-- `update_storage` and `update_storage_with_results` agree exactly if no account that was in the
storage is removed by its last change, and the last change of each account carries all the slots
that the account has at that time. -/
theorem updateStorage_sameState_iff (order order' : CommitOrder) (storage : InMemoryStorage C)
    (results : List (PevmTxExecutionResult C)) :
    SameState (updateStorage order storage results)
      (updateStorageWithResults order' storage results) ↔
    ∀ address,
      ((changes results address).getLast? = some none → storage.accounts.lookup address = none) ∧
      ∀ new, (changes results address).getLast? = some (some new) →
        ∀ existing, merged order' (changes results address).dropLast
          (storage.accounts.lookup address) = some existing → existing.SlotsIn new := by
  refine forall_congr' fun address => ?_
  rw [lookup_updateStorage, lookup_updateStorageWithResults, map_replayed_eq_map_merged_iff]
  have hstate : ∀ existing new : EvmAccount C,
      (existing.merge order' new).state = new.state ↔ existing.SlotsIn new := by
    intro existing new
    rw [← EvmAccount.storage_merge_eq_iff order']
    simp [EvmAccount.state, EvmAccount.merge]
  simp only [hstate]

def plainAccount (balance : U256) (storage : HashMap U256 U256) : EvmAccount String :=
  ⟨balance, 0, none, none, storage⟩

def twoSlots : InMemoryStorage String :=
  ⟨Finmap.singleton 1 (plainAccount 9 ((Finmap.singleton 0 1).insert 1 2)), ∅⟩

/-- A transaction that loads one of two slots makes `update_storage` drop the other, and a removed
account is still there. -/
theorem updateStorage_drops_slot_keeps_removed :
    let slotWrite := [singleResult 1 (some (plainAccount 9 (Finmap.singleton 0 5)))]
    let removal := [singleResult 1 (none : Option (EvmAccount String))]
    (updateStorage sortedOrder twoSlots slotWrite).storage 1 1 = 0 ∧
    (updateStorageWithResults sortedOrder twoSlots slotWrite).storage 1 1 = 2 ∧
    (updateStorage sortedOrder twoSlots removal).basic 1 = some ⟨9, 0⟩ ∧
    (updateStorageWithResults sortedOrder twoSlots removal).basic 1 = none := by
  decide +kernel

/-- The last change of an account carries all that the account has: its slots, and its code if the
change has none. -/
structure EvmAccount.CarriedBy (existing new : EvmAccount C) : Prop where
  slots : existing.SlotsIn new
  code : new.code = none → existing.code = none ∧ existing.codeHash = new.codeHash

theorem EvmAccount.merge_eq_iff (order : CommitOrder) :
    existing.merge order new = new ↔ existing.CarriedBy new := by
  have hslots : (existing.merge order new).storage = new.storage ↔ existing.SlotsIn new :=
    EvmAccount.storage_merge_eq_iff order
  constructor
  · intro h
    refine ⟨hslots.mp (by rw [h]), fun hnone => ?_⟩
    have hcode : (existing.merge order new).code = existing.code := if_neg (by simp [hnone])
    have hhash : (existing.merge order new).codeHash = existing.codeHash := if_neg (by simp [hnone])
    rw [h] at hcode hhash
    exact ⟨hcode.symm.trans hnone, hhash.symm⟩
  · intro h
    have hstorage := hslots.mpr h.slots
    obtain ⟨balance, nonce, codeHash, code, storage⟩ := new
    cases code with
    | none =>
      obtain ⟨hcode, hhash⟩ := h.code rfl
      simp only [EvmAccount.merge, EvmAccount.mk.injEq] at hstorage ⊢
      exact ⟨trivial, trivial, hhash, hcode, hstorage⟩
    | some c =>
      simp only [EvmAccount.merge, EvmAccount.mk.injEq] at hstorage ⊢
      exact ⟨trivial, trivial, rfl, rfl, hstorage⟩

/-- Replaying the delta state of some results yields the accounts of `update_storage_with_results`
exactly if no account that was in the storage is removed by its last change, and the last change of
each account carries all that the account has at that time. -/
theorem applyDeltaState_accounts_iff (order order' : CommitOrder) (storage : InMemoryStorage C)
    (results : List (PevmTxExecutionResult C)) :
    (applyDeltaState order storage (getDeltaState order results)).accounts =
      (updateStorageWithResults order' storage results).accounts ↔
    ∀ address,
      ((changes results address).getLast? = some none → storage.accounts.lookup address = none) ∧
      ∀ new, (changes results address).getLast? = some (some new) →
        ∀ existing, merged order' (changes results address).dropLast
          (storage.accounts.lookup address) = some existing → existing.CarriedBy new := by
  have hext : (applyDeltaState order storage (getDeltaState order results)).accounts =
      (updateStorageWithResults order' storage results).accounts ↔ ∀ address,
        (replayed (changes results address) (storage.accounts.lookup address)).map (fun a => a) =
          (merged order' (changes results address) (storage.accounts.lookup address)).map
            (fun a => a) := by
    simp only [Option.map_id', ← lookup_applyDeltaState order,
      ← lookup_updateStorageWithResults order']
    exact ⟨fun h _ => by rw [h], Finmap.ext_lookup⟩
  rw [hext]
  refine forall_congr' fun address => ?_
  rw [map_replayed_eq_map_merged_iff]
  simp only [EvmAccount.merge_eq_iff]

/-- Two transactions write one slot each: the delta state has only the second, and it has no trace of
the removal of an account. -/
theorem deltaState_loses_slot_and_removal :
    let writes := [singleResult 1 (some (plainAccount 9 (Finmap.singleton 0 5))),
      singleResult 1 (some (plainAccount 9 (Finmap.singleton 1 6)))]
    let removal := [singleResult 1 (none : Option (EvmAccount String))]
    (applyDeltaState sortedOrder emptyStorage (getDeltaState sortedOrder writes)).storage 1 0 = 0 ∧
    (updateStorageWithResults sortedOrder emptyStorage writes).storage 1 0 = 5 ∧
    (applyDeltaState sortedOrder twoSlots (getDeltaState sortedOrder removal)).basic 1 =
      some ⟨9, 0⟩ ∧
    (updateStorageWithResults sortedOrder twoSlots removal).basic 1 = none := by
  decide +kernel

end CongestionControl.Pevm
