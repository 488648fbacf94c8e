import CongestionControl.Pevm.Proofs.LazyAccountProofs
import CongestionControl.Pevm.Proofs.MvMemoryProofs
import CongestionControl.Pevm.VmReader

/-!
# Validation is reading again

Every read of a location follows a chain of updates, down to the first absolute value or to storage. The
validator compares the versions only, and since equal versions carry equal values, the chain ends where
it ended then.
-/

namespace CongestionControl.Pevm

open VersionMap

/-! ## Chains -/

inductive ValueRole
  | absolute
  | update
  | invalid

def MemoryLocation.role : MemoryLocation → MemoryValue → ValueRole
  | basic _, .basic _ => .absolute
  | basic _, .lazyRecipient _ => .update
  | basic _, .lazySender _ => .update
  | codeHash _, .codeHash _ => .absolute
  | storage _ _, .storage _ => .absolute
  | _, _ => .invalid

variable {h : History} {written : Versions MemoryValue} {os : List ReadOrigin} {s : LazyScan}
  {origin : ReadOrigin}

namespace History

def chain (location : MemoryLocation) : History → Option (List ReadOrigin)
  | [] => some [.storage]
  | (_, .estimate) :: _ => none
  | (i, .data k x) :: rest =>
    match location.role x with
    | .absolute => some [.mvMemory ⟨i, k⟩]
    | .update => (chain location rest).map (.mvMemory ⟨i, k⟩ :: ·)
    | .invalid => none

variable {location : MemoryLocation} {os : List ReadOrigin}

theorem chain_ne_nil : ∀ {h : History}, h.chain location ≠ some []
  | [] => by simp [chain]
  | (_, .estimate) :: _ => by simp [chain]
  | (_, .data _ _) :: _ => by
    rw [chain]
    split <;> simp

theorem chain_eq_cons {v : TxVersion} :
    h.chain location = some (.mvMemory v :: os) ↔
      ∃ x rest, h = (v.txIdx, .data v.txIncarnation x) :: rest ∧
        (location.role x = .absolute ∧ os = [] ∨
          location.role x = .update ∧ chain location rest = some os) := by
  obtain ⟨i, k⟩ := v
  match h with
  | [] => simp [chain]
  | (_, .estimate) :: _ => simp [chain]
  | (j, .data l x) :: rest =>
    cases hr : location.role x <;> simp [chain, hr]; grind

theorem chain_eq_storage :
    h.chain location = some (.storage :: os) ↔ h = [] ∧ os = [] := by
  match h with
  | [] => simp [chain, eq_comm]
  | (_, .estimate) :: _ => simp [chain]
  | (_, .data _ x) :: _ => cases hr : location.role x <;> simp [chain, hr]

/-- The values of a history are those that the map has for the same versions. -/
def Coherent (h : History) (written : Versions MemoryValue) : Prop :=
  ∀ i k x y, (i, MemoryEntry.data k x) ∈ h → written i = some (.data k y) → x = y

end History

open History

/-- The validator accepts the origins of an earlier read iff a read now finds the same ones. -/
theorem validateOrigins_iff_chain {location : MemoryLocation} {bound : TxIdx}
    (hcoh : h.Coherent written) (hos : h.chain location = some os) :
    MvMemory.validateOrigins written bound os = true ↔
      chain location (entriesBelow written bound).reverse = some os := by
  -- Along the earlier origins: an entry with the version of one of them has its value, so its role.
  induction os generalizing h bound with
  | nil => exact absurd hos chain_ne_nil
  | cons o os ih =>
    cases o with
    | storage =>
      obtain ⟨-, rfl⟩ := chain_eq_storage.mp hos
      rw [chain_eq_storage, reverse_entriesBelow]
      cases hl : lastBelow written bound <;> simp [MvMemory.validateOrigins, hl]
    | mvMemory v =>
      obtain ⟨x, rest, rfl, hrole⟩ := chain_eq_cons.mp hos
      rw [chain_eq_cons, reverse_entriesBelow]
      rcases hl : lastBelow written bound with _ | ⟨j, ⟨l, y⟩ | _⟩
      · simp [MvMemory.validateOrigins, hl]
      · by_cases hv : j = v.txIdx ∧ l = v.txIncarnation
        · obtain ⟨rfl, rfl⟩ := hv
          have hxy : x = y :=
            hcoh _ _ _ _ List.mem_cons_self (lastBelow_eq_some.mp hl).2.1
          have hrest : Coherent rest written := fun i k x y hx =>
            hcoh i k x y (List.mem_cons_of_mem _ hx)
          subst hxy
          rcases hrole with ⟨habs, rfl⟩ | ⟨hupd, hos'⟩
          · simp [MvMemory.validateOrigins, hl, habs]
          · simp [MvMemory.validateOrigins, hl, hupd, ih hrest hos']
        · simp only [MvMemory.validateOrigins, hl, Option.elim_some, List.cons.injEq, Prod.mk.injEq,
            MemoryEntry.data.injEq]
          rw [if_pos (by tauto)]
          refine iff_of_false (by simp) ?_
          rintro ⟨x', rest', ⟨⟨hj, hk, -⟩, -⟩, -⟩
          exact hv ⟨hj, hk⟩
      · simp [MvMemory.validateOrigins, hl]

/-! ## The walk of an account -/

namespace LazyScan

variable {address : Address}

theorem run_of_chain_eq_none (hs : s.finalAccount = none) (hc : h.chain (.basic address) = none) :
    ∃ e, run [] h s = .error e := by
  induction h generalizing s with
  | nil => cases hc
  | cons p rest ih =>
    match p with
    | (i, .estimate) => exact ⟨_, rfl⟩
    | (i, .data k (.lazyRecipient x)) =>
      rw [run_data (.inl rfl)]
      simp only [take, Except.bind, hs, Option.isSome_none, Bool.false_eq_true, if_false]
      exact ih rfl (Option.map_eq_none_iff.mp hc)
    | (i, .data k (.lazySender x)) =>
      rw [run_data (.inl rfl)]
      simp only [take, Except.bind, hs, Option.isSome_none, Bool.false_eq_true, if_false]
      exact ih rfl (Option.map_eq_none_iff.mp hc)
    | (i, .data k (.basic x)) => cases hc
    | (i, .data k (.codeHash x)) => exact ⟨_, rfl⟩
    | (i, .data k (.storage x)) => exact ⟨_, rfl⟩
    | (i, .data k .selfDestructed) => exact ⟨_, rfl⟩

/-- The walk has found an absolute value at the end of the chain, or all of it but storage. -/
def Found (s : LazyScan) (os : List ReadOrigin) : Prop :=
  s.finalAccount.isSome ∧ s.newOrigins = os ∧ .storage ∉ os ∨
    s.finalAccount = none ∧ s.newOrigins ++ [.storage] = os

theorem run_of_chain_eq_some (hs : s.finalAccount = none) (hstorage : .storage ∉ s.newOrigins)
    (hc : h.chain (.basic address) = some os) :
    ∃ s', run [] h s = .ok s' ∧ s'.Found (s.newOrigins ++ os) := by
  induction h generalizing s os with
  | nil =>
    cases hc
    exact ⟨s, rfl, .inr ⟨hs, rfl⟩⟩
  | cons p rest ih =>
    -- A lazy update: its origin is noted, and the walk goes on.
    have hnext : ∀ {i k} {s₁ : LazyScan}, s₁.finalAccount = none →
        s₁.newOrigins = s.newOrigins ++ [.mvMemory ⟨i, k⟩] →
        (chain (.basic address) rest).map (.mvMemory ⟨i, k⟩ :: ·) = some os →
        ∃ s', run [] rest s₁ = .ok s' ∧ s'.Found (s.newOrigins ++ os) := by
      intro i k s₁ hs₁ hnew hmap
      obtain ⟨os', hos', rfl⟩ := Option.map_eq_some_iff.mp hmap
      obtain ⟨s', hrun, hfound⟩ := ih hs₁ (by simp [hnew, hstorage]) hos'
      rw [hnew, List.append_assoc] at hfound
      exact ⟨s', hrun, hfound⟩
    match p with
    | (i, .estimate) => cases hc
    | (i, .data k (.lazyRecipient x)) =>
      rw [run_data (.inl rfl)]
      simp only [take, Except.bind, hs, Option.isSome_none, Bool.false_eq_true, if_false]
      exact hnext rfl rfl hc
    | (i, .data k (.lazySender x)) =>
      rw [run_data (.inl rfl)]
      simp only [take, Except.bind, hs, Option.isSome_none, Bool.false_eq_true, if_false]
      exact hnext rfl rfl hc
    | (i, .data k (.basic x)) =>
      cases hc
      exact ⟨_, rfl, .inl ⟨rfl, rfl, by simp [hstorage]⟩⟩
    | (i, .data k (.codeHash x)) => cases hc
    | (i, .data k (.storage x)) => cases hc
    | (i, .data k .selfDestructed) => cases hc

/-- The fall back to storage ends the chain, unless storage fails. -/
theorem Found.readStorage (h : s.Found os) (storage : Except String (Option AccountBasic)) :
    (∃ s', s.readStorage [] storage = .ok s' ∧ s'.newOrigins = os ∧
      (.storage ∈ os → ∃ a, storage = .ok a)) ∨
    (∃ e, s.readStorage [] storage = .error e) ∧ .storage ∈ os ∧ ∀ a, storage ≠ .ok a := by
  rcases h with ⟨hsome, hnew, hos⟩ | ⟨hnone, rfl⟩
  · exact .inl ⟨s, if_pos hsome, hnew, fun h => absurd h hos⟩
  · cases storage with
    | error e =>
      refine .inr ⟨⟨.storageError e, ?_⟩, by simp, nofun⟩
      simp only [LazyScan.readStorage, hnone]
      rfl
    | ok a =>
      obtain ⟨s', hs', -, -, hnew, -⟩ := readStorage_eq hnone (.inl rfl) a
      exact .inl ⟨s', hs', hnew, fun _ => ⟨a, rfl⟩⟩

end LazyScan

/-- The last part of the read meets no marker. -/
theorem VmDb.finish_ne_blockingEstimate {L : Type} [DecidableEq L] {db : VmDb L} {location : L}
    {i : TxIdx} : db.finish location s ≠ .error (.blockingEstimate i) := by
  unfold VmDb.finish
  cases s.finalAccount with
  | none => simp
  | some account =>
    dsimp only
    split_ifs <;> simp

/-! ## Read sets -/

namespace ReadSet

variable {L : Type} [DecidableEq L] {readSet : ReadSet L} {l : L} {os : List ReadOrigin}

theorem mem_setOrigins {p : L × List ReadOrigin} (h : p ∈ readSet.setOrigins l os) :
    p ∈ readSet ∨ p = (l, os) := by
  unfold setOrigins at h
  split at h
  · obtain ⟨q, hq, rfl⟩ := List.mem_map.mp h
    split
    · exact .inr rfl
    · exact .inl hq
  · simpa using h

theorem mem_of_origins_ne_nil (h : readSet.origins l ≠ []) : (l, readSet.origins l) ∈ readSet := by
  unfold origins at h ⊢
  cases hl : readSet.lookup l with
  | none => simp [hl] at h
  | some os =>
    obtain ⟨pre, post, rfl, -⟩ := List.lookup_eq_some_iff.mp hl
    simp

theorem origins_setOrigins_of_ne {l' : L} (h : l' ≠ l) :
    (readSet.setOrigins l os).origins l' = readSet.origins l' := by
  have hb : (l' == l) = false := by simpa using h
  unfold setOrigins origins
  split
  · congr 1
    clear * - hb
    induction readSet with
    | nil => rfl
    | cons p readSet ih =>
      rw [List.map_cons]
      split
      · next hp => rw [List.lookup_cons, hb, ih, List.lookup_cons, hp, hb]
      · rw [List.lookup_cons, ih, List.lookup_cons]
  · simp [List.lookup_append, List.lookup_cons, hb]

/-- A first origin is recorded, and a later one has to be the last that is recorded. -/
theorem pushOrigin_eq_ok {prior : List ReadOrigin} (h : pushOrigin prior origin = .ok os) :
    prior = [] ∧ os = [origin] ∨ prior ≠ [] ∧ os = prior := by
  unfold pushOrigin at h
  cases hp : prior.getLast? with
  | none =>
    obtain rfl := List.getLast?_eq_none_iff.mp hp
    cases h
    exact .inl ⟨rfl, rfl⟩
  | some prev =>
    have hne : prior ≠ [] := by rintro rfl; cases hp
    simp only [hp] at h
    split at h
    · cases h
    · cases h
      exact .inr ⟨hne, rfl⟩

end ReadSet

/-! ## What the reads find -/

def MemoryView.chain {C : Type} (view : MemoryView C) (location : MemoryLocation) (txIdx : TxIdx) :
    Option (List ReadOrigin) :=
  History.chain location ((view.data location).elim [] fun written => entriesBelow written txIdx).reverse

namespace VmReader

variable {C : Type} {storage : StorageReads C} {view : MemoryView C} {db db' : VmReader}
  {address : Address} {index : U256} {location : MemoryLocation} {os : List ReadOrigin} {α : Type}
  {info : Option (AccountInfo C)}

theorem chain_eq_closest (db : VmReader) (view : MemoryView C) (location : MemoryLocation) :
    ∃ rest : TxIdx × MemoryEntry MemoryValue → History, view.chain location db.txIdx =
      History.chain location ((db.closest view location).elim [] fun p => p :: rest p) := by
  unfold MemoryView.chain closest
  cases view.data location with
  | none => exact ⟨fun _ => [], rfl⟩
  | some written => exact ⟨_, congrArg _ (reverse_entriesBelow written db.txIdx)⟩

def Mocked (db : VmReader) (address : Address) : Prop :=
  db.isLazy ∧ (address = db.tx.caller ∨ some address = db.tx.transactTo)

/-- A pair of the read set as a read leaves it there for the first time. -/
structure Finds (storage : StorageReads C) (view : MemoryView C) (db : VmReader)
    (p : MemoryLocation × List ReadOrigin) : Prop where
  /-- A code hash is also taken from storage if there is a value of another kind. -/
  chain : p.2 = [.storage] ∨ view.chain p.1 db.txIdx = some p.2
  account : ∀ address, p.1 = .basic address → ¬ db.Mocked address ∧
    (.storage ∈ p.2 → ∃ a, storage.basic address = .ok a)

theorem unblocked_mapError (x : Except String α) :
    Unblocked (x.mapError fun e => .read (.storageError e)) := by
  intro i
  cases x <;> simp [Except.mapError]

theorem Unblocked.bind {β : Type} {x : Except VmReadError α} {f : α → Except VmReadError β}
    (hx : Unblocked x) (hf : ∀ a, Unblocked (f a)) : Unblocked (x.bind f) := by
  cases x with
  | error e => exact fun i he => hx i (by cases he; rfl)
  | ok a => exact hf a

theorem readFrom_spec (db : VmReader) (location : MemoryLocation) (origin : ReadOrigin)
    {result : Except VmReadError α} (hr : Unblocked result) :
    Unblocked (db.readFrom location origin result).1 ∧
      ∃ os, (db.readFrom location origin result).2.readSet = db.readSet.setOrigins location os := by
  unfold readFrom pushOrigin
  cases ReadSet.pushOrigin (db.readSet.origins location) origin with
  | error e => exact ⟨fun i he => (by cases he), _, rfl⟩
  | ok os => exact ⟨hr, os, rfl⟩

theorem readFrom_ok {result : Except VmReadError α} {a : α}
    (h : db.readFrom location origin result = (.ok a, db')) :
    ∃ rs, db' = { db with readSet := rs } ∧ ∀ p ∈ rs, p ∈ db.readSet ∨ p = (location, [origin]) := by
  unfold readFrom pushOrigin at h
  cases hp : ReadSet.pushOrigin (db.readSet.origins location) origin with
  | error e =>
    simp only [hp] at h
    cases h
  | ok os =>
    simp only [hp, Prod.mk.injEq] at h
    refine ⟨_, h.2.symm, fun p hmem => ?_⟩
    rcases ReadSet.mem_setOrigins hmem with hold | rfl
    · exact .inl hold
    · rcases ReadSet.pushOrigin_eq_ok hp with ⟨-, rfl⟩ | ⟨hne, rfl⟩
      · exact .inr rfl
      · exact .inl (ReadSet.mem_of_origins_ne_nil hne)

theorem getCodeHash_cases (storage : StorageReads C) (view : MemoryView C) (db : VmReader)
    (address : Address) :
    (db.getCodeHash storage view address =
        (.error .selfDestructedAccount, db.enter (.codeHash address)) ∧
      ∃ i k, db.closest view (.codeHash address) = some (i, .data k .selfDestructed)) ∨
    ∃ origin result, db.getCodeHash storage view address =
        db.readFrom (.codeHash address) origin result ∧
      Unblocked result ∧
      (view.chain (.codeHash address) db.txIdx = some [origin] ∨ origin = .storage ∧
        ∃ i e, db.closest view (.codeHash address) = some (i, e) ∧
          (e = .estimate ∨ ∃ k x, e = .data k x ∧ x ≠ .selfDestructed ∧ ∀ hash, x ≠ .codeHash hash)) := by
  obtain ⟨rest, hrest⟩ := db.chain_eq_closest view (.codeHash address)
  have hstorage := unblocked_mapError (storage.codeHash address)
  rw [hrest]
  simp only [getCodeHash]
  match hc : db.closest view (.codeHash address) with
  | none => exact .inr ⟨_, _, rfl, hstorage, .inl rfl⟩
  | some (i, .estimate) => exact .inr ⟨_, _, rfl, hstorage, .inr ⟨rfl, i, _, rfl, .inl rfl⟩⟩
  | some (i, .data k .selfDestructed) => exact .inl ⟨rfl, i, k, rfl⟩
  | some (i, .data k (.codeHash hash)) => exact .inr ⟨_, _, rfl, nofun, .inl rfl⟩
  | some (i, .data k (.basic x)) =>
    exact .inr ⟨_, _, rfl, hstorage, .inr ⟨rfl, i, _, rfl, .inr ⟨k, _, rfl, nofun, nofun⟩⟩⟩
  | some (i, .data k (.storage x)) =>
    exact .inr ⟨_, _, rfl, hstorage, .inr ⟨rfl, i, _, rfl, .inr ⟨k, _, rfl, nofun, nofun⟩⟩⟩
  | some (i, .data k (.lazyRecipient x)) =>
    exact .inr ⟨_, _, rfl, hstorage, .inr ⟨rfl, i, _, rfl, .inr ⟨k, _, rfl, nofun, nofun⟩⟩⟩
  | some (i, .data k (.lazySender x)) =>
    exact .inr ⟨_, _, rfl, hstorage, .inr ⟨rfl, i, _, rfl, .inr ⟨k, _, rfl, nofun, nofun⟩⟩⟩

theorem getCodeHash_ok {hash : Option B256}
    (h : db.getCodeHash storage view address = (.ok hash, db')) :
    ∃ rs, db' = { db with readSet := rs } ∧
      ∀ p ∈ rs, p ∈ db.readSet ∨ p.1 = .codeHash address ∧ Finds storage view db p := by
  rcases getCodeHash_cases storage view db address with ⟨he, -⟩ | ⟨origin, result, he, -, hcase⟩
  · rw [he] at h
    cases h
  · obtain ⟨rs, rfl, hrs⟩ := readFrom_ok (he.symm.trans h)
    refine ⟨rs, rfl, fun p hp => (hrs p hp).imp_right ?_⟩
    rintro rfl
    refine ⟨rfl, ?_, nofun⟩
    rcases hcase with hchain | ⟨rfl, -⟩
    · exact .inr hchain
    · exact .inl rfl

theorem readSlot_cases (storage : StorageReads C) (view : MemoryView C) (db : VmReader)
    (address : Address) (index : U256) :
    (view.chain (.storage address index) db.txIdx = none ∧ ∃ e,
      db.readSlot storage view address index = (.error e, db.enter (.storage address index))) ∨
    ∃ origin result, db.readSlot storage view address index =
        db.readFrom (.storage address index) origin result ∧
      Unblocked result ∧
      view.chain (.storage address index) db.txIdx = some [origin] := by
  obtain ⟨rest, hrest⟩ := db.chain_eq_closest view (.storage address index)
  have hguard : (if db.txIdx > 0 then db.closest view (.storage address index) else none) =
      db.closest view (.storage address index) := by
    split
    · rfl
    · next h =>
      have h0 : db.txIdx = 0 := Nat.eq_zero_of_not_pos h
      cases hd : view.data (.storage address index) <;> simp [closest, h0, hd]
  have hstorage := unblocked_mapError (storage.storage address index)
  rw [hrest]
  unfold readSlot
  simp only [hguard]
  match db.closest view (.storage address index) with
  | none => exact .inr ⟨_, _, rfl, hstorage, rfl⟩
  | some (i, .data k (.storage x)) => exact .inr ⟨_, _, rfl, nofun, rfl⟩
  | some (i, .estimate) => exact .inl ⟨rfl, _, rfl⟩
  | some (i, .data k (.basic x)) => exact .inl ⟨rfl, _, rfl⟩
  | some (i, .data k (.codeHash x)) => exact .inl ⟨rfl, _, rfl⟩
  | some (i, .data k (.lazyRecipient x)) => exact .inl ⟨rfl, _, rfl⟩
  | some (i, .data k (.lazySender x)) => exact .inl ⟨rfl, _, rfl⟩
  | some (i, .data k .selfDestructed) => exact .inl ⟨rfl, _, rfl⟩

theorem readSlot_ok {value : U256}
    (h : db.readSlot storage view address index = (.ok value, db')) :
    ∃ rs, db' = { db with readSet := rs } ∧ ∀ p ∈ rs, p ∈ db.readSet ∨ Finds storage view db p := by
  rcases readSlot_cases storage view db address index with
    ⟨-, e, he⟩ | ⟨origin, result, he, -, hchain⟩
  · rw [he] at h
    cases h
  · obtain ⟨rs, rfl, hrs⟩ := readFrom_ok (he.symm.trans h)
    refine ⟨rs, rfl, fun p hp => (hrs p hp).imp_right ?_⟩
    rintro rfl
    exact ⟨.inr hchain, nofun⟩

/-! ## The read of an account -/

theorem scan_cases (storage : StorageReads C) (view : MemoryView C)
    (hprior : db.readSet.origins (.basic address) = []) :
    (∃ s, db.scan storage view address = .ok s ∧
      view.chain (.basic address) db.txIdx = some s.newOrigins ∧
      (.storage ∈ s.newOrigins → ∃ a, storage.basic address = .ok a)) ∨
    (∃ e, db.scan storage view address = .error e) ∧
      (view.chain (.basic address) db.txIdx = none ∨
        ∃ os, view.chain (.basic address) db.txIdx = some os ∧ .storage ∈ os ∧
          ∀ a, storage.basic address ≠ .ok a) := by
  have hscan : db.scan storage view address =
      (LazyScan.run [] ((view.data (.basic address)).elim []
        fun written => entriesBelow written db.txIdx).reverse .start).bind
        fun s => s.readStorage [] (storage.basic address) := by
    simp only [scan, account, VmDb.history, hprior]
  rw [hscan]
  cases hc : view.chain (.basic address) db.txIdx with
  | none =>
    obtain ⟨e, he⟩ := LazyScan.run_of_chain_eq_none (s := .start) rfl hc
    exact .inr ⟨⟨e, by rw [he]; rfl⟩, .inl rfl⟩
  | some os =>
    obtain ⟨s, hs, hfound⟩ :=
      LazyScan.run_of_chain_eq_some (s := .start) rfl (List.not_mem_nil) hc
    rw [hs]
    rcases hfound.readStorage (storage.basic address) with
      ⟨s', hs', rfl, hok⟩ | ⟨he, hmem, herr⟩
    · exact .inl ⟨s', hs', rfl, hok⟩
    · exact .inr ⟨he, .inr ⟨os, rfl, hmem, herr⟩⟩

def recorded (db : VmReader) (address : Address) (s : LazyScan) : VmReader :=
  let readOrigins := db.readSet.origins (.basic address)
  let origins := if readOrigins.isEmpty then s.newOrigins else readOrigins
  { db with readSet := db.readSet.setOrigins (.basic address) origins }

theorem basic_cases (storage : StorageReads C) (view : MemoryView C) (hm : ¬ db.Mocked address) :
    (∃ e, db.scan storage view address = .error e ∧
      db.basic storage view address = (.error (.read e), db.enter (.basic address))) ∨
    ∃ s, db.scan storage view address = .ok s ∧
      ((∃ result, db.basic storage view address = (result, db.recorded address s) ∧
          Unblocked result) ∨
        ∃ account, db.basic storage view address =
          (db.recorded address s).withCode storage view address account) := by
  have h1 : ¬ (db.isLazy ∧ address = db.tx.caller) := fun h => hm ⟨h.1, .inl h.2⟩
  have h2 : ¬ (db.isLazy ∧ some address = db.tx.transactTo) := fun h => hm ⟨h.1, .inr h.2⟩
  unfold basic
  simp only [h1, h2, if_false]
  cases hs : db.scan storage view address with
  | error e => exact .inl ⟨e, rfl, rfl⟩
  | ok s =>
    refine .inr ⟨s, rfl, ?_⟩
    dsimp only
    rcases hf : (db.account address).finish (.basic address) s with e | ⟨_ | account, _⟩
    · refine .inl ⟨_, rfl, fun i he => ?_⟩
      cases he
      exact absurd hf VmDb.finish_ne_blockingEstimate
    · exact .inl ⟨_, rfl, fun i he => by cases he⟩
    · exact .inr ⟨account, rfl⟩

theorem getCodeHash_spec (storage : StorageReads C) (view : MemoryView C) (db : VmReader)
    (address : Address) :
    Unblocked (db.getCodeHash storage view address).1 ∧
      ∃ os, (db.getCodeHash storage view address).2.readSet =
        db.readSet.setOrigins (.codeHash address) os := by
  rcases getCodeHash_cases storage view db address with ⟨he, -⟩ | ⟨origin, result, he, hr, -⟩
  · rw [he]
    exact ⟨nofun, _, rfl⟩
  · rw [he]
    exact readFrom_spec db _ origin hr

theorem code_unblocked (storage : StorageReads C) (view : MemoryView C) (codeHash : Option B256) :
    Unblocked (code storage view codeHash) := by
  intro i
  unfold code
  cases codeHash with
  | none => simp
  | some hash =>
    dsimp only
    cases view.newBytecodes hash with
    | some code => simp
    | none =>
      cases storage.codeByHash hash <;> simp [Except.mapError]

theorem withCode_spec (storage : StorageReads C) (view : MemoryView C) (db : VmReader)
    (address : Address) (account : AccountBasic) :
    Unblocked (db.withCode storage view address account).1 ∧
      ∀ a, (db.withCode storage view address account).2.readSet.origins (.basic a) =
        db.readSet.origins (.basic a) := by
  have hcode : ∀ codeHash, Unblocked ((code storage view codeHash).map fun code =>
      some (AccountInfo.mk account.balance account.nonce (codeHash.getD keccakEmpty) code)) := by
    intro codeHash i
    have := code_unblocked storage view codeHash i
    cases hc : code storage view codeHash <;> simp_all [Except.map]
  obtain ⟨hhash, os, hos⟩ := getCodeHash_spec storage view db address
  unfold withCode
  split_ifs
  · exact ⟨hcode _, fun a => rfl⟩
  · refine ⟨hhash.bind hcode, fun a => ?_⟩
    show (db.getCodeHash storage view address).2.readSet.origins (.basic a) = _
    rw [hos]
    exact ReadSet.origins_setOrigins_of_ne (by simp)

theorem withCode_ok {account : AccountBasic}
    (h : db.withCode storage view address account = (.ok info, db')) :
    ∃ rs, db' = { db with readSet := rs } ∧ ∀ p ∈ rs, p ∈ db.readSet ∨ Finds storage view db p := by
  unfold withCode at h
  split_ifs at h
  · obtain ⟨-, rfl⟩ := Prod.mk.injEq .. ▸ h
    exact ⟨db.readSet, rfl, fun p hp => .inl hp⟩
  · match hg : db.getCodeHash storage view address with
    | (.error e, db₁) =>
      rw [hg] at h
      cases h
    | (.ok hash, db₁) =>
      rw [hg] at h
      obtain ⟨-, rfl⟩ := Prod.mk.injEq .. ▸ h
      obtain ⟨rs, hdb, hrs⟩ := getCodeHash_ok hg
      exact ⟨rs, hdb, fun p hp => (hrs p hp).imp_right And.right⟩

/-- A read of an account records the chain it has found. -/
theorem basic_ok (h : db.basic storage view address = (.ok info, db')) :
    ∃ rs, db' = { db with readSet := rs } ∧ ∀ p ∈ rs, p ∈ db.readSet ∨ Finds storage view db p := by
  by_cases hm : db.Mocked address
  · have : db' = db := by
      obtain ⟨hlazy, ha⟩ := hm
      unfold basic at h
      by_cases hc : address = db.tx.caller
      · rw [if_pos ⟨hlazy, hc⟩] at h
        cases h
        rfl
      · rw [if_neg (by tauto), if_pos ⟨hlazy, by tauto⟩] at h
        cases h
        rfl
    subst this
    exact ⟨db'.readSet, rfl, fun p hp => .inl hp⟩
  · rcases basic_cases storage view hm with ⟨e, -, he⟩ | ⟨s, hs, hcase⟩
    · rw [he] at h
      cases h
    · -- The pair of the account is found now, or was there before.
      have hnew : ∀ p ∈ (db.recorded address s).readSet, p ∈ db.readSet ∨ Finds storage view db p := by
        intro p hp
        rcases ReadSet.mem_setOrigins hp with hold | rfl
        · exact .inl hold
        · by_cases hprior : db.readSet.origins (.basic address) = []
          · rcases scan_cases storage view hprior with ⟨s', hs', hchain, hok⟩ | ⟨⟨e, he⟩, -⟩
            · rw [hs] at hs'
              cases hs'
              simp only [hprior, List.isEmpty_nil, if_true]
              refine .inr ⟨.inr hchain, fun a ha => ?_⟩
              cases ha
              exact ⟨hm, hok⟩
            · rw [hs] at he
              cases he
          · rw [if_neg (by simpa using hprior)]
            exact .inl (ReadSet.mem_of_origins_ne_nil hprior)
      rcases hcase with ⟨result, he, -⟩ | ⟨account, he⟩
      · rw [he] at h
        cases h
        exact ⟨_, rfl, hnew⟩
      · obtain ⟨rs, rfl, hrs⟩ := withCode_ok (he.symm.trans h)
        refine ⟨rs, rfl, fun p hp => ?_⟩
        rcases hrs p hp with hmem | hfinds
        · exact hnew p hmem
        · exact .inr ⟨hfinds.chain, hfinds.account⟩

theorem Reads.finds {seen : MemoryView C → Prop} (h : Reads storage seen db) :
    ∀ p ∈ db.readSet, ∃ view, seen view ∧ Finds storage view db p := by
  induction h with
  | @new db view txIdx tx hseen hnew =>
    unfold VmReader.new at hnew
    split at hnew
    · cases hnew
      nofun
    · match hg : getCodeHash storage view ⟨txIdx, tx, none, false, []⟩ ‹_› with
      | (.error e, db₁) => simp [hg] at hnew
      | (.ok hash, db₁) =>
        simp only [hg] at hnew
        cases hnew
        obtain ⟨rs, rfl, hrs⟩ := getCodeHash_ok hg
        intro p hp
        rcases hrs p hp with hmem | ⟨hloc, hfinds⟩
        · cases hmem
        · refine ⟨view, hseen, hfinds.chain, fun a ha => ?_⟩
          rw [hloc] at ha
          cases ha
  | @call db db' view c _ hseen hcall ih =>
    have hstep : ∃ rs, db' = { db with readSet := rs } ∧
        ∀ p ∈ rs, p ∈ db.readSet ∨ Finds storage view db p := by
      cases c with
      | basic address =>
        match hb : db.basic storage view address with
        | (.error e, db₁) => simp [VmReader.call, succeeded, hb] at hcall
        | (.ok a, db₁) =>
          simp only [VmReader.call, succeeded, hb, Option.some.injEq] at hcall
          exact basic_ok (hcall ▸ hb)
      | storage address index =>
        match hb : db.readSlot storage view address index with
        | (.error e, db₁) => simp [VmReader.call, succeeded, hb] at hcall
        | (.ok a, db₁) =>
          simp only [VmReader.call, succeeded, hb, Option.some.injEq] at hcall
          exact readSlot_ok (hcall ▸ hb)
    obtain ⟨rs, rfl, hrs⟩ := hstep
    intro p hp
    rcases hrs p hp with hold | hfinds
    · obtain ⟨view', hseen', hfinds⟩ := ih p hold
      exact ⟨view', hseen', hfinds.chain, hfinds.account⟩
    · exact ⟨view, hseen, hfinds.chain, hfinds.account⟩

/-! ## Reading again -/

theorem fresh_readFrom (db : VmReader) (location : MemoryLocation) (origin : ReadOrigin)
    (result : Except VmReadError α) : db.fresh.readFrom location origin result =
      (result, { db with readSet := [(location, [origin])] }) := rfl

theorem origins_singleton : ReadSet.origins [(location, os)] location = os := by
  simp [ReadSet.origins]

theorem repeats_storage_iff (hos : os ≠ []) :
    db.Repeats storage view (.storage address index) os ↔
      view.chain (.storage address index) db.txIdx = some os := by
  rcases readSlot_cases storage view db.fresh address index with
    ⟨hchain, e, he⟩ | ⟨origin, result, he, hr, hchain⟩
  · have hnone : view.chain (.storage address index) db.txIdx = none := hchain
    simp only [Repeats, he, hnone]
    refine iff_of_false ?_ (by simp)
    rintro ⟨-, h⟩
    exact hos (h.symm.trans origins_singleton)
  · have hsome : view.chain (.storage address index) db.txIdx = some [origin] := hchain
    simp only [Repeats, he, fresh_readFrom, origins_singleton, hsome, Option.some.injEq]
    exact and_iff_right hr

theorem repeats_codeHash_iff (hos : os ≠ [])
    (htyped : ∀ i k x, db.closest view (.codeHash address) = some (i, .data k x) →
      x = .selfDestructed ∨ ∃ hash, x = .codeHash hash) :
    db.Repeats storage view (.codeHash address) os ↔
      view.chain (.codeHash address) db.txIdx = some os := by
  obtain ⟨rest, hrest⟩ := db.chain_eq_closest view (.codeHash address)
  rcases getCodeHash_cases storage view db.fresh address with
    ⟨he, i, k, hc⟩ | ⟨origin, result, he, -, hchain | ⟨rfl, i, e, hc, hcase⟩⟩
  · have hc' : db.closest view (.codeHash address) = some (i, .data k .selfDestructed) := hc
    simp only [Repeats, he, hrest, hc']
    refine iff_of_false ?_ (by simp [History.chain, MemoryLocation.role])
    rintro ⟨-, h⟩
    exact hos (h.symm.trans origins_singleton)
  · have hsome : view.chain (.codeHash address) db.txIdx = some [origin] := hchain
    simp only [Repeats, he, fresh_readFrom, origins_singleton, hsome, Option.some.injEq]
    refine and_iff_right fun i hi => ?_
    rw [hrest, hi] at hsome
    cases hsome
  · have hc' : db.closest view (.codeHash address) = some (i, e) := hc
    rcases hcase with rfl | ⟨k, x, rfl, hx, hx'⟩
    · rw [hrest, hc']
      exact iff_of_false (fun h => h.1 i hc') (by simp [History.chain])
    · rcases htyped i k x hc' with rfl | ⟨hash, rfl⟩
      · exact absurd rfl hx
      · exact absurd rfl (hx' hash)

theorem repeats_basic_iff (hos : os ≠ []) (hm : ¬ db.Mocked address)
    (hstorage : .storage ∈ os → ∃ a, storage.basic address = .ok a) :
    db.Repeats storage view (.basic address) os ↔
      view.chain (.basic address) db.txIdx = some os := by
  have hm' : ¬ db.fresh.Mocked address := hm
  have hprior : db.fresh.readSet.origins (.basic address) = [] := rfl
  rcases basic_cases storage view hm' with ⟨e, hs, he⟩ | ⟨s, hs, hcase⟩
  · -- Nothing is recorded: there is no chain, or it ends at a storage that fails.
    refine iff_of_false ?_ fun hchain => ?_
    · simp only [Repeats, he]
      rintro ⟨-, h⟩
      exact hos (h.symm.trans origins_singleton)
    · rcases scan_cases storage view hprior with
        ⟨s, hs', -⟩ | ⟨-, hnone | ⟨os', hos', hmem, herr⟩⟩
      · rw [hs] at hs'
        cases hs'
      · cases hnone.symm.trans hchain
      · cases hos'.symm.trans hchain
        obtain ⟨a, ha⟩ := hstorage hmem
        exact herr a ha
  · have hchain : view.chain (.basic address) db.txIdx = some s.newOrigins := by
      rcases scan_cases storage view hprior with ⟨s', hs', hchain, -⟩ | ⟨⟨e, he⟩, -⟩
      · rw [hs] at hs'
        cases hs'
        exact hchain
      · rw [hs] at he
        cases he
    have horigins : (db.fresh.recorded address s).readSet.origins (.basic address) =
        s.newOrigins := origins_singleton
    rw [hchain, Option.some.injEq]
    rcases hcase with ⟨result, he, hr⟩ | ⟨account, he⟩
    · simp only [Repeats, he, horigins]
      exact and_iff_right hr
    · obtain ⟨hr, hkept⟩ := withCode_spec storage view (db.fresh.recorded address s) address account
      simp only [Repeats, he, hkept, horigins]
      exact and_iff_right hr

end VmReader

/-! ## Validation -/

section Validation

open VmReader

variable {C : Type} {m : MvMemory MemoryLocation MemoryValue} {storage : StorageReads C}
  {db : VmReader} {view : MemoryView C} {p : MemoryLocation × List ReadOrigin}

theorem MvMemory.view_chain (m : MvMemory MemoryLocation MemoryValue)
    (newBytecodes : B256 → Option C) (location : MemoryLocation) (txIdx : TxIdx) :
    (m.view newBytecodes).chain location txIdx = History.chain location
      ((m.data location).elim [] fun written => entriesBelow written txIdx).reverse := rfl

theorem validateOrigins_iff_of_finds (hcoh : m.Coherent view) (hfinds : Finds storage view db p)
    (hd : m.data p.1 = some written) :
    MvMemory.validateOrigins written db.txIdx p.2 = true ↔
      History.chain p.1 (entriesBelow written db.txIdx).reverse = some p.2 := by
  rcases hfinds.chain with hos | hchain
  · exact validateOrigins_iff_chain (h := []) nofun (by rw [hos]; rfl)
  · refine validateOrigins_iff_chain (fun i k x y hx hy => ?_) hchain
    cases hv : view.data p.1 with
    | none =>
      rw [hv] at hx
      cases hx
    | some seen =>
      rw [hv] at hx
      have hseen : seen i = some (.data k x) := mem_entriesBelow (List.mem_reverse.mp hx)
      exact hcoh p.1 seen hv i k x y hseen (MvMemory.entry_of_data hd ▸ hy)

theorem length_eq_one_and_storage_iff :
    os.length = 1 ∧ os.getLast? = some .storage ↔ os = [.storage] := by
  constructor
  · rintro ⟨hlen, hlast⟩
    obtain ⟨o, rfl⟩ := List.length_eq_one_iff.mp hlen
    cases hlast
    rfl
  · rintro rfl
    exact ⟨rfl, rfl⟩

theorem repeats_iff_chain {newBytecodes : B256 → Option C} (htyped : m.CodeTyped)
    (hfinds : Finds storage view db p) :
    db.Repeats storage (m.view newBytecodes) p.1 p.2 ↔
      (m.view newBytecodes).chain p.1 db.txIdx = some p.2 := by
  obtain ⟨location, os⟩ := p
  have hne : os ≠ [] := by
    rintro rfl
    rcases hfinds.chain with hos | hchain
    · cases hos
    · exact chain_ne_nil hchain
  cases location with
  | basic address =>
    obtain ⟨hm, hok⟩ := hfinds.account address rfl
    exact repeats_basic_iff hne hm hok
  | codeHash address =>
    refine repeats_codeHash_iff hne fun i k x hc => ?_
    obtain ⟨written, hd, hl⟩ := Option.bind_eq_some_iff.mp hc
    have hentry : m.entry (.codeHash address) i = some (.data k x) := by
      rw [MvMemory.entry_of_data hd]
      exact (lastBelow_eq_some.mp hl).2.1
    exact htyped address i k x hentry
  | storage address index => exact repeats_storage_iff hne

/-- Validation accepts exactly the read sets that reading again would record. -/
theorem validateReadLocations_iff_repeats (newBytecodes : B256 → Option C) (htyped : m.CodeTyped)
    (hreads : Reads storage m.Coherent db)
    (hread : (m.lastLocations db.txIdx).read = db.readSet) :
    m.validateReadLocations db.txIdx = true ↔
      ∀ p ∈ db.readSet, db.Repeats storage (m.view newBytecodes) p.1 p.2 := by
  rw [MvMemory.validateReadLocations, List.all_eq_true, hread]
  refine forall₂_congr fun p hp => ?_
  obtain ⟨view, hcoh, hfinds⟩ := hreads.finds p hp
  rw [repeats_iff_chain htyped hfinds, MvMemory.view_chain]
  cases hd : m.data p.1 with
  | none =>
    rw [decide_eq_true_eq, length_eq_one_and_storage_iff]
    simp [History.chain, eq_comm]
  | some written => exact validateOrigins_iff_of_finds hcoh hfinds hd

theorem MvMemory.coherent_view (m : MvMemory MemoryLocation MemoryValue)
    (newBytecodes : B256 → Option C) : m.Coherent (m.view newBytecodes) := by
  intro location written hd i k x y hx hy
  have hd' : m.data location = some written := hd
  rw [MvMemory.entry_of_data hd', hx] at hy
  cases hy
  rfl

end Validation

def emptyAccounts : StorageReads Unit where
  basic _ := .ok (some .default)
  codeHash _ := .ok none
  codeByHash _ := .ok none
  storage _ _ := .ok 0

def writtenAt (location : MemoryLocation) (written : Versions MemoryValue) (db : VmReader) :
    MvMemory MemoryLocation MemoryValue where
  data l := if l = location then some written else none
  lastLocations txIdx := if txIdx = db.txIdx then ⟨db.readSet, []⟩ else ⟨[], []⟩

def lazyReader : VmReader where
  txIdx := 2
  tx := ⟨2, none, none⟩
  toCodeHash := none
  isLazy := false
  readSet := [(.basic 1, [.mvMemory ⟨1, 0⟩, .mvMemory ⟨0, 0⟩]), (.codeHash 1, [.storage])]

def lazyChain : Versions MemoryValue
  | 0 => some (.data 0 (.basic ⟨7, 0⟩))
  | 1 => some (.data 0 (.lazyRecipient 3))
  | _ => none

theorem lazyChain_validates :
    let m := writtenAt (.basic 1) lazyChain lazyReader
    m.validateReadLocations 2 = true ∧
      ∀ p ∈ lazyReader.readSet, lazyReader.Repeats emptyAccounts (m.view fun _ => none) p.1 p.2 := by
  intro m
  have hvalid : m.validateReadLocations 2 = true := by decide +kernel
  have hcoh := m.coherent_view (C := Unit) fun _ => none
  have htyped : m.CodeTyped := by
    intro address i k x hx
    simp [m, MvMemory.entry, writtenAt] at hx
  have hreads : VmReader.Reads emptyAccounts m.Coherent lazyReader :=
    .call (.basic 1) (.new 2 ⟨2, none, none⟩ hcoh rfl) hcoh (by decide +kernel)
  exact ⟨hvalid, (validateReadLocations_iff_repeats (fun _ => none) htyped hreads rfl).mp hvalid⟩

def mistypedReader : VmReader where
  txIdx := 1
  tx := ⟨2, none, none⟩
  toCodeHash := none
  isLazy := false
  readSet := [(.basic 1, [.storage]), (.codeHash 1, [.storage])]

def mistypedSlot : Versions MemoryValue
  | 0 => some (.data 0 (.storage 0))
  | _ => none

/-- Reading a code hash passes over a value of another kind, and the validator does not. -/
theorem mistypedSlot_rejected :
    let m := writtenAt (.codeHash 1) mistypedSlot mistypedReader
    VmReader.Reads emptyAccounts m.Coherent mistypedReader ∧
      (m.lastLocations mistypedReader.txIdx).read = mistypedReader.readSet ∧
      (∀ p ∈ mistypedReader.readSet,
        mistypedReader.Repeats emptyAccounts (m.view fun _ => none) p.1 p.2) ∧
      m.validateReadLocations mistypedReader.txIdx = false := by
  intro m
  have hcoh := m.coherent_view (C := Unit) fun _ => none
  refine ⟨.call (.basic 1) (.new 1 ⟨2, none, none⟩ hcoh rfl) hcoh (by decide +kernel), rfl, ?_,
    by decide +kernel⟩
  have hbasic : mistypedReader.Repeats emptyAccounts (m.view fun _ => none) (.basic 1) [.storage] :=
    (VmReader.repeats_basic_iff (by simp) (by simp [VmReader.Mocked, mistypedReader])
      fun _ => ⟨_, rfl⟩).mpr (by decide +kernel)
  have hcode : mistypedReader.Repeats emptyAccounts (m.view fun _ => none) (.codeHash 1) [.storage] :=
    ⟨fun i => by simp [VmReader.closest, m, MvMemory.view, writtenAt, mistypedReader, mistypedSlot,
      VersionMap.lastBelow], by decide +kernel⟩
  simp only [mistypedReader, List.forall_mem_cons, List.not_mem_nil, false_imp_iff, implies_true,
    and_true]
  exact ⟨hbasic, hcode⟩

end CongestionControl.Pevm
