import CongestionControl.Lib.Fallible
import CongestionControl.Pevm.LazyAccount

/-!
# The two evaluations of lazy updates

The forward evaluation of a history is a fold of `AccountBasic.apply`. As long as no balance saturates,
the backward walk finds the same, except for an account that storage does not have: the walk takes a net
change of zero for no change at all.
-/

namespace CongestionControl.Pevm

open Saturating VersionMap

/-! ## Updates -/

variable {entry : MemoryEntry MemoryValue} {post history : History} {prior : List ReadOrigin}
  {s : LazyScan} {storage : Option AccountBasic}

namespace MemoryEntry

def isLazy : MemoryEntry MemoryValue → Bool
  | data _ (.lazyRecipient _) | data _ (.lazySender _) => true
  | _ => false

def isBasic : MemoryEntry MemoryValue → Bool
  | data _ (.basic _) => true
  | _ => false

def isSender : MemoryEntry MemoryValue → Bool
  | data _ (.lazySender _) => true
  | _ => false

def received : MemoryEntry MemoryValue → Nat
  | data _ (.lazyRecipient addition) => addition
  | _ => 0

def sent : MemoryEntry MemoryValue → Nat
  | data _ (.lazySender subtraction) => subtraction
  | _ => 0

theorem not_isBasic_of_isLazy (h : entry.isLazy) :
    entry.isBasic = false := by
  match entry, h with
  | .data _ (.lazyRecipient _), _ => rfl
  | .data _ (.lazySender _), _ => rfl

end MemoryEntry

open MemoryEntry

def AccountBasic.apply (account : AccountBasic) : MemoryEntry MemoryValue → AccountBasic
  | .data _ (.basic info) => info
  | .data _ (.lazyRecipient addition) =>
    { account with balance := satAdd account.balance addition }
  | .data _ (.lazySender subtraction) =>
    ⟨satSub account.balance subtraction, account.nonce + 1⟩
  | _ => account

namespace History

def fold (history : History) (account : AccountBasic) : AccountBasic :=
  history.foldl (fun account p => account.apply p.2) account

def received (history : History) : Nat := (history.map (·.2.received)).sum

def sent (history : History) : Nat := (history.map (·.2.sent)).sum

def senders (history : History) : Nat := history.countP (·.2.isSender)

def Updates (history : History) : Prop := ∀ p ∈ history, p.2.isBasic ∨ p.2.isLazy

def NeverSaturates : History → AccountBasic → Prop
  | [], _ => True
  | p :: history, account =>
    account.balance + p.2.received < 2 ^ 256 ∧ (p.2.sent ≤ account.balance) ∧
      NeverSaturates history (account.apply p.2)

instance (history : History) : Decidable history.Updates :=
  inferInstanceAs (Decidable (∀ p ∈ history, _))

instance decidableNeverSaturates :
    ∀ (history : History) (account : AccountBasic), Decidable (history.NeverSaturates account)
  | [], _ => .isTrue trivial
  | p :: history, account =>
    have := decidableNeverSaturates history (account.apply p.2)
    inferInstanceAs (Decidable (_ ∧ _ ∧ _))

def net (history : History) : Int := history.received - history.sent

@[simp] theorem net_nil : net [] = 0 := rfl

theorem net_cons (p : TxIdx × MemoryEntry MemoryValue) (history : History) :
    net (p :: history) = (p.2.received - p.2.sent) + net history := by
  simp only [net, received, sent, List.map_cons, List.sum_cons]
  omega

theorem senders_cons (p : TxIdx × MemoryEntry MemoryValue) (history : History) :
    senders (p :: history) = senders history + if p.2.isSender then 1 else 0 := by
  unfold senders
  rw [List.countP_cons]

theorem NeverSaturates.append_right {pre : History} {account : AccountBasic}
    (h : NeverSaturates (pre ++ post) account) : post.NeverSaturates (fold pre account) := by
  induction pre generalizing account with
  | nil => exact h
  | cons p pre ih => exact ih h.2.2

theorem NeverSaturates.fold_lazy {account : AccountBasic} (h : history.NeverSaturates account)
    (hl : ∀ p ∈ history, p.2.isLazy) :
    ((fold history account).balance : Int) = account.balance + history.net ∧
      (fold history account).nonce = account.nonce + UInt64.ofNat history.senders := by
  induction history generalizing account with
  | nil => exact ⟨by simp [fold], by simp [fold, senders]⟩
  | cons p history ih =>
    obtain ⟨hadd, hsub, hrest⟩ := h
    obtain ⟨hbal, hnonce⟩ := ih hrest fun q hq => hl q (List.mem_cons_of_mem p hq)
    have hp := hl p List.mem_cons_self
    rw [net_cons, senders_cons]
    change ((fold history (account.apply p.2)).balance : Int) = _ ∧
      (fold history (account.apply p.2)).nonce = _
    rw [hbal, hnonce]
    obtain ⟨txIdx, entry⟩ := p
    match entry, hp with
    | .data _ (.lazyRecipient addition), _ =>
      have hval : (satAdd account.balance addition : Nat) = account.balance + addition :=
        val_satAdd hadd
      refine ⟨?_, by simp [AccountBasic.apply, isSender]⟩
      simp only [AccountBasic.apply, MemoryEntry.received, MemoryEntry.sent, hval]
      omega
    | .data _ (.lazySender subtraction), _ =>
      have hle : (subtraction : Nat) ≤ account.balance := hsub
      refine ⟨?_, ?_⟩
      · simp only [AccountBasic.apply, MemoryEntry.received, MemoryEntry.sent, val_satSub]
        omega
      · simp only [AccountBasic.apply, isSender, if_true, UInt64.ofNat_add]
        rw [UInt64.add_assoc, UInt64.add_comm 1]
        rfl

theorem NeverSaturates.net_bound {pre : History} {account : AccountBasic}
    (h : NeverSaturates (pre ++ post) account) (hl : ∀ p ∈ post, p.2.isLazy) :
    post.net < 2 ^ 256 ∧ -2 ^ 256 < post.net := by
  have hbal := (h.append_right.fold_lazy hl).1
  omega

/-- A history of updates is lazy throughout, or lazy after its last `Basic` entry. -/
theorem Updates.split (h : history.Updates) :
    (∀ p ∈ history, p.2.isLazy) ∨ ∃ pre txIdx incarnation info post,
      history = pre ++ (txIdx, .data incarnation (.basic info)) :: post ∧ ∀ p ∈ post, p.2.isLazy := by
  induction history with
  | nil => exact .inl (by simp)
  | cons p history ih =>
    rcases ih fun q hq => h q (List.mem_cons_of_mem p hq) with hl | ⟨pre, i, n, info, post, he, hl⟩
    · obtain ⟨txIdx, entry⟩ := p
      have hp := h _ List.mem_cons_self
      match entry, hp with
      | .data n (.basic info), _ => exact .inr ⟨[], txIdx, n, info, history, rfl, hl⟩
      | .data _ (.lazyRecipient _), _ => exact .inl (List.forall_mem_cons.mpr ⟨rfl, hl⟩)
      | .data _ (.lazySender _), _ => exact .inl (List.forall_mem_cons.mpr ⟨rfl, hl⟩)
    · exact .inr ⟨p :: pre, i, n, info, post, by rw [he]; rfl, hl⟩

end History

open History

/-! ## The backward walk -/

def originOf : TxIdx × MemoryEntry MemoryValue → ReadOrigin
  | (txIdx, .data txIncarnation _) => .mvMemory ⟨txIdx, txIncarnation⟩
  | (_, .estimate) => .storage

/-- The origins that a walk over the history records: the entries from the last one back to the
last `Basic` one, or else all of them and storage. -/
def recordedOrigins (history : History) : List ReadOrigin :=
  go history.reverse
where
  go : History → List ReadOrigin
    | [] => [.storage]
    | p :: rest => originOf p :: if p.2.isBasic then [] else go rest

theorem recordedOrigins_lazy {l : History} (hl : ∀ p ∈ l, p.2.isLazy) (rest : History) :
    recordedOrigins.go (l ++ rest) = l.map originOf ++ recordedOrigins.go rest := by
  induction l with
  | nil => rfl
  | cons p l ih =>
    have hp := not_isBasic_of_isLazy (hl p List.mem_cons_self)
    simp only [List.cons_append, recordedOrigins.go, hp, List.map_cons, Bool.false_eq_true, if_false]
    rw [ih fun q hq => hl q (List.mem_cons_of_mem p hq)]

namespace LazyScan

theorem run_data {txIdx : TxIdx} {incarnation : TxIncarnation} {value : MemoryValue}
    {rest : History}
    (h : prior = [] ∨ prior[s.newOrigins.length]? = some (.mvMemory ⟨txIdx, incarnation⟩)) :
    run prior ((txIdx, .data incarnation value) :: rest) s =
      (s.take (.mvMemory ⟨txIdx, incarnation⟩) value).bind fun s =>
        if s.finalAccount.isSome then .ok s else run prior rest s := by
  rw [run]
  rcases h with rfl | h
  · rfl
  · have hlt := (List.getElem?_eq_some_iff.mp h).1
    rw [if_neg (by omega), if_neg (by simp [h])]
    rfl

structure Passed (post : History) (s : LazyScan) : Prop where
  finalAccount : s.finalAccount = none
  addition : s.addition.toInt = post.net
  nonceAddition : s.nonceAddition = UInt64.ofNat post.senders
  newOrigins : s.newOrigins = post.reverse.map originOf

/-- Induction over the lazy entries from the last one: they are the first to be passed. -/
theorem run_lazy (hl : ∀ p ∈ post, p.2.isLazy)
    (hnet : ∀ l, l <:+ post → net l < 2 ^ 256 ∧ -2 ^ 256 < net l)
    (hprior : prior = [] ∨ post.reverse.map originOf <+: prior) (rest : History) :
    ∃ s, run prior (post.reverse ++ rest) .start = run prior rest s ∧ s.Passed post := by
  induction post generalizing rest with
  | nil => exact ⟨.start, rfl, rfl, rfl, rfl, rfl⟩
  | cons p post ih =>
    rw [List.reverse_cons, List.map_append] at hprior
    obtain ⟨s, hs, hpassed⟩ := ih (fun q hq => hl q (List.mem_cons_of_mem p hq))
      (fun l hsuf => hnet l (hsuf.trans (List.suffix_cons p post)))
      (hprior.imp_right fun h => (List.prefix_append _ _).trans h) (p :: rest)
    have hbound := hnet _ List.suffix_rfl
    have hnext : prior = [] ∨ prior[s.newOrigins.length]? = some (originOf p) := by
      refine hprior.imp_right fun h => ?_
      obtain ⟨tail, rfl⟩ := h
      rw [hpassed.newOrigins]
      simp
    have hp := hl p List.mem_cons_self
    rw [List.reverse_cons, List.append_assoc, List.singleton_append, hs]
    obtain ⟨txIdx, entry⟩ := p
    match entry, hp with
    | .data incarnation (.lazyRecipient addition), _ =>
      rw [run_data hnext]
      refine ⟨_, if_neg (by simp [hpassed.finalAccount]), hpassed.finalAccount, ?_, ?_, ?_⟩
      · rw [SignMagnitude.toInt_add] <;> rw [hpassed.addition] <;>
          simp only [net_cons, MemoryEntry.received, MemoryEntry.sent] at hbound ⊢ <;> omega
      · simp [senders_cons, isSender, hpassed.nonceAddition]
      · simp [hpassed.newOrigins, originOf]
    | .data incarnation (.lazySender subtraction), _ =>
      rw [run_data hnext]
      refine ⟨_, if_neg (by simp [hpassed.finalAccount]), hpassed.finalAccount, ?_, ?_, ?_⟩
      · rw [SignMagnitude.toInt_sub] <;> rw [hpassed.addition] <;>
          simp only [net_cons, MemoryEntry.received, MemoryEntry.sent] at hbound ⊢ <;> omega
      · simp [senders_cons, isSender, hpassed.nonceAddition]
      · simp [hpassed.newOrigins, originOf]

def account (s : LazyScan) : Option AccountBasic :=
  s.finalAccount.map fun a => ⟨s.addition.applyTo a.balance, a.nonce + s.nonceAddition⟩

/-- Applied to the account in front of the entries that it has passed, the walk gives the fold. -/
theorem Passed.apply_eq_fold (h : s.Passed post) (hl : ∀ p ∈ post, p.2.isLazy) {a : AccountBasic}
    (hns : post.NeverSaturates a) :
    (⟨s.addition.applyTo a.balance, a.nonce + s.nonceAddition⟩ : AccountBasic) = post.fold a := by
  obtain ⟨hbal, hnonce⟩ := hns.fold_lazy hl
  have happly : (s.addition.applyTo a.balance : Int) = a.balance + post.net := by
    rw [SignMagnitude.val_applyTo, h.addition] <;> rw [h.addition] <;> push_cast <;> omega
  have hb : s.addition.applyTo a.balance = (post.fold a).balance := by
    refine Fin.ext ?_
    have := happly.trans hbal.symm
    exact_mod_cast this
  rw [hb, h.nonceAddition, ← hnonce]

theorem readStorage_eq (hnone : s.finalAccount = none)
    (hprior : prior = [] ∨ prior = s.newOrigins ++ [.storage]) (storage : Option AccountBasic) :
    ∃ s', s.readStorage prior (.ok storage) = .ok s' ∧ s'.addition = s.addition ∧
      s'.nonceAddition = s.nonceAddition ∧
      (if prior.isEmpty then s'.newOrigins else prior) = s.newOrigins ++ [.storage] ∧
      s'.finalAccount = storage.or (if s.addition.magnitude > 0 then some .default else none) := by
  have hcheck : ∃ newOrigins, storageOrigins prior s.newOrigins = .ok newOrigins ∧
      (if prior.isEmpty then newOrigins else prior) = s.newOrigins ++ [.storage] := by
    rcases hprior with rfl | rfl
    · exact ⟨_, rfl, rfl⟩
    · exact ⟨s.newOrigins, by simp [storageOrigins], by simp⟩
  obtain ⟨newOrigins, hnew, heq⟩ := hcheck
  have hrun : ∀ account, s.storageAccount (.ok storage) = .ok account →
      s.readStorage prior (.ok storage) =
        .ok { s with finalAccount := account, newOrigins := newOrigins } := by
    intro account ha
    simp only [readStorage, hnone, hnew, ha]
    rfl
  cases storage with
  | some a => exact ⟨_, hrun (some a) rfl, rfl, rfl, heq, rfl⟩
  | none => exact ⟨_, hrun _ rfl, rfl, rfl, heq, rfl⟩

end LazyScan

/-! ## The read -/

/-- The account is absent from storage, nothing writes it as a whole, and it has received as much as
it has sent. -/
def NetZero (storage : Option AccountBasic) (history : History) : Prop :=
  storage = none ∧ (∀ p ∈ history, p.2.isBasic = false) ∧ history.received = history.sent

instance (storage : Option AccountBasic) (history : History) : Decidable (NetZero storage history) :=
  inferInstanceAs (Decidable (_ ∧ _ ∧ _))

theorem evaluationStart_lazy (hl : ∀ p ∈ history, p.2.isLazy) :
    evaluationStart (.ok storage) history = storage.getD .default := by
  have hstorage : evaluationStart (.ok storage) [] = storage.getD .default := by
    cases storage <;> rfl
  cases history with
  | nil => exact hstorage
  | cons p history =>
    have hp := hl p List.mem_cons_self
    obtain ⟨txIdx, entry⟩ := p
    match entry, hp with
    | .data _ (.lazyRecipient _), _ => exact hstorage
    | .data _ (.lazySender _), _ => exact hstorage

theorem fold_append (pre post : History) (a : AccountBasic) :
    fold (pre ++ post) a = post.fold (fold pre a) :=
  List.foldl_append

theorem NetZero.fold_eq (h : NetZero storage history) (hupd : history.Updates)
    (hns : history.NeverSaturates (evaluationStart (.ok storage) history)) :
    history.fold (evaluationStart (.ok storage) history) =
      ⟨0, UInt64.ofNat history.senders⟩ := by
  obtain ⟨rfl, hbasic, hsum⟩ := h
  have hl : ∀ p ∈ history, p.2.isLazy :=
    fun p hp => (hupd p hp).resolve_left (by simp [hbasic p hp])
  rw [evaluationStart_lazy hl] at hns ⊢
  obtain ⟨hbal, hnonce⟩ := hns.fold_lazy hl
  have hbal0 : (history.fold .default).balance = 0 := by
    refine Fin.ext ?_
    rw [net, hsum, sub_self] at hbal
    exact_mod_cast hbal
  rw [← hbal0, ← UInt64.zero_add (UInt64.ofNat _)]
  exact congrArg (AccountBasic.mk _) hnonce

theorem walk_eq (hupd : history.Updates)
    (hns : history.NeverSaturates (evaluationStart (.ok storage) history))
    (hprior : prior = [] ∨ prior = recordedOrigins history) :
    ∃ s s', LazyScan.run prior history.reverse .start = .ok s ∧
      s.readStorage prior (.ok storage) = .ok s' ∧
      (if prior.isEmpty then s'.newOrigins else prior) = recordedOrigins history ∧
      s'.account = if NetZero storage history then none
        else some (history.fold (evaluationStart (.ok storage) history)) := by
  rcases hupd.split with hl | ⟨pre, txIdx, incarnation, info, post, rfl, hl⟩
  · have hrec : recordedOrigins history = history.reverse.map originOf ++ [.storage] := by
      have := recordedOrigins_lazy
        (fun p hp => hl p (List.mem_reverse.mp hp)) []
      rwa [List.append_nil] at this
    rw [hrec] at hprior ⊢
    obtain ⟨s, hs, hpassed⟩ := LazyScan.run_lazy hl
      (fun l hsuf => by
        obtain ⟨pre, rfl⟩ := hsuf
        exact hns.net_bound fun p hp => hl p (List.mem_append_right _ hp))
      (hprior.imp_right fun h => h ▸ List.prefix_append _ _) []
    rw [List.append_nil] at hs
    rw [← hpassed.newOrigins] at hprior ⊢
    obtain ⟨s', hs', hadd, hnonce, horigins, hfinal⟩ :=
      LazyScan.readStorage_eq hpassed.finalAccount hprior storage
    refine ⟨s, s', hs, hs', horigins, ?_⟩
    rw [evaluationStart_lazy hl] at hns ⊢
    unfold LazyScan.account
    rw [hfinal, hadd, hnonce]
    cases storage with
    | some a =>
      have hnot : ¬ NetZero (some a) history := fun h => nomatch h.1
      exact congrArg some (hpassed.apply_eq_fold hl hns)
    | none =>
      have hzero : NetZero none history ↔ ¬ s.addition.magnitude > 0 := by
        have hmag := SignMagnitude.magnitude_eq_zero (d := s.addition)
        rw [hpassed.addition, net] at hmag
        have hpos : s.addition.magnitude > 0 ↔ (s.addition.magnitude : Nat) ≠ 0 :=
          Nat.pos_iff_ne_zero
        have hbasic : ∀ p ∈ history, p.2.isBasic = false :=
          fun p hp => not_isBasic_of_isLazy (hl p hp)
        constructor
        · rintro ⟨-, -, he⟩
          omega
        · intro he
          exact ⟨rfl, hbasic, by omega⟩
      by_cases hm : s.addition.magnitude > 0
      · have hnot : ¬ NetZero none history := fun h => hzero.mp h hm
        rw [if_neg hnot, if_pos hm]
        exact congrArg some (hpassed.apply_eq_fold hl hns)
      · rw [if_pos (hzero.mpr hm), if_neg hm]
        rfl
  · have hns' := hns.append_right
    have hrec : recordedOrigins (pre ++ (txIdx, .data incarnation (.basic info)) :: post) =
        post.reverse.map originOf ++ [.mvMemory ⟨txIdx, incarnation⟩] := by
      rw [recordedOrigins, List.reverse_append, List.reverse_cons, List.append_assoc,
        recordedOrigins_lazy fun p hp => hl p (List.mem_reverse.mp hp)]
      rfl
    rw [hrec] at hprior ⊢
    obtain ⟨s, hs, hpassed⟩ := LazyScan.run_lazy hl
      (fun l hsuf => by
        obtain ⟨mid, rfl⟩ := hsuf
        exact hns'.2.2.net_bound fun p hp => hl p (List.mem_append_right _ hp))
      (hprior.imp_right fun h => h ▸ List.prefix_append _ _)
      ((txIdx, .data incarnation (.basic info)) :: pre.reverse)
    rw [← hpassed.newOrigins] at hprior ⊢
    rw [LazyScan.run_data (hprior.imp_right fun h => by simp [h])] at hs
    rw [List.reverse_append, List.reverse_cons, List.append_assoc, List.singleton_append, hs]
    refine ⟨_, _, rfl, rfl, ?_, ?_⟩
    · rcases hprior with rfl | rfl
      · rfl
      · simp
    · have hnot : ¬ NetZero storage (pre ++ (txIdx, .data incarnation (.basic info)) :: post) := by
        rintro ⟨-, hb, -⟩
        have := hb (txIdx, .data incarnation (.basic info)) (by simp)
        simp [isBasic] at this
      rw [if_neg hnot, fold_append]
      exact congrArg some (hpassed.apply_eq_fold hl hns'.2.2)

/-- A read that evaluates the account: it is not answered with the mock for lazy transactions, it is
the first read of the location or finds what the first one found, and if the account is the sender
then the transaction has the next nonce. -/
structure VmDb.Evaluates {L : Type} (db : VmDb L) (location : L) (written : Versions MemoryValue)
    (account : AccountBasic) : Prop where
  explicit : db.isLazy → location ≠ db.fromHash ∧ some location ≠ db.toHash
  prior : db.readOrigins = [] ∨ db.readOrigins = recordedOrigins (entriesBelow written db.txIdx)
  nonce : location = db.fromHash → ∀ n, db.txNonce = some n → n = account.nonce

section Agreement

variable {L : Type} [DecidableEq L] {written : Versions MemoryValue}

theorem VmDb.finish_eq (db : VmDb L) (location : L)
    (hnonce : location = db.fromHash → ∀ n, db.txNonce = some n →
      ∀ account, s.account = some account → n = account.nonce) :
    db.finish location s =
      .ok (s.account, if db.readOrigins.isEmpty then s.newOrigins else db.readOrigins) := by
  unfold finish LazyScan.account
  cases hfinal : s.finalAccount with
  | none => rfl
  | some a =>
    have hok : ¬ (location = db.fromHash ∧ db.txNonce.any (· ≠ a.nonce + s.nonceAddition)) := by
      rintro ⟨hfrom, hany⟩
      cases hn : db.txNonce with
      | none => simp [hn] at hany
      | some n =>
        have := hnonce hfrom n hn _ (by rw [LazyScan.account, hfinal]; rfl)
        simp [hn, this] at hany
    dsimp only
    rw [if_neg hok]
    rfl

theorem VmDb.basic_eq {db : VmDb L} {location : L}
    (hhistory : entriesBelow written db.txIdx = history) (hupd : history.Updates)
    (hns : history.NeverSaturates (evaluationStart (.ok storage) history))
    (hdb : db.Evaluates location written (history.fold (evaluationStart (.ok storage) history))) :
    db.basic (.ok storage) (some written) location =
      .ok (if NetZero storage history then none
        else some (history.fold (evaluationStart (.ok storage) history)),
        recordedOrigins history) := by
  subst hhistory
  obtain ⟨s, s', hs, hs', horigins, haccount⟩ := walk_eq hupd hns hdb.prior
  have hmock : ¬ (db.isLazy ∧ location = db.fromHash) := fun h => (hdb.explicit h.1).1 h.2
  have hmock' : ¬ (db.isLazy ∧ some location = db.toHash) := fun h => (hdb.explicit h.1).2 h.2
  have hfinish := db.finish_eq location (by
    intro hfrom n hn account ha
    rw [hdb.nonce hfrom n hn]
    split at haccount
    · rw [haccount] at ha
      cases ha
    · rw [haccount] at ha
      rw [Option.some.inj ha])
  rw [basic, if_neg hmock, if_neg hmock']
  change (do
    let s ← LazyScan.run db.readOrigins (entriesBelow written db.txIdx).reverse .start
    let s ← s.readStorage db.readOrigins (.ok storage)
    db.finish location s) = _
  rw [hs]
  change (do
    let s ← s.readStorage db.readOrigins (.ok storage)
    db.finish location s) = _
  rw [hs']
  change db.finish location s' = _
  rw [hfinish, haccount, horigins]

variable {executor : Executor} {address : L} {txs : List (TxEnv L)} {emptyIsNone : Bool}

omit [DecidableEq L] in
theorem evaluateEntry_eq_apply {tx : TxEnv L} {a a' : AccountBasic}
    (h : evaluateEntry executor tx a entry = .ok a') :
    a' = a.apply entry := by
  have hother : otherEntry executor a = .ok a' → a' = a := by
    cases executor with
    | pevm => intro he; cases he
    | graphPevm => intro he; exact (Except.ok.inj he).symm
  cases entry with
  | estimate => exact hother h
  | data incarnation value =>
    cases value with
    | lazySender subtraction =>
      rw [evaluateEntry] at h
      split at h
      · cases h
      · exact (Except.ok.inj h).symm
    | basic | lazyRecipient => exact (Except.ok.inj h).symm
    | codeHash | storage | selfDestructed => exact hother h

theorem evaluateStep_account {e e' : Evaluation} {p : TxIdx × MemoryEntry MemoryValue}
    (h : evaluateStep executor address txs emptyIsNone e p = .ok e') :
    e'.account = e.account.apply p.2 := by
  obtain ⟨tx, -, h⟩ := Except.bind_eq_ok_iff.mp h
  obtain ⟨a, ha, h⟩ := Except.bind_eq_ok_iff.mp h
  obtain ⟨-, -, h⟩ := Except.bind_eq_ok_iff.mp h
  cases h
  exact evaluateEntry_eq_apply ha

/-- The evaluation at the end of the block is the fold of the history. -/
theorem evaluateLazyAccount_account {storage : Except String (Option AccountBasic)} {e : Evaluation}
    (h : evaluateLazyAccount executor address txs emptyIsNone storage written = .ok e) :
    e.account = fold (entriesBelow written txs.length)
      (evaluationStart storage (entriesBelow written txs.length)) := by
  unfold evaluateLazyAccount at h
  dsimp only at h
  have hstep : ∀ (history : History) (e₀ e : Evaluation),
      history.foldlM (evaluateStep executor address txs emptyIsNone) e₀ = .ok e →
      e.account = history.fold e₀.account := by
    intro history
    induction history with
    | nil =>
      intro e₀ e h
      cases h
      rfl
    | cons p history ih =>
      intro e₀ e h
      obtain ⟨e₁, hp, h⟩ := Except.bind_eq_ok_iff.mp h
      rw [ih e₁ e h, evaluateStep_account hp]
      rfl
  exact hstep _ _ _ h

/-- A read agrees with the account that the evaluation leaves: it returns it, or it returns nothing
and the account was absent and is empty. -/
def Agrees (storage read : Option AccountBasic) (final : AccountBasic) : Prop :=
  read = some final ∨ read = none ∧ storage = none ∧ final = ⟨0, 0⟩

/-- A read above the history of an account agrees with the evaluation at the end of the block,
unless the account is absent from storage, has sent transactions, and has received as much as it
has sent. -/
theorem lazyRead_agrees_iff {storage : Option AccountBasic} {written : Versions MemoryValue}
    {e : Evaluation} (hblock : ∀ i, written i ≠ none → i < txs.length)
    (hupd : Updates (entriesBelow written txs.length))
    (hns : NeverSaturates (entriesBelow written txs.length)
      (evaluationStart (.ok storage) (entriesBelow written txs.length)))
    (heval : evaluateLazyAccount executor address txs emptyIsNone (.ok storage) written = .ok e)
    {db : VmDb L} (habove : ∀ i, written i ≠ none → i < db.txIdx)
    (hdb : db.Evaluates address written e.account) :
    (∃ read origins, db.basic (.ok storage) (some written) address = .ok (read, origins) ∧
      Agrees storage read e.account) ↔
    ¬ (NetZero storage (entriesBelow written txs.length) ∧
      UInt64.ofNat (senders (entriesBelow written txs.length)) ≠ 0) := by
  have hsame : entriesBelow written db.txIdx = entriesBelow written txs.length := by
    have hnone : ∀ j, min db.txIdx txs.length ≤ j → written j = none := by
      intro j hj
      by_contra hw
      exact Nat.not_lt.mpr hj (Nat.lt_min.mpr ⟨habove j hw, hblock j hw⟩)
    rw [entriesBelow_eq_of_le (Nat.min_le_left _ _) hnone,
      entriesBelow_eq_of_le (Nat.min_le_right db.txIdx txs.length) hnone]
  have hfold := evaluateLazyAccount_account heval
  rw [hfold] at hdb ⊢
  rw [VmDb.basic_eq hsame hupd hns hdb]
  generalize entriesBelow written txs.length = history at *
  have hread : ∀ (r : Option AccountBasic) (o : List ReadOrigin) (a : AccountBasic),
      (∃ read origins, (.ok (r, o) : Except BasicReadError _) = .ok (read, origins) ∧
        Agrees storage read a) ↔ Agrees storage r a := by
    simp
  rw [hread, not_and_not_right]
  by_cases hz : NetZero storage history
  · rw [if_pos hz, hz.fold_eq hupd hns]
    constructor
    · rintro (h | ⟨-, -, h⟩) -
      · cases h
      · exact congrArg AccountBasic.nonce h
    · intro h
      exact .inr ⟨rfl, hz.1, by rw [h hz]⟩
  · rw [if_neg hz]
    exact iff_of_true (.inl rfl) fun h => absurd h hz

end Agreement

/-! ## An absent account that spends all it has received -/

def spendAllTxs : List (TxEnv Nat) :=
  [⟨0, some 0, 21000, 0, 5, none, 0⟩, ⟨1, some 0, 21000, 0, 5, none, 0⟩,
    ⟨2, some 0, 21000, 0, 0, none, 0⟩]

def spendAll : Versions MemoryValue
  | 0 => some (.data 0 (.lazyRecipient 5))
  | 1 => some (.data 0 (.lazySender 5))
  | _ => none

def thirdReader : VmDb Nat := ⟨2, some 0, false, 2, some 3, []⟩

theorem thirdReader_evaluates (written : Versions MemoryValue) (account : AccountBasic) :
    thirdReader.Evaluates 1 written account :=
  ⟨by decide, .inl rfl, fun h => absurd h (by decide)⟩

/-- The evaluation at the end of the block leaves the account with nonce 1, but the third transaction
reads no account. -/
theorem spendAll_read_disagrees :
    Updates (entriesBelow spendAll 3) ∧ NeverSaturates (entriesBelow spendAll 3) ⟨0, 0⟩ ∧
    evaluateLazyAccount .pevm 1 spendAllTxs true (.ok none) spendAll =
      .ok ⟨⟨0, 1⟩, [(0, some ⟨5, 0⟩), (1, some ⟨0, 1⟩)]⟩ ∧
    evaluateLazyAccount .graphPevm 1 spendAllTxs true (.ok none) spendAll =
      .ok ⟨⟨0, 1⟩, [(0, some ⟨5, 0⟩), (1, some ⟨0, 1⟩)]⟩ ∧
    thirdReader.basic (.ok none) (some spendAll) 1 =
      .ok (none, [.mvMemory ⟨1, 0⟩, .mvMemory ⟨0, 0⟩, .storage]) := by
  decide +kernel

theorem spendAll_eq_none {i : TxIdx} (h : spendAll i ≠ none) : i < 2 := by
  match i, h with
  | 0, _ => decide
  | 1, _ => decide

/-- If storage has the account, the third transaction reads what the evaluation leaves. -/
theorem spendAll_present_read_agrees :
    ∃ read origins, thirdReader.basic (.ok (some ⟨10, 0⟩)) (some spendAll) 1 = .ok (read, origins) ∧
      Agrees (some ⟨10, 0⟩) read ⟨10, 1⟩ := by
  have heval : evaluateLazyAccount .pevm 1 spendAllTxs true (.ok (some ⟨10, 0⟩)) spendAll =
      .ok ⟨⟨10, 1⟩, [(0, some ⟨15, 0⟩), (1, some ⟨10, 1⟩)]⟩ := by
    decide +kernel
  refine (lazyRead_agrees_iff (fun i h => (spendAll_eq_none h).trans (by decide)) (by decide +kernel)
    (by decide +kernel) heval (fun i h => spendAll_eq_none h)
    (thirdReader_evaluates spendAll ⟨10, 1⟩)).mpr ?_
  decide +kernel

end CongestionControl.Pevm
