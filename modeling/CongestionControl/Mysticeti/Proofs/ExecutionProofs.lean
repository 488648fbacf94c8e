import CongestionControl.Mysticeti.Execution
import CongestionControl.Mysticeti.Proofs.TransactionAggregatorProofs
import CongestionControl.Pevm.Proofs.DeserializerProofs

/-!
# Committed blocks as input for the executor

The shared bytes of a block are not looked at before the block is committed. The block is turned into
transactions if and only if all of its shared bytes are well formed at each layer of the decoder.
-/

namespace CongestionControl.Mysticeti

open Pevm Pevm.Deserializer

variable {d : Decoders} {statements : List BaseStatement}

def sharedHex (d : Decoders) : BaseStatement → Option (String × Address)
  | .share tx => decodeShareBaseStatement d tx.data
  | _ => none

def sharedTxEnv (d : Decoders) (statement : BaseStatement) : Option Deserializer.TxEnv :=
  (sharedHex d statement).bind (decodeTx d)

def ShareWellFormed (d : Decoders) (data : List UInt8) : Prop :=
  ∃ decoded, d.deserialize data = some decoded ∧
    ∃ bytes, d.fromHex (trimStartMatches decoded.rawHex.toList) = some bytes ∧ WellFormed d bytes

theorem shareTransactions_eq_some {txs : List (String × Address)} :
    shareTransactions d statements = some txs ↔
      (∀ tx, .share tx ∈ statements → ∃ p, decodeShareBaseStatement d tx.data = some p) ∧
        statements.filterMap (sharedHex d) = txs := by
  induction statements generalizing txs with
  | nil => simp [shareTransactions]
  | cons statement statements ih =>
    have hother : (∀ tx, statement ≠ .share tx) → shareTransactions d (statement :: statements) =
        shareTransactions d statements ∧ sharedHex d statement = none := by
      intro hne
      cases statement with
      | share tx => exact absurd rfl (hne tx)
      | vote => exact ⟨rfl, rfl⟩
      | voteRange => exact ⟨rfl, rfl⟩
    by_cases hshare : ∃ tx, statement = .share tx
    · obtain ⟨tx, rfl⟩ := hshare
      simp only [shareTransactions, Option.bind_eq_bind, Option.bind_eq_some_iff, ih,
        Option.some.injEq, List.filterMap_cons, sharedHex, List.mem_cons, BaseStatement.share.injEq]
      constructor
      · rintro ⟨p, hp, _, ⟨hall, rfl⟩, rfl⟩
        rw [hp]
        refine ⟨fun tx' htx' => ?_, rfl⟩
        rcases htx' with rfl | htx'
        · exact ⟨p, hp⟩
        · exact hall tx' htx'
      · rintro ⟨hall, heq⟩
        obtain ⟨p, hp⟩ := hall tx (.inl rfl)
        rw [hp] at heq
        exact ⟨p, hp, _, ⟨fun tx' htx' => hall tx' (.inr htx'), rfl⟩, heq⟩
    · obtain ⟨hskip, hnone⟩ := hother fun tx h => hshare ⟨tx, h⟩
      rw [hskip, ih, List.filterMap_cons_none hnone]
      have hmem : ∀ tx, .share tx ∈ statement :: statements ↔ .share tx ∈ statements := by
        intro tx
        rw [List.mem_cons]
        exact or_iff_right fun h => hshare ⟨tx, h.symm⟩
      simp only [hmem]

theorem executeBlockInPevm_eq :
    executeBlockInPevm d statements = (shareTransactions d statements).bind (decodeBatchHex d) := by
  unfold executeBlockInPevm
  cases shareTransactions d statements with
  | none => rfl
  | some txs =>
    cases txs with
    | nil => rfl
    | cons tx txs => rfl

theorem shareWellFormed_iff {data : List UInt8} :
    ShareWellFormed d data ↔ ∃ p, decodeShareBaseStatement d data = some p ∧
      ∃ decoded, decodeHexWithKnownAddr d p.1 p.2 = some decoded ∧ Adapts decoded := by
  unfold ShareWellFormed decodeShareBaseStatement
  simp only [decodeHex_adapts_iff]
  cases d.deserialize data with
  | none => simp
  | some decoded => simp

/-- The block is turned into its transactions of a known type, in order, if and only if all of its
shared bytes are well formed; otherwise the program ends. -/
theorem executeBlockInPevm_returns_iff (d : Decoders) (statements : List BaseStatement) :
    executeBlockInPevm d statements = some (statements.filterMap (sharedTxEnv d)) ↔
      ∀ tx, .share tx ∈ statements → ShareWellFormed d tx.data := by
  have henvs : (statements.filterMap (sharedHex d)).filterMap (decodeTx d) =
      statements.filterMap (sharedTxEnv d) := List.filterMap_filterMap
  rw [executeBlockInPevm_eq]
  simp only [Option.bind_eq_some_iff, shareTransactions_eq_some, decodeBatchHex_eq_some,
    shareWellFormed_iff]
  constructor
  · rintro ⟨_, ⟨hshares, rfl⟩, hdecode, -⟩ tx htx
    obtain ⟨p, hp⟩ := hshares tx htx
    exact ⟨p, hp, hdecode p (List.mem_filterMap.mpr ⟨.share tx, htx, hp⟩)⟩
  · intro h
    refine ⟨_, ⟨fun tx htx => ?_, rfl⟩, fun p hp => ?_, henvs⟩
    · obtain ⟨p, hp, -⟩ := h tx htx
      exact ⟨p, hp⟩
    · obtain ⟨statement, hmem, hstatement⟩ := List.mem_filterMap.mp hp
      cases statement with
      | share tx =>
        obtain ⟨p', hp', hdecode⟩ := h tx hmem
        cases hp'.symm.trans hstatement
        exact hdecode
      | vote => cases hstatement
      | voteRange => cases hstatement

/-- A block with an empty transaction passes the checks. Its commit ends the program, if `bincode`
returns an error for no bytes. -/
theorem undecodable_share_panics : ∃ b : SignedBlock,
    b.verify TransactionAggregator.plainCrypto TransactionAggregator.fourVoters = .ok () ∧
    .share ⟨[]⟩ ∈ b.statements ∧
    ∀ d : Decoders, d.deserialize [] = none → executeBlockInPevm d b.statements = none := by
  refine ⟨TransactionAggregator.blockOf 0 1 [.share ⟨[]⟩], by decide +kernel, List.mem_cons_self, ?_⟩
  intro d hd
  simp [TransactionAggregator.blockOf, executeBlockInPevm, shareTransactions,
    decodeShareBaseStatement, hd]

end CongestionControl.Mysticeti
