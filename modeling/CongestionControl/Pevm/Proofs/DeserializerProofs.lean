import CongestionControl.Lib.Fallible
import CongestionControl.Pevm.Deserializer

/-!
# Which transactions can be decoded

Each layer of the decoder asks something of the bytes that no earlier layer has checked. The conditions
are collected layer by layer: a batch is decoded without a panic if and only if all of its transactions
meet them.
-/

namespace CongestionControl.Pevm.Deserializer

variable {d : Decoders} {r : List UInt8} {i w : Nat} {b noSignature : List UInt8} {n : Nat}
  {sender caller : Address}

def Present (d : Decoders) (r : List UInt8) (i : Nat) : Prop := (d.itemAt r i).isSome = true

def content (d : Decoders) (r : List UInt8) (i : Nat) : List UInt8 :=
  ((d.itemAt r i).bind d.data).getD []

def number (d : Decoders) (r : List UInt8) (i : Nat) : Nat := bigEndian (content d r i)

def Fits (d : Decoders) (r : List UInt8) (w i : Nat) : Prop :=
  Present d r i ∧ (content d r i).length ≤ w

theorem field_eq_some :
    field d r i = some b ↔ Present d r i ∧ b = content d r i := by
  unfold field Present content
  cases d.itemAt r i with
  | none => simp
  | some item => simp [eq_comm]

theorem fromBytes_eq_some :
    fromBytes w b = some n ↔ b.length ≤ w ∧ n = bigEndian b := by
  unfold fromBytes fromBigEndian
  cases b with
  | nil => simp [bigEndian, Bytes.ofLe, eq_comm]
  | cons => simp [eq_comm]

theorem fromBytes_field_eq_some :
    (field d r i).bind (fromBytes w) = some n ↔ Fits d r w i ∧ n = number d r i := by
  simp only [Option.bind_eq_some_iff, field_eq_some, fromBytes_eq_some]
  constructor
  · rintro ⟨_, ⟨hpresent, rfl⟩, hlen, rfl⟩
    exact ⟨⟨hpresent, hlen⟩, rfl⟩
  · rintro ⟨⟨hpresent, hlen⟩, rfl⟩
    exact ⟨_, ⟨hpresent, rfl⟩, hlen, rfl⟩

theorem u256Field_eq_some :
    u256Field d r i = some n ↔ Fits d r 32 i ∧ n = number d r i := fromBytes_field_eq_some

theorem u64Field_eq_some :
    u64Field d r i = some n ↔ Fits d r 8 i ∧ n = number d r i := fromBytes_field_eq_some

theorem asU64_eq_some {n' : Nat} : asU64 n = some n' ↔ n < 2 ^ 64 ∧ n' = n := by
  simp [asU64, eq_comm]

def AccessItem (d : Decoders) (item : List UInt8) : Prop :=
  Present d item 0 ∧ 20 ≤ (content d item 0).length ∧ Present d item 1

theorem accessListAddress_isSome :
    (∃ a, accessListAddress b = some a) ↔ 20 ≤ b.length := by
  unfold accessListAddress copyAddress
  split_ifs with hlen hdrop
  · exact iff_of_true ⟨_, rfl⟩ hlen.ge
  · rw [List.length_drop] at hdrop
    exact iff_of_true ⟨_, rfl⟩ (by omega)
  · rw [List.length_drop] at hdrop
    exact iff_of_false nofun (by omega)

theorem parseAccessListItem_isSome {item : List UInt8} :
    (parseAccessListItem d item).isSome = true ↔ AccessItem d item := by
  constructor
  · intro h
    obtain ⟨entry, h⟩ := Option.isSome_iff_exists.mp h
    obtain ⟨b, hfield, h⟩ := Option.bind_eq_some_iff.mp h
    obtain ⟨a, haddr, h⟩ := Option.bind_eq_some_iff.mp h
    obtain ⟨storage, hstorage, -⟩ := Option.bind_eq_some_iff.mp h
    obtain ⟨hpresent, rfl⟩ := field_eq_some.mp hfield
    exact ⟨hpresent, accessListAddress_isSome.mp ⟨a, haddr⟩, Option.isSome_iff_exists.mpr ⟨storage, hstorage⟩⟩
  · rintro ⟨hpresent, hlen, hstorage⟩
    obtain ⟨a, haddr⟩ := accessListAddress_isSome.mpr hlen
    obtain ⟨storage, hstorage⟩ := Option.isSome_iff_exists.mp hstorage
    refine Option.isSome_iff_exists.mpr ⟨_, Option.bind_eq_some_iff.mpr
      ⟨_, field_eq_some.mpr ⟨hpresent, rfl⟩, Option.bind_eq_some_iff.mpr ⟨a, haddr,
        Option.bind_eq_some_iff.mpr ⟨storage, hstorage, rfl⟩⟩⟩⟩

def AccessItems (d : Decoders) (r : List UInt8) (i : Nat) : Prop :=
  ∃ list, d.itemAt r i = some list ∧ ∀ item ∈ d.iter list, AccessItem d item

theorem parseAccessList_isSome : (parseAccessList d r i).isSome = true ↔ AccessItems d r i := by
  unfold parseAccessList AccessItems
  cases d.itemAt r i with
  | none => simp
  | some list => simp [Option.isSome_mapM_iff, parseAccessListItem_isSome]

def Signature (d : Decoders) (r : List UInt8) (first : Nat) (noSignature : List UInt8) : Prop :=
  Fits d r 32 first ∧ Fits d r 32 (first + 1) ∧ Fits d r 32 (first + 2) ∧
    number d r first < 2 ^ 64 ∧
    (d.recover (number d r (first + 1)) (number d r (first + 2)) (number d r first)
      noSignature).isSome = true

theorem decodeSender_isSome {first : Nat} :
    (decodeSender d r first noSignature).isSome = true ↔ Signature d r first noSignature := by
  unfold decodeSender recoverAddress Signature
  simp only [Option.bind_eq_bind, Option.bind_eq_some_iff, u256Field_eq_some, asU64_eq_some,
    Option.isSome_iff_exists]
  constructor
  · rintro ⟨a, _, ⟨hv, rfl⟩, _, ⟨hr, rfl⟩, _, ⟨hs, rfl⟩, _, ⟨hlt, rfl⟩, hrecover⟩
    exact ⟨hv, hr, hs, hlt, a, hrecover⟩
  · rintro ⟨hv, hr, hs, hlt, a, hrecover⟩
    exact ⟨a, _, ⟨hv, rfl⟩, _, ⟨hr, rfl⟩, _, ⟨hs, rfl⟩, _, ⟨hlt, rfl⟩, hrecover⟩

theorem decodeCaller_isSome {items first : Nat} :
    (∃ a, decodeCaller d r items first noSignature = some a) ↔
      (items ≤ (d.itemCount r).getD 0 → Signature d r first noSignature) := by
  unfold decodeCaller
  split_ifs with hcount
  · rw [← Option.isSome_iff_exists, decodeSender_isSome]
    exact ⟨fun h _ => h, fun h => h hcount⟩
  · exact iff_of_true ⟨0, rfl⟩ fun h => absurd h hcount

structure LegacyWellFormed (d : Decoders) (r noSignature : List UInt8) : Prop where
  numbers : Fits d r 32 0 ∧ Fits d r 32 1 ∧ Fits d r 32 2 ∧ Fits d r 32 4
  present : Present d r 3 ∧ Present d r 5
  sender : 9 ≤ (d.itemCount r).getD 0 → Signature d r 6 noSignature
  nonce : number d r 0 < 2 ^ 64
  gasLimit : number d r 2 < 2 ^ 64

theorem toTxKind_isSome (toAddr : Option Address) :
    ∃ transactTo, toTxKind (toAddr.map .address) = some transactTo := by
  cases toAddr with
  | none => exact ⟨.create, rfl⟩
  | some a => exact ⟨.call a, rfl⟩

def legacyRequest (d : Decoders) (r : List UInt8) (sender : Address) : TransactionRequest where
  fromAddr := some sender
  toAddr := (parseToAddress (content d r 3)).map .address
  gas := some (number d r 2)
  gasPrice := some (number d r 1)
  value := some (number d r 4)
  data := some (content d r 5)
  nonce := some (number d r 0)

theorem legacyTransaction2TxEnv_isSome :
    (∃ env, legacyTransaction2TxEnv (legacyRequest d r sender) caller = some env) ↔
      number d r 2 < 2 ^ 64 ∧ number d r 0 < 2 ^ 64 := by
  obtain ⟨transactTo, hkind⟩ := toTxKind_isSome (parseToAddress (content d r 3))
  simp only [legacyTransaction2TxEnv, legacyRequest, gasAsU64, nonceAsU64, hkind,
    Option.bind_eq_bind, Option.bind_some, Option.bind_eq_some_iff, Option.map_eq_some_iff,
    asU64_eq_some]
  constructor
  · rintro ⟨env, _, ⟨hgas, -⟩, _, ⟨_, ⟨hnonce, -⟩, -⟩, -⟩
    exact ⟨hgas, hnonce⟩
  · rintro ⟨hgas, hnonce⟩
    exact ⟨_, _, ⟨hgas, rfl⟩, _, ⟨_, ⟨hnonce, rfl⟩, rfl⟩, rfl⟩

theorem decodeLegacy_eq_some {request : TransactionRequest × Address} :
    decodeLegacy d r noSignature = some request ↔
      (Fits d r 32 0 ∧ Fits d r 32 1 ∧ Fits d r 32 2 ∧ Fits d r 32 4) ∧
      (Present d r 3 ∧ Present d r 5) ∧
      ∃ sender, decodeCaller d r 9 6 noSignature = some sender ∧
        (legacyRequest d r sender, sender) = request := by
  unfold decodeLegacy
  simp only [Option.bind_eq_bind, Option.bind_eq_some_iff, field_eq_some, u256Field_eq_some,
    Option.some.injEq]
  constructor
  · rintro ⟨_, ⟨h₀, rfl⟩, _, ⟨h₁, rfl⟩, _, ⟨h₂, rfl⟩, _, ⟨h₃, rfl⟩, _, ⟨h₄, rfl⟩, _, ⟨h₅, rfl⟩,
      hsender⟩
    exact ⟨⟨h₀, h₁, h₂, h₄⟩, ⟨h₃, h₅⟩, hsender⟩
  · rintro ⟨⟨h₀, h₁, h₂, h₄⟩, ⟨h₃, h₅⟩, hsender⟩
    exact ⟨_, ⟨h₀, rfl⟩, _, ⟨h₁, rfl⟩, _, ⟨h₂, rfl⟩, _, ⟨h₃, rfl⟩, _, ⟨h₄, rfl⟩, _, ⟨h₅, rfl⟩,
      hsender⟩

theorem decodeLegacy_adapts_iff :
    (∃ request, decodeLegacy d r noSignature = some request ∧
      ∃ env, legacyTransaction2TxEnv request.1 caller = some env) ↔
      LegacyWellFormed d r noSignature := by
  constructor
  · rintro ⟨request, hdecode, henv⟩
    obtain ⟨hnumbers, hpresent, sender, hsender, rfl⟩ := decodeLegacy_eq_some.mp hdecode
    obtain ⟨hgas, hnonce⟩ := legacyTransaction2TxEnv_isSome.mp henv
    exact ⟨hnumbers, hpresent, decodeCaller_isSome.mp ⟨sender, hsender⟩, hnonce, hgas⟩
  · intro h
    obtain ⟨sender, hsender⟩ := decodeCaller_isSome.mpr h.sender
    have hdecode := decodeLegacy_eq_some.mpr ⟨h.numbers, h.present, sender, hsender, rfl⟩
    exact ⟨_, hdecode, legacyTransaction2TxEnv_isSome.mpr ⟨h.gasLimit, h.nonce⟩⟩

structure Eip1559WellFormed (d : Decoders) (r noSignature : List UInt8) : Prop where
  chainId : Fits d r 8 0
  numbers : Fits d r 32 1 ∧ Fits d r 32 2 ∧ Fits d r 32 3 ∧ Fits d r 32 4 ∧ Fits d r 32 6
  present : Present d r 5 ∧ Present d r 7
  accessList : AccessItems d r 8
  sender : 11 ≤ (d.itemCount r).getD 0 → Signature d r 9 noSignature
  nonce : number d r 1 < 2 ^ 64
  gasLimit : number d r 4 < 2 ^ 64

def eip1559Request (d : Decoders) (r : List UInt8) (accessList : List AccessListItem)
    (sender : Address) : Eip1559TransactionRequest where
  fromAddr := some sender
  chainId := some (number d r 0)
  nonce := some (number d r 1)
  maxPriorityFeePerGas := some (number d r 2)
  maxFeePerGas := some (number d r 3)
  gas := some (number d r 4)
  toAddr := (parseToAddress (content d r 5)).map .address
  value := some (number d r 6)
  data := some (content d r 7)
  accessList := accessList

theorem eip1559Transaction2TxEnv_isSome {accessList : List AccessListItem} :
    (∃ env, eip1559Transaction2TxEnv (eip1559Request d r accessList sender) caller = some env) ↔
      number d r 4 < 2 ^ 64 ∧ number d r 1 < 2 ^ 64 := by
  obtain ⟨transactTo, hkind⟩ := toTxKind_isSome (parseToAddress (content d r 5))
  simp only [eip1559Transaction2TxEnv, eip1559Request, gasAsU64, nonceAsU64, hkind,
    Option.bind_eq_bind, Option.bind_some, Option.bind_eq_some_iff, Option.map_eq_some_iff,
    asU64_eq_some]
  constructor
  · rintro ⟨env, _, ⟨_, ⟨hnonce, -⟩, -⟩, _, ⟨hgas, -⟩, -⟩
    exact ⟨hgas, hnonce⟩
  · rintro ⟨hgas, hnonce⟩
    exact ⟨_, _, ⟨_, ⟨hnonce, rfl⟩, rfl⟩, _, ⟨hgas, rfl⟩, rfl⟩

theorem decodeEip1559_eq_some {request : Eip1559TransactionRequest × Address} :
    decodeEip1559 d r noSignature = some request ↔
      Fits d r 8 0 ∧
      (Fits d r 32 1 ∧ Fits d r 32 2 ∧ Fits d r 32 3 ∧ Fits d r 32 4 ∧ Fits d r 32 6) ∧
      (Present d r 5 ∧ Present d r 7) ∧
      ∃ accessList, parseAccessList d r 8 = some accessList ∧
        ∃ sender, decodeCaller d r 11 9 noSignature = some sender ∧
          (eip1559Request d r accessList sender, sender) = request := by
  unfold decodeEip1559
  simp only [Option.bind_eq_bind, Option.bind_eq_some_iff, field_eq_some, u256Field_eq_some,
    u64Field_eq_some, Option.some.injEq]
  constructor
  · rintro ⟨_, ⟨h₀, rfl⟩, _, ⟨h₁, rfl⟩, _, ⟨h₂, rfl⟩, _, ⟨h₃, rfl⟩, _, ⟨h₄, rfl⟩, _, ⟨h₅, rfl⟩, _,
      ⟨h₆, rfl⟩, _, ⟨h₇, rfl⟩, haccess⟩
    exact ⟨h₀, ⟨h₁, h₂, h₃, h₄, h₆⟩, ⟨h₅, h₇⟩, haccess⟩
  · rintro ⟨h₀, ⟨h₁, h₂, h₃, h₄, h₆⟩, ⟨h₅, h₇⟩, haccess⟩
    exact ⟨_, ⟨h₀, rfl⟩, _, ⟨h₁, rfl⟩, _, ⟨h₂, rfl⟩, _, ⟨h₃, rfl⟩, _, ⟨h₄, rfl⟩, _, ⟨h₅, rfl⟩, _,
      ⟨h₆, rfl⟩, _, ⟨h₇, rfl⟩, haccess⟩

theorem decodeEip1559_adapts_iff :
    (∃ request, decodeEip1559 d r noSignature = some request ∧
      ∃ env, eip1559Transaction2TxEnv request.1 caller = some env) ↔
      Eip1559WellFormed d r noSignature := by
  constructor
  · rintro ⟨request, hdecode, henv⟩
    obtain ⟨hchain, hnumbers, hpresent, accessList, haccess, sender, hsender, rfl⟩ :=
      decodeEip1559_eq_some.mp hdecode
    obtain ⟨hgas, hnonce⟩ := eip1559Transaction2TxEnv_isSome.mp henv
    have haccess := parseAccessList_isSome.mp (Option.isSome_iff_exists.mpr ⟨_, haccess⟩)
    exact ⟨hchain, hnumbers, hpresent, haccess, decodeCaller_isSome.mp ⟨sender, hsender⟩, hnonce,
      hgas⟩
  · intro h
    obtain ⟨sender, hsender⟩ := decodeCaller_isSome.mpr h.sender
    obtain ⟨accessList, haccess⟩ :=
      Option.isSome_iff_exists.mp (parseAccessList_isSome.mpr h.accessList)
    have hdecode := decodeEip1559_eq_some.mpr
      ⟨h.chainId, h.numbers, h.present, accessList, haccess, sender, hsender, rfl⟩
    exact ⟨_, hdecode, eip1559Transaction2TxEnv_isSome.mpr ⟨h.gasLimit, h.nonce⟩⟩

def Strippable (d : Decoders) (bytes : List UInt8) : Prop :=
  ∃ n, d.itemCount (splitType bytes).2 = some n ∧ 3 ≤ n ∧
    ∀ i < n - 3, Present d (splitType bytes).2 i

theorem stripSignature_isSome {bytes : List UInt8} :
    (stripSignature d bytes).isSome = true ↔ Strippable d bytes := by
  unfold stripSignature Strippable
  obtain ⟨txType, rlp⟩ := splitType bytes
  dsimp only
  cases d.itemCount rlp with
  | none => simp
  | some n =>
    by_cases hn : n < 3
    · simp [hn]
    · have hle : 3 ≤ n := not_lt.mp hn
      have hmap := Option.isSome_mapM_iff (f := d.itemAt rlp) (l := List.range (n - 3))
      simp only [List.mem_range] at hmap
      simp only [Option.bind_eq_bind, Option.bind_some, if_neg hn, Option.some.injEq,
        exists_eq_left', hle, true_and, Present, ← hmap]
      cases (List.range (n - 3)).mapM (d.itemAt rlp) <;> rfl

def unsigned (d : Decoders) (bytes : List UInt8) : List UInt8 := (stripSignature d bytes).getD []

def WellFormed (d : Decoders) : List UInt8 → Prop
  | [] => True
  | b :: rest =>
    Strippable d (b :: rest) ∧
      (b = 0x02 → rest ≠ [] → Eip1559WellFormed d rest (unsigned d (b :: rest))) ∧
      (b ≠ 0x02 → 0xc0 ≤ b → LegacyWellFormed d (b :: rest) (unsigned d (b :: rest)))

def Adapts (tx : DecodedTransaction) : Prop :=
  (∃ message, tx = .unknown message) ∨ ∃ env, adaptTransaction tx = some env

theorem adapts_unknown (message : String) : Adapts (.unknown message) := .inl ⟨message, rfl⟩

theorem adapts_map_iff {α : Type} {o : Option α} {f : α → DecodedTransaction}
    (hf : ∀ a message, f a ≠ .unknown message) :
    (∃ tx, o.map f = some tx ∧ Adapts tx) ↔
      ∃ a, o = some a ∧ ∃ env, adaptTransaction (f a) = some env := by
  constructor
  · rintro ⟨tx, htx, hadapts⟩
    obtain ⟨a, ha, rfl⟩ := Option.map_eq_some_iff.mp htx
    rcases hadapts with ⟨message, hunknown⟩ | henv
    · exact absurd hunknown (hf a message)
    · exact ⟨a, ha, henv⟩
  · rintro ⟨a, ha, henv⟩
    exact ⟨f a, by rw [ha, Option.map_some], .inr henv⟩

theorem decodeHex_adapts_iff {rawHex : String} {addr : Address} :
    (∃ tx, decodeHexWithKnownAddr d rawHex addr = some tx ∧ Adapts tx) ↔
      ∃ bytes, d.fromHex (trimStartMatches rawHex.toList) = some bytes ∧ WellFormed d bytes := by
  unfold decodeHexWithKnownAddr
  cases d.fromHex (trimStartMatches rawHex.toList) with
  | none =>
    simp only [Option.bind_eq_bind, Option.bind_none, reduceCtorEq, false_and, exists_false]
  | some bytes =>
    simp only [Option.bind_eq_bind, Option.bind_some, Option.some.injEq, exists_eq_left']
    cases bytes with
    | nil => exact iff_of_true ⟨_, rfl, adapts_unknown _⟩ trivial
    | cons b rest =>
      dsimp only [WellFormed]
      rw [← stripSignature_isSome]
      unfold unsigned
      cases stripSignature d (b :: rest) with
      | none =>
        simp only [Option.bind_none, Option.isSome_none, Bool.false_eq_true, reduceCtorEq, false_and,
          exists_false]
      | some noSignature =>
        simp only [Option.bind_some, Option.isSome_some, true_and, Option.getD_some]
        by_cases htype : b = 0x02
        · subst htype
          rw [if_pos rfl]
          simp only [ne_eq, not_true_eq_false, false_implies, and_true, forall_const]
          by_cases hrest : rest = []
          · subst hrest
            exact iff_of_true ⟨_, rfl, adapts_unknown _⟩ fun h => absurd rfl h
          · have hpos := List.length_pos_of_ne_nil hrest
            have hlen : ¬ (0x02 :: rest).length < 2 := by
              rw [List.length_cons]
              omega
            rw [if_neg hlen, adapts_map_iff fun request message h => DecodedTransaction.noConfusion h]
            simp only [adaptTransaction, decodeEip1559_adapts_iff, hrest, not_false_eq_true,
              forall_const]
        · rw [if_neg htype]
          simp only [htype, ne_eq, not_false_eq_true, false_implies, true_and, forall_const]
          by_cases hlegacy : 0xc0 ≤ b
          · rw [if_pos hlegacy,
              adapts_map_iff fun request message h => DecodedTransaction.noConfusion h]
            simp only [adaptTransaction, decodeLegacy_adapts_iff, hlegacy, forall_const]
          · rw [if_neg hlegacy]
            exact iff_of_true ⟨_, rfl, adapts_unknown _⟩ fun h => absurd h hlegacy

def decodeTx (d : Decoders) (tx : String × Address) : Option TxEnv :=
  (decodeHexWithKnownAddr d tx.1 tx.2).bind adaptTransaction

section Batch

variable {tx : String × Address} {rest txs : List (String × Address)} {decoded : DecodedTransaction}

theorem decodeBatchHex_unknown {message : String}
    (h : decodeHexWithKnownAddr d tx.1 tx.2 = some (.unknown message)) :
    decodeBatchHex d (tx :: rest) = decodeBatchHex d rest := by
  rw [decodeBatchHex, h]
  rfl

theorem decodeBatchHex_known (h : decodeHexWithKnownAddr d tx.1 tx.2 = some decoded)
    (hknown : ∀ message, decoded ≠ .unknown message) :
    decodeBatchHex d (tx :: rest) = (adaptTransaction decoded).bind fun txEnv =>
      (decodeBatchHex d rest).bind fun results => some (txEnv :: results) := by
  rw [decodeBatchHex, h]
  cases decoded with
  | legacy tx caller => rfl
  | eip1559 tx caller => rfl
  | unknown message => exact absurd rfl (hknown message)

/-- A batch is decoded if and only if each of its transactions is, and then those of a known type are
kept in order. -/
theorem decodeBatchHex_eq_some {envs : List TxEnv} :
    decodeBatchHex d txs = some envs ↔
      (∀ tx ∈ txs, ∃ decoded, decodeHexWithKnownAddr d tx.1 tx.2 = some decoded ∧ Adapts decoded) ∧
        txs.filterMap (decodeTx d) = envs := by
  induction txs generalizing envs with
  | nil => simp [decodeBatchHex]
  | cons tx rest ih =>
    rw [List.forall_mem_cons]
    cases hdecode : decodeHexWithKnownAddr d tx.1 tx.2 with
    | none => simp [decodeBatchHex, hdecode]
    | some decoded =>
      simp only [Option.some.injEq, exists_eq_left']
      by_cases hunknown : ∃ message, decoded = .unknown message
      · obtain ⟨message, rfl⟩ := hunknown
        have hskip : decodeTx d tx = none := by
          rw [decodeTx, hdecode]
          rfl
        rw [decodeBatchHex_unknown hdecode, ih, List.filterMap_cons_none hskip,
          and_iff_right (adapts_unknown message)]
      · have hknown : ∀ message, decoded ≠ .unknown message :=
          fun message h => hunknown ⟨message, h⟩
        have hadapts : Adapts decoded ↔ ∃ env, adaptTransaction decoded = some env :=
          or_iff_right hunknown
        have htx : decodeTx d tx = adaptTransaction decoded := by
          rw [decodeTx, hdecode, Option.bind_some]
        rw [decodeBatchHex_known hdecode hknown, hadapts]
        cases henv : adaptTransaction decoded with
        | none => simp
        | some txEnv =>
          rw [List.filterMap_cons_some (htx.trans henv)]
          simp only [Option.bind_some, Option.bind_eq_some_iff, ih, Option.some.injEq]
          constructor
          · rintro ⟨results, ⟨hall, rfl⟩, rfl⟩
            exact ⟨⟨⟨txEnv, rfl⟩, hall⟩, rfl⟩
          · rintro ⟨⟨-, hall⟩, rfl⟩
            exact ⟨_, ⟨hall, rfl⟩, rfl⟩

end Batch

end CongestionControl.Pevm.Deserializer
