import CongestionControl.Pevm.Serializer
import CongestionControl.Pevm.Proofs.DeserializerProofs

/-!
# Transactions are read as they were written

Over decoders that read what the libraries write, the items of a request come back one by one. The bytes
that are compared with a signature are the signed ones only if the wallet did not fill in the chain id.
-/

namespace CongestionControl.Pevm.Deserializer

structure Decoders.Canonical (d : Decoders) : Prop where
  fromHex : ∀ bytes, d.fromHex (Hex.encode bytes) = some bytes
  itemCount : ∀ {raws}, Rlp.IsPayload raws → d.itemCount (Rlp.list raws) = some raws.length
  itemAt : ∀ {raws}, Rlp.IsPayload raws → ∀ i, d.itemAt (Rlp.list raws) i = raws[i]?
  iter : ∀ {raws}, Rlp.IsPayload raws → d.iter (Rlp.list raws) = raws
  data : ∀ {b}, b.length < 256 ^ 8 → d.data (Rlp.str b) = some b
  newList : ∀ raws, d.newList raws = Rlp.list raws

def Decoders.reading (deserialize : List UInt8 → Option TransactionWithHint)
    (recover : Nat → Nat → Nat → List UInt8 → Option Address) : Decoders where
  deserialize := deserialize
  fromHex := Hex.decode
  itemCount raw := (Rlp.items raw).map List.length
  itemAt raw i := (Rlp.items raw).bind (·[i]?)
  data := Rlp.payload
  iter raw := (Rlp.items raw).getD []
  newList := Rlp.list
  recover := recover

theorem Decoders.reading_canonical {deserialize : List UInt8 → Option TransactionWithHint}
    {recover : Nat → Nat → Nat → List UInt8 → Option Address} :
    (Decoders.reading deserialize recover).Canonical where
  fromHex := Hex.decode_encode
  itemCount h := by
    show (Rlp.items _).map _ = _
    rw [Rlp.items_list h, Option.map_some]
  itemAt h i := by
    show (Rlp.items _).bind _ = _
    rw [Rlp.items_list h, Option.bind_some]
  iter h := by
    show (Rlp.items _).getD _ = _
    rw [Rlp.items_list h, Option.getD_some]
  data hb := Rlp.payload_str hb
  newList _ := rfl

end CongestionControl.Pevm.Deserializer

namespace CongestionControl.Pevm.Serializer

open Deserializer

variable {d : Decoders} {raws : List (List UInt8)} {i w : Nat} {o : Option Nat}
  {nameBytes : String → List UInt8} {tx : Eip1559TransactionRequest} {n : Nat}

/-! ## What is written are items -/

theorem isItem_rlpOpt {α : Type} {encode : α → List UInt8} (h : ∀ a, Rlp.IsItem (encode a))
    (o : Option α) : Rlp.IsItem (rlpOpt encode o) := by
  cases o with
  | none => exact .str []
  | some a => exact h a

theorem isItem_uint (n : Nat) : Rlp.IsItem (uint w n) := .str _

theorem isItem_storageKeys (keys : List B256) : ∀ raw ∈ keys.map storageKeyItem, Rlp.IsItem raw := by
  intro raw hraw
  obtain ⟨k, -, rfl⟩ := List.mem_map.mp hraw
  exact .str _

theorem isItem_accessEntry (item : AccessListItem) :
    ∀ raw ∈ [addressItem item.address, Rlp.list (item.storageKeys.map storageKeyItem)],
      Rlp.IsItem raw := by
  simp only [List.forall_mem_cons]
  exact ⟨.str _, .list (isItem_storageKeys _), nofun⟩

theorem isItem_accessList (accessList : List AccessListItem) :
    ∀ raw ∈ accessList.map accessListItem, Rlp.IsItem raw := by
  intro raw hraw
  obtain ⟨item, -, rfl⟩ := List.mem_map.mp hraw
  exact .list (isItem_accessEntry item)

section Base

variable {nameBytes : String → List UInt8}

theorem isItem_recipient (a : NameOrAddress) : Rlp.IsItem (recipient nameBytes a) := by
  cases a with
  | name name => exact .str (nameBytes name)
  | address a => exact .str (Bytes.toBe 20 a)

theorem isItem_legacyBase (tx : TransactionRequest) :
    ∀ raw ∈ legacyBase nameBytes tx, Rlp.IsItem raw := by
  simp only [legacyBase, List.forall_mem_cons]
  exact ⟨isItem_rlpOpt isItem_uint _, isItem_rlpOpt isItem_uint _, isItem_rlpOpt isItem_uint _,
    isItem_rlpOpt isItem_recipient _, isItem_rlpOpt isItem_uint _, isItem_rlpOpt .str _, nofun⟩

theorem isItem_eip1559Base (tx : Eip1559TransactionRequest) :
    ∀ raw ∈ eip1559Base nameBytes tx, Rlp.IsItem raw := by
  simp only [eip1559Base, List.forall_mem_cons]
  exact ⟨isItem_rlpOpt isItem_uint _, isItem_rlpOpt isItem_uint _, isItem_rlpOpt isItem_uint _,
    isItem_rlpOpt isItem_uint _, isItem_rlpOpt isItem_uint _, isItem_rlpOpt isItem_recipient _,
    isItem_rlpOpt isItem_uint _, isItem_rlpOpt .str _, .list (isItem_accessList _), nofun⟩

end Base

/-! ## Reading the items -/

theorem addressOf_toBe (a : Address) : addressOf (Bytes.toBe 20 a) = a := by
  have hval : bigEndian (Bytes.toBe 20 a) = a % 256 ^ 20 := Bytes.ofBe_toBe 20 a
  have hlt : a.val < 256 ^ 20 := lt_of_lt_of_eq a.isLt (by norm_num)
  rw [addressOf, hval, Nat.mod_eq_of_lt hlt]
  exact Fin.ofNat_val_eq_self a

theorem keyOf_toBe (k : B256) : Fin.ofNat (2 ^ 256) (bigEndian (Bytes.toBe 32 k)) = k := by
  have hval : bigEndian (Bytes.toBe 32 k) = k % 256 ^ 32 := Bytes.ofBe_toBe 32 k
  have hlt : k.val < 256 ^ 32 := lt_of_lt_of_eq k.isLt (by norm_num)
  rw [hval, Nat.mod_eq_of_lt hlt]
  exact Fin.ofNat_val_eq_self k

section Items

variable (hd : d.Canonical) (h : Rlp.IsPayload raws)
include hd h

theorem present_list {raw : List UInt8} (hi : raws[i]? = some raw) : Present d (Rlp.list raws) i := by
  rw [Present, hd.itemAt h, hi, Option.isSome_some]

theorem content_list {b : List UInt8} (hi : raws[i]? = some (Rlp.str b)) :
    content d (Rlp.list raws) i = b := by
  have hb := h.length_lt (List.mem_of_getElem? hi)
  rw [content, hd.itemAt h, hi, Option.bind_some, hd.data hb, Option.getD_some]

theorem fits_list (hi : raws[i]? = some (rlpOpt (uint w) o)) :
    Fits d (Rlp.list raws) w i := by
  refine ⟨present_list hd h hi, ?_⟩
  cases o with
  | none =>
    rw [content_list hd h hi]
    exact Nat.zero_le w
  | some n =>
    rw [content_list hd h hi]
    exact Bytes.length_minBe_le w n

theorem number_list (hi : raws[i]? = some (rlpOpt (uint w) o)) (ho : ∀ n ∈ o, n < 256 ^ w) :
    number d (Rlp.list raws) i = o.getD 0 := by
  cases o with
  | none =>
    rw [number, content_list hd h hi]
    rfl
  | some n =>
    rw [number, content_list hd h hi]
    exact Bytes.ofBe_minBe (ho n rfl)

theorem data_list (data : Option (List UInt8)) (hi : raws[i]? = some (rlpOpt Rlp.str data)) :
    content d (Rlp.list raws) i = data.getD [] := by
  cases data <;> exact content_list hd h hi

theorem recipient_list (kind : TransactTo)
    (hi : raws[i]? = some (rlpOpt (recipient nameBytes) (toRecipient kind))) :
    (parseToAddress (content d (Rlp.list raws) i)).map .address = toRecipient kind := by
  cases kind with
  | create =>
    rw [content_list hd h hi]
    rfl
  | call a =>
    have hi : raws[i]? = some (Rlp.str (Bytes.toBe 20 a)) := hi
    have hlen := Bytes.length_toBe 20 a
    have hempty : ¬ (Bytes.toBe 20 a).isEmpty = true := by
      rw [List.isEmpty_iff_length_eq_zero]
      exact Nat.succ_ne_zero 19
    rw [content_list hd h hi, parseToAddress, addressOf_toBe]
    rfl

end Items

section AccessList

variable (hd : d.Canonical)
include hd

theorem storageKeys_list {keys : List B256} (h : Rlp.IsPayload (keys.map storageKeyItem)) :
    storageKeys d (Rlp.list (keys.map storageKeyItem)) = keys := by
  rw [storageKeys, hd.iter h, List.filterMap_map]
  have hkey : ∀ k ∈ keys, (fun raw =>
      let kb := (d.data raw).getD []
      if kb.length ≤ 32 then some (Fin.ofNat _ (bigEndian kb)) else none) (storageKeyItem k) =
        some k := by
    intro k hk
    have hdata : d.data (storageKeyItem k) = some (Bytes.toBe 32 k) :=
      hd.data (h.length_lt (List.mem_map_of_mem hk))
    dsimp only
    rw [hdata, Option.getD_some, if_pos (Bytes.length_toBe 32 k).le, keyOf_toBe]
  exact (List.filterMap_congr hkey).trans List.filterMap_some

theorem parseAccessListItem_list {item : AccessListItem}
    (h : (accessListItem item).length < 256 ^ 8) :
    parseAccessListItem d (accessListItem item) = some item := by
  have hentry := Rlp.IsPayload.of_length (isItem_accessEntry item) h
  have hkeys := hentry.of_mem (List.mem_cons_of_mem _ List.mem_cons_self)
    (isItem_storageKeys item.storageKeys)
  have haddr : field d (accessListItem item) 0 = some (Bytes.toBe 20 item.address) :=
    field_eq_some.mpr ⟨present_list hd hentry rfl, (content_list hd hentry rfl).symm⟩
  have hstorage := hd.itemAt hentry 1
  have hlen : (Bytes.toBe 20 item.address).length = 20 := Bytes.length_toBe _ _
  unfold parseAccessListItem
  rw [haddr]
  simp only [Option.bind_eq_bind, Option.bind_some, accessListAddress, if_pos hlen, copyAddress,
    addressOf_toBe]
  rw [accessListItem, hstorage]
  simp only [List.getElem?_cons_succ, List.getElem?_cons_zero, Option.bind_some,
    storageKeys_list hd hkeys]

theorem parseAccessList_list (h : Rlp.IsPayload raws) {accessList : List AccessListItem}
    (hi : raws[i]? = some (Rlp.list (accessList.map accessListItem))) :
    parseAccessList d (Rlp.list raws) i = some accessList := by
  have haccess := h.of_mem (List.mem_of_getElem? hi) (isItem_accessList accessList)
  unfold parseAccessList
  rw [hd.itemAt h, hi, Option.bind_eq_bind, Option.bind_some, hd.iter haccess]
  apply Option.mapM_eq_some_of_forall₂
  refine List.forall₂_map_left_iff.mpr (List.forall₂_same.mpr fun item hitem => ?_)
  have hlen := Rlp.length_le_of_mem (List.mem_map_of_mem (f := accessListItem) hitem)
  exact parseAccessListItem_list hd (hlen.trans_lt haccess.short)

end AccessList

/-! ## Text and signatures -/

theorem trimStartMatches_of_ne_x {cs : List Char} (h : ∀ c ∈ cs, c ≠ 'x') :
    trimStartMatches cs = cs := by
  unfold trimStartMatches
  split
  · exact absurd rfl (h 'x' (List.mem_cons_of_mem _ List.mem_cons_self))
  · rfl

theorem not_short_eip1559 (h : Rlp.IsPayload raws) : ¬ (0x02 :: Rlp.list raws).length < 2 := by
  have hpos := (Rlp.IsItem.list h.isItem).length_pos
  rw [List.length_cons]
  omega

section Strip

variable (hd : d.Canonical)
include hd

theorem fromHex_toText (bytes : List UInt8) :
    d.fromHex (trimStartMatches (toText bytes).toList) = some bytes := by
  rw [toText, String.toList_ofList, trimStartMatches,
    trimStartMatches_of_ne_x fun c hc => Hex.encode_ne_x hc]
  exact hd.fromHex bytes

section

variable (h : Rlp.IsPayload raws)

include h

section

variable (hlen : 3 ≤ raws.length)

include hlen

theorem stripSignature_list {bytes : List UInt8} (txType : Option UInt8)
    (hsplit : splitType bytes = (txType, Rlp.list raws)) :
    stripSignature d bytes =
      some (txType.toList ++ Rlp.list (raws.take (raws.length - 3))) := by
  have hitems : (List.range (raws.length - 3)).mapM (d.itemAt (Rlp.list raws)) =
      some (raws.take (raws.length - 3)) := by
    rw [funext (hd.itemAt h)]
    exact Option.mapM_range_getElem? (Nat.sub_le _ _)
  unfold stripSignature
  rw [hsplit]
  simp only [hd.itemCount h, Option.bind_eq_bind, Option.bind_some, if_neg (not_lt.mpr hlen), hitems,
    hd.newList]

theorem stripSignature_eip1559 :
    stripSignature d (0x02 :: Rlp.list raws) =
      some (0x02 :: Rlp.list (raws.take (raws.length - 3))) :=
  stripSignature_list hd h hlen (some 0x02) rfl

theorem decodeHexWithKnownAddr_eip1559 (addr : Address) :
    decodeHexWithKnownAddr d (toText (0x02 :: Rlp.list raws)) addr =
      (decodeEip1559 d (Rlp.list raws) (0x02 :: Rlp.list (raws.take (raws.length - 3)))).map
        fun (eip1559, _) => .eip1559 eip1559 addr := by
  have hstrip := stripSignature_eip1559 hd h hlen
  have hsize := not_short_eip1559 h
  unfold decodeHexWithKnownAddr
  rw [fromHex_toText hd]
  simp only [Option.bind_eq_bind, Option.bind_some, hstrip, if_true, if_neg hsize]

theorem decodeHex_eip1559 :
    decodeHex d (toText (0x02 :: Rlp.list raws)) =
      (decodeEip1559 d (Rlp.list raws) (0x02 :: Rlp.list (raws.take (raws.length - 3)))).map
        fun (eip1559, caller) => .eip1559 eip1559 caller := by
  have hstrip := stripSignature_eip1559 hd h hlen
  have hsize := not_short_eip1559 h
  unfold decodeHex
  rw [fromHex_toText hd]
  simp only [Option.bind_eq_bind, Option.bind_some, hstrip, if_true, if_neg hsize]

end

end

/-- The items of a request are decoded, whatever comes behind them. -/
theorem decodeEip1559_base {rest : List (List UInt8)} {noSignature : List UInt8} {sender : Address}
    (hraws : raws = eip1559Base nameBytes tx ++ rest) (h : Rlp.IsPayload raws)
    (hsender : decodeCaller d (Rlp.list raws) 11 9 noSignature = some sender) :
    decodeEip1559 d (Rlp.list raws) noSignature =
      some (eip1559Request d (Rlp.list raws) tx.accessList sender, sender) := by
  subst hraws
  refine decodeEip1559_eq_some.mpr ⟨?_, ⟨?_, ?_, ?_, ?_, ?_⟩, ⟨?_, ?_⟩, tx.accessList, ?_, sender,
    hsender, rfl⟩
  · exact fits_list hd h rfl
  · exact fits_list hd h rfl
  · exact fits_list hd h rfl
  · exact fits_list hd h rfl
  · exact fits_list hd h rfl
  · exact fits_list hd h rfl
  · exact present_list hd h rfl
  · exact present_list hd h rfl
  · exact parseAccessList_list hd h rfl

end Strip

/-! ## Without a signature -/

section Unsigned

variable {nameBytes : String → List UInt8} {txEnv : TxEnv}

structure InRange (nameBytes : String → List UInt8) (txEnv : TxEnv) : Prop where
  gasLimit : txEnv.gasLimit < 2 ^ 64
  gasPrice : txEnv.gasPrice < 2 ^ 256
  value : txEnv.value < 2 ^ 256
  nonce : ∀ n ∈ txEnv.nonce, n < 2 ^ 64
  chainId : ∀ n ∈ txEnv.chainId, n < 2 ^ 64
  size : ((TypedTransaction.eip1559 (adaptTxEnv txEnv).1).rlp nameBytes).length < 2 ^ 64

/-- An absent nonce or chain id is read back as zero. -/
def readBack (txEnv : TxEnv) : TxEnv :=
  { txEnv with nonce := some (txEnv.nonce.getD 0), chainId := some (txEnv.chainId.getD 0) }

/-- The request that is read back: there is no sender in it, and no priority fee. -/
def requestOf (txEnv : TxEnv) : Eip1559TransactionRequest :=
  { (adaptTxEnv txEnv).1 with fromAddr := some 0, maxPriorityFeePerGas := some 0 }

theorem getD_lt (hn : 0 < n) (h : ∀ m ∈ o, m < n) : o.getD 0 < n := by
  cases o with
  | none => exact hn
  | some m => exact h m rfl

theorem InRange.nonce_lt (h : InRange nameBytes txEnv) : txEnv.nonce.getD 0 < 2 ^ 64 :=
  getD_lt (Nat.two_pow_pos 64) h.nonce

theorem InRange.chainId_lt (h : InRange nameBytes txEnv) : txEnv.chainId.getD 0 < 2 ^ 64 :=
  getD_lt (Nat.two_pow_pos 64) h.chainId

theorem InRange.isPayload (h : InRange nameBytes txEnv) :
    Rlp.IsPayload (eip1559Base nameBytes (adaptTxEnv txEnv).1) := by
  refine .of_length (isItem_eip1559Base _) ?_
  have hsize := h.size
  rw [TypedTransaction.rlp, List.length_cons] at hsize
  omega

theorem lt_of_some {b : Nat} (hw : 2 ^ b = 256 ^ w) (hn : n < 2 ^ b) :
    ∀ m ∈ some n, m < 256 ^ w := by
  rintro m hm
  cases hm
  exact hn.trans_eq hw

theorem eip1559Request_base (hd : d.Canonical) (h : InRange nameBytes txEnv) :
    eip1559Request d (Rlp.list (eip1559Base nameBytes (adaptTxEnv txEnv).1)) txEnv.accessList 0 =
      requestOf txEnv := by
  have hp := h.isPayload
  have h64 : 2 ^ 64 = 256 ^ 8 := by norm_num
  have h256 : 2 ^ 256 = 256 ^ 32 := by norm_num
  have hle : 2 ^ 64 ≤ 2 ^ 256 := Nat.pow_le_pow_right Nat.two_pos (by norm_num)
  unfold eip1559Request
  rw [recipient_list hd hp txEnv.transactTo rfl,
    number_list hd hp rfl (lt_of_some h64 h.chainId_lt),
    number_list hd hp rfl
      (lt_of_some h256 (h.nonce_lt.trans_le hle)),
    number_list (o := none) hd hp rfl nofun,
    number_list hd hp rfl (lt_of_some h256 h.gasPrice),
    number_list hd hp rfl (lt_of_some h256 (h.gasLimit.trans_le hle)),
    number_list hd hp rfl (lt_of_some h256 h.value),
    data_list hd hp (some txEnv.data) rfl]
  rfl

theorem eip1559Transaction2TxEnv_requestOf (h : InRange nameBytes txEnv) :
    eip1559Transaction2TxEnv (requestOf txEnv) txEnv.caller = some (readBack txEnv) := by
  have hprice : (if 0 + (requestOf txEnv).maxPriorityFeePerGas.getD 0 <
      (requestOf txEnv).maxFeePerGas.getD 0 then (requestOf txEnv).maxFeePerGas.getD 0
      else (requestOf txEnv).maxPriorityFeePerGas.getD 0) = txEnv.gasPrice := by
    show (if 0 + 0 < txEnv.gasPrice then txEnv.gasPrice else 0) = txEnv.gasPrice
    rw [ite_eq_left_iff]
    omega
  have hkind : toTxKind (toRecipient txEnv.transactTo) = some txEnv.transactTo := by
    cases txEnv.transactTo <;> rfl
  rw [eip1559Transaction2TxEnv]
  simp only [hprice]
  simp only [requestOf, adaptTxEnv, nonceAsU64, gasAsU64, asU64, if_pos h.nonce_lt, if_pos h.gasLimit,
    hkind, Option.map_some, Option.bind_eq_bind, Option.bind_some, Option.getD_some, readBack]

theorem decodeHexWithKnownAddr_encodeToHex (hd : d.Canonical) (h : InRange nameBytes txEnv) :
    decodeHexWithKnownAddr d (encodeToHex nameBytes txEnv).1 (encodeToHex nameBytes txEnv).2 =
      some (.eip1559 (requestOf txEnv) txEnv.caller) := by
  have hp := h.isPayload
  have hcaller : ∀ noSignature, decodeCaller d
      (Rlp.list (eip1559Base nameBytes (adaptTxEnv txEnv).1)) 11 9 noSignature = some 0 := by
    intro noSignature
    rw [decodeCaller, hd.itemCount hp]
    rfl
  have hdecode := fun noSignature => decodeEip1559_base hd (List.append_nil _).symm hp
    (hcaller noSignature)
  show decodeHexWithKnownAddr d
    (toText (0x02 :: Rlp.list (eip1559Base nameBytes (adaptTxEnv txEnv).1))) txEnv.caller = _
  rw [decodeHexWithKnownAddr_eip1559 hd hp (Nat.le_add_left 3 6), hdecode, Option.map_some,
    ← eip1559Request_base hd h]
  rfl

/-- A batch is read back in order, each transaction as it was but for an absent nonce or chain id, and
each of its strings alone gives the transaction. -/
theorem decode_encodeBatchToHex (hd : d.Canonical) {txEnvs : List TxEnv}
    (h : ∀ txEnv ∈ txEnvs, InRange nameBytes txEnv) :
    decodeBatchHex d (encodeBatchToHex nameBytes txEnvs) = some (txEnvs.map readBack) ∧
      List.Forall₂ (fun txEnv (pair : String × Address) =>
        decodeOneHex d pair.1 pair.2 = some (some (readBack txEnv)))
        txEnvs (encodeBatchToHex nameBytes txEnvs) := by
  induction txEnvs with
  | nil => exact ⟨rfl, .nil⟩
  | cons txEnv txEnvs ih =>
    obtain ⟨hbatch, hone⟩ := ih fun txEnv' h' => h txEnv' (List.mem_cons_of_mem _ h')
    have hrange := h txEnv List.mem_cons_self
    have hdecode := decodeHexWithKnownAddr_encodeToHex hd hrange
    have hadapt : adaptTransaction (.eip1559 (requestOf txEnv) txEnv.caller) =
        some (readBack txEnv) := eip1559Transaction2TxEnv_requestOf hrange
    rw [encodeBatchToHex, List.map_cons, List.map_cons]
    refine ⟨?_, .cons ?_ hone⟩
    · rw [decodeBatchHex_known hdecode nofun, hadapt, ← encodeBatchToHex, hbatch]
      rfl
    · rw [decodeOneHex, hdecode]
      simp only [Option.bind_eq_bind, Option.bind_some, hadapt]

def creation : TxEnv where
  caller := 7
  gasLimit := 21000
  gasPrice := 1500000000
  transactTo := .create
  value := 300
  data := [0, 255]
  nonce := none
  chainId := some 1
  accessList := [⟨5, [1, 2]⟩]

theorem creation_read_back :
    InRange (fun _ => []) creation ∧
      decodeBatchHex (.reading (fun _ => none) fun _ _ _ _ => none)
        (encodeBatchToHex (fun _ => []) [creation]) = some [readBack creation] := by
  have hrange : InRange (fun _ => []) creation := {
    gasLimit := by decide
    gasPrice := by decide
    value := by decide
    nonce := nofun
    chainId := by decide
    size := by decide +kernel }
  have hbatch : ∀ txEnv ∈ [creation], InRange (fun _ => []) txEnv := by
    rw [List.forall_mem_singleton]
    exact hrange
  exact ⟨hrange, (decode_encodeBatchToHex Decoders.reading_canonical hbatch).1⟩

end Unsigned

/-! ## With a signature -/

section Signed

variable {nameBytes : String → List UInt8} {wallet : LocalWallet} {base : List (List UInt8)}

theorem isItem_signatureItems (v : Nat) (sig : Signature) :
    ∀ raw ∈ signatureItems v sig, Rlp.IsItem raw := by
  simp only [signatureItems, List.forall_mem_cons]
  exact ⟨isItem_uint v, isItem_uint _, isItem_uint _, nofun⟩

theorem isItem_append {raws' : List (List UInt8)} (h : ∀ raw ∈ raws, Rlp.IsItem raw)
    (h' : ∀ raw ∈ raws', Rlp.IsItem raw) : ∀ raw ∈ raws ++ raws', Rlp.IsItem raw := by
  intro raw hraw
  rcases List.mem_append.mp hraw with hraw | hraw
  · exact h raw hraw
  · exact h' raw hraw

theorem splitType_list (raws : List (List UInt8)) : splitType (Rlp.list raws) = (none, Rlp.list raws) := by
  have hlist : Rlp.isList (Rlp.list raws) = true := Rlp.isList_header_list
  cases hraw : Rlp.list raws with
  | nil => rfl
  | cons b rest =>
    rw [hraw, Rlp.isList, List.head?_cons, Option.any_some] at hlist
    have hb : ¬ (b = 0x02 ∨ b = 0x01) := by
      rintro (rfl | rfl)
      · exact absurd hlist (by decide)
      · exact absurd hlist (by decide)
    rw [splitType, if_neg hb]

theorem take_signed (v : Nat) (sig : Signature) :
    (base ++ signatureItems v sig).take ((base ++ signatureItems v sig).length - 3) = base := by
  have hlen : (base ++ signatureItems v sig).length - 3 = base.length := by
    rw [List.length_append]
    exact Nat.add_sub_cancel _ 3
  rw [hlen, List.take_left' rfl]

theorem three_le_signed (v : Nat) (sig : Signature) :
    3 ≤ (base ++ signatureItems v sig).length := by
  rw [List.length_append]
  exact Nat.le_add_left 3 _

/-- The chain id that the wallet fills in stands in the place of the empty string. -/
theorem fill_eq_iff {c : Nat} (hc : c < 2 ^ 64) :
    rlpOpt (uint 8) o = rlpOpt (uint 8) (some (o.getD c)) ↔ o.isSome = true ∨ c = 0 := by
  cases o with
  | some n => exact iff_of_true rfl (.inl rfl)
  | none =>
    constructor
    · intro h
      have hnil : [] = Bytes.minBe 8 c := Rlp.str_inj (by decide) h
      have hval := Bytes.ofBe_minBe (w := 8) (hc.trans_eq (by norm_num))
      rw [← hnil] at hval
      exact .inr hval.symm
    · rintro (h | rfl)
      · cases h
      · rfl

theorem eip1559Base_eq_iff (nameBytes : String → List UInt8) :
    eip1559Base nameBytes tx =
        eip1559Base nameBytes { tx with chainId := some (tx.chainId.getD wallet.chainId) } ↔
      tx.chainId.isSome = true ∨ wallet.chainId = 0 := by
  rw [← fill_eq_iff wallet.chainId_lt]
  constructor
  · intro h
    exact (List.cons.inj h).1
  · intro h
    exact congrArg (· :: (eip1559Base nameBytes tx).tail) h

theorem isPayload_signed {v : Nat} {sig : Signature} (hbase : ∀ raw ∈ base, Rlp.IsItem raw)
    (h : (Rlp.list (base ++ signatureItems v sig)).length < 2 ^ 64) :
    Rlp.IsPayload (base ++ signatureItems v sig) :=
  .of_length (isItem_append hbase (isItem_signatureItems v sig)) (h.trans_eq (by norm_num))

theorem length_of_typed {rlp : List UInt8} (h : (0x02 :: rlp).length < 2 ^ 64) : rlp.length < 2 ^ 64 :=
  Nat.lt_of_succ_lt h

/-- The wallet's payload of a request of EIP-1559 is what is left without the signature. -/
theorem stripSignature_eip1559_iff (hd : d.Canonical)
    (hsigned : (wallet.signedPayload nameBytes (.eip1559 tx)).length < 2 ^ 64)
    (hencoded : (wallet.rlpSigned nameBytes (.eip1559 tx)).length < 2 ^ 64) :
    stripSignature d (wallet.rlpSigned nameBytes (.eip1559 tx)) =
        some (wallet.signedPayload nameBytes (.eip1559 tx)) ↔
      tx.chainId.isSome = true ∨ wallet.chainId = 0 := by
  have hpayload := isPayload_signed (isItem_eip1559Base tx) (length_of_typed hencoded)
  have hstrip := stripSignature_eip1559 hd hpayload (three_le_signed _ _)
  rw [← eip1559Base_eq_iff nameBytes]
  unfold LocalWallet.rlpSigned
  rw [hstrip, Option.some.injEq]
  constructor
  · intro h
    have hlist := (List.cons.inj h).2
    exact (Rlp.list_inj (isItem_eip1559Base _) (isItem_eip1559Base _)
      ((length_of_typed hsigned).trans_eq (by norm_num)) hlist.symm).symm
  · intro h
    exact congrArg (fun raws => 0x02 :: Rlp.list raws) h

/-- Without the signature a legacy request has no chain id, which the wallet's payload ends with. -/
theorem stripSignature_legacy_ne (hd : d.Canonical) {tx : TransactionRequest}
    (hsigned : (wallet.signedPayload nameBytes (.legacy tx)).length < 2 ^ 64)
    (hencoded : (wallet.rlpSigned nameBytes (.legacy tx)).length < 2 ^ 64) :
    stripSignature d (wallet.rlpSigned nameBytes (.legacy tx)) ≠
      some (wallet.signedPayload nameBytes (.legacy tx)) := by
  have hpayload := isPayload_signed (isItem_legacyBase tx) hencoded
  have hstrip := stripSignature_list hd hpayload (three_le_signed _ _) none (splitType_list _)
  have hform : wallet.signedPayload nameBytes (.legacy tx) = Rlp.list (legacyBase nameBytes tx ++
      [uint 8 (tx.chainId.getD wallet.chainId), uint 8 0, uint 8 0]) := rfl
  have hitems : ∀ raw ∈ legacyBase nameBytes tx ++
      [uint 8 (tx.chainId.getD wallet.chainId), uint 8 0, uint 8 0], Rlp.IsItem raw := by
    refine isItem_append (isItem_legacyBase tx) ?_
    simp only [List.forall_mem_cons]
    exact ⟨isItem_uint _, isItem_uint _, isItem_uint _, nofun⟩
  unfold LocalWallet.rlpSigned
  rw [hstrip]
  intro h
  have hlist := Rlp.list_inj hitems (isItem_legacyBase tx) (hsigned.trans_eq (by norm_num))
    (Option.some.inj h).symm
  have hlen := congrArg List.length hlist
  exact absurd hlen (Nat.ne_of_gt (Nat.lt_add_of_pos_right (Nat.zero_lt_succ 2)))

theorem u256Field_list (hd : d.Canonical) (h : Rlp.IsPayload raws) (hi : raws[i]? = some (uint w n))
    (hw : w ≤ 32) (hn : n < 256 ^ w) :
    u256Field d (Rlp.list raws) i = some n := by
  have hfits := fits_list (o := some n) hd h hi
  have hnumber := number_list (o := some n) hd h hi fun m hm => by cases hm; exact hn
  exact u256Field_eq_some.mpr ⟨⟨hfits.1, hfits.2.trans hw⟩, hnumber.symm⟩

theorem u256_lt (n : U256) : n.val < 256 ^ 32 := n.isLt.trans_eq (by norm_num)

theorem toNat_lt (odd : Bool) : odd.toNat < 2 ^ 64 := odd.toNat_lt.trans (by norm_num)

/-- The signature behind the items of a request is read as it was written. -/
theorem decodeCaller_signed (hd : d.Canonical) {sig : Signature}
    (h : Rlp.IsPayload (eip1559Base nameBytes tx ++ signatureItems sig.odd.toNat sig))
    (noSignature : List UInt8) :
    decodeCaller d (Rlp.list (eip1559Base nameBytes tx ++ signatureItems sig.odd.toNat sig)) 11 9
        noSignature =
      d.recover sig.r sig.s sig.odd.toNat noSignature := by
  have hodd := toNat_lt sig.odd
  have hcount : 11 ≤ (d.itemCount (Rlp.list (eip1559Base nameBytes tx ++
      signatureItems sig.odd.toNat sig))).getD 0 := by
    rw [hd.itemCount h]
    exact Nat.le_succ 11
  rw [decodeCaller, if_pos hcount, decodeSender,
    u256Field_list hd h rfl (by norm_num) (hodd.trans_eq (by norm_num)),
    u256Field_list hd h rfl (Nat.le_refl 32) (u256_lt _),
    u256Field_list hd h rfl (Nat.le_refl 32) (u256_lt _)]
  simp only [Option.bind_eq_bind, Option.bind_some, recoverAddress, asU64, if_pos hodd]

/-- The address that is recovered is the signer's if the request has a chain id. -/
theorem decodeHex_encodeTxSigned (hd : d.Canonical)
    (hencoded : (wallet.rlpSigned nameBytes (.eip1559 tx)).length < 2 ^ 64)
    (hrecover : ∀ bytes, d.recover (wallet.sign bytes).r (wallet.sign bytes).s
      (wallet.sign bytes).odd.toNat bytes = some wallet.address)
    (hchain : tx.chainId.isSome = true) :
    ∃ request, decodeHex d (encodeTxSigned nameBytes wallet (.eip1559 tx)) =
      some (.eip1559 request wallet.address) := by
  have hpayload := isPayload_signed (isItem_eip1559Base tx) (length_of_typed hencoded)
  have hsigned : wallet.signedPayload nameBytes (.eip1559 tx) =
      0x02 :: Rlp.list (eip1559Base nameBytes tx) :=
    congrArg (fun raws => 0x02 :: Rlp.list raws) ((eip1559Base_eq_iff nameBytes).mpr (.inl hchain)).symm
  have hsender := decodeCaller_signed hd hpayload (wallet.signedPayload nameBytes (.eip1559 tx))
  have hdecode := decodeEip1559_base hd rfl hpayload (hsender.trans (hrecover _))
  rw [hsigned] at hdecode
  have hhex := decodeHex_eip1559 hd hpayload (three_le_signed _ _)
  rw [take_signed, hdecode] at hhex
  exact ⟨_, hhex⟩

/-- For every request the bytes that are left without the signature are the signed ones if and only if
the request is of EIP-1559 and the wallet has not filled in another chain id; with a chain id the
address that is recovered is the signer's. -/
theorem stripSignature_encodeTxSigned_iff (hd : d.Canonical) (nameBytes : String → List UInt8)
    (wallet : LocalWallet) (tx : TypedTransaction)
    (hsigned : (wallet.signedPayload nameBytes tx).length < 2 ^ 64)
    (hencoded : (wallet.rlpSigned nameBytes tx).length < 2 ^ 64) :
    ((d.fromHex (trimStartMatches (encodeTxSigned nameBytes wallet tx).toList)).bind
        (stripSignature d) = some (wallet.signedPayload nameBytes tx) ↔
      ∃ request, tx = .eip1559 request ∧ (request.chainId.isSome = true ∨ wallet.chainId = 0)) ∧
    ((∀ bytes, d.recover (wallet.sign bytes).r (wallet.sign bytes).s (wallet.sign bytes).odd.toNat
        bytes = some wallet.address) →
      ∀ request, tx = .eip1559 request → request.chainId.isSome = true →
        ∃ decoded, decodeHex d (encodeTxSigned nameBytes wallet tx) =
          some (.eip1559 decoded wallet.address)) := by
  rw [encodeTxSigned, fromHex_toText hd, Option.bind_some]
  cases tx with
  | legacy tx =>
    have hne := stripSignature_legacy_ne hd hsigned hencoded
    exact ⟨iff_of_false hne fun ⟨_, h, _⟩ => TypedTransaction.noConfusion h,
      fun _ _ h => TypedTransaction.noConfusion h⟩
  | eip1559 tx =>
    refine ⟨?_, ?_⟩
    · rw [stripSignature_eip1559_iff hd hsigned hencoded]
      exact ⟨fun h => ⟨tx, rfl, h⟩, fun ⟨_, h, hchain⟩ => by cases h; exact hchain⟩
    · rintro hrecover _ h hchain
      cases h
      exact decodeHex_encodeTxSigned hd hencoded hrecover hchain

def someWallet : LocalWallet where
  address := 9
  chainId := 1
  chainId_lt := Nat.one_lt_two_pow_iff.mpr (Nat.succ_ne_zero 63)
  sign _ := ⟨3, 5, true⟩

def someDecoders : Decoders := .reading (fun _ => none) fun _ _ _ _ => some 9

def transfer (chainId : Option Nat) : Eip1559TransactionRequest where
  fromAddr := none
  chainId := chainId
  nonce := some 0
  maxPriorityFeePerGas := some 1500000000
  maxFeePerGas := some 2000000000
  gas := some 21000
  toAddr := some (.address 4)
  value := some 100
  data := some []
  accessList := [⟨5, [1, 2]⟩]

def legacyTransfer : TransactionRequest where
  fromAddr := none
  toAddr := some (.address 4)
  gas := some 21000
  gasPrice := some 2000000000
  value := some 100
  data := some []
  nonce := some 1

theorem transfer_recovers_signer :
    (someDecoders.fromHex (trimStartMatches
        (encodeTxSigned (fun _ => []) someWallet (.eip1559 (transfer (some 1)))).toList)).bind
      (stripSignature someDecoders) =
        some (someWallet.signedPayload (fun _ => []) (.eip1559 (transfer (some 1)))) ∧
    ∃ decoded, decodeHex someDecoders
        (encodeTxSigned (fun _ => []) someWallet (.eip1559 (transfer (some 1)))) =
      some (.eip1559 decoded 9) := by
  have h := stripSignature_encodeTxSigned_iff (d := someDecoders) Decoders.reading_canonical
    (fun _ => []) someWallet (.eip1559 (transfer (some 1))) (by decide +kernel) (by decide +kernel)
  exact ⟨h.1.mpr ⟨_, rfl, .inl rfl⟩, h.2 (fun _ => rfl) _ rfl rfl⟩

/-- A legacy request loses the chain id that its signature covers, and a request without a chain id
never had the one that the wallet has signed. -/
theorem transfers_not_signed_payload :
    stripSignature someDecoders (someWallet.rlpSigned (fun _ => []) (.legacy legacyTransfer)) =
        some (Rlp.list (legacyBase (fun _ => []) legacyTransfer)) ∧
      someWallet.signedPayload (fun _ => []) (.legacy legacyTransfer) ≠
        Rlp.list (legacyBase (fun _ => []) legacyTransfer) ∧
      stripSignature someDecoders
          (someWallet.rlpSigned (fun _ => []) (.eip1559 (transfer none))) ≠
        some (someWallet.signedPayload (fun _ => []) (.eip1559 (transfer none))) := by
  refine ⟨by decide +kernel, by decide +kernel, by decide +kernel⟩

end Signed

end CongestionControl.Pevm.Serializer
