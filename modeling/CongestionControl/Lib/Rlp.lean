import CongestionControl.Lib.Bytes

/-!
# Recursive length prefix

The canonical encoding of byte strings and of lists of items, and a reader. An item is its raw bytes,
so that a list is made of raw items and gives them back.
-/

namespace Rlp

/-- The bytes before a payload of a given length; `offset` tells strings from lists. -/
def header (offset n : Nat) : List UInt8 :=
  if n ≤ 55 then [UInt8.ofNat (offset + n)]
  else UInt8.ofNat (offset + 55 + (Bytes.minBe 8 n).length) :: Bytes.minBe 8 n

def str (b : List UInt8) : List UInt8 :=
  if b.length = 1 ∧ b.all (· < 0x80) then b else header 0x80 b.length ++ b

def list (raws : List (List UInt8)) : List UInt8 :=
  header 0xc0 raws.flatten.length ++ raws.flatten

inductive IsItem : List UInt8 → Prop
  | str (b : List UInt8) : IsItem (str b)
  | list {raws : List (List UInt8)} : (∀ raw ∈ raws, IsItem raw) → IsItem (list raws)

/-- The items of a list that a reader can take apart: the length of their bytes fits 64 bits. -/
structure IsPayload (raws : List (List UInt8)) : Prop where
  isItem : ∀ raw ∈ raws, IsItem raw
  short : raws.flatten.length < 256 ^ 8

/-- The lengths of the header and of the payload of the first item. -/
def info : List UInt8 → Option (Nat × Nat)
  | [] => none
  | b :: bs =>
    let n := b.toNat
    if n < 0x80 then some (0, 1)
    else if n ≤ 0xb7 then some (1, n - 0x80)
    else if n ≤ 0xbf then some (1 + (n - 0xb7), Bytes.ofBe (bs.take (n - 0xb7)))
    else if n ≤ 0xf7 then some (1, n - 0xc0)
    else some (1 + (n - 0xf7), Bytes.ofBe (bs.take (n - 0xf7)))

def isList (raw : List UInt8) : Bool := raw.head?.any (0xc0 ≤ ·)

def payload (raw : List UInt8) : Option (List UInt8) :=
  (info raw).map fun (h, n) => (raw.drop h).take n

def split (bs : List UInt8) : Option (List UInt8 × List UInt8) :=
  (info bs).bind fun (h, n) =>
    if h + n ≤ bs.length then some (bs.take (h + n), bs.drop (h + n)) else none

def readAll : Nat → List UInt8 → Option (List (List UInt8))
  | _, [] => some []
  | 0, _ :: _ => none
  | fuel + 1, bs => do
    let (raw, rest) ← split bs
    let raws ← readAll fuel rest
    return raw :: raws

def items (raw : List UInt8) : Option (List (List UInt8)) :=
  if isList raw then (payload raw).bind fun bs => readAll bs.length bs else none

variable {offset n : Nat} {b rest raw : List UInt8} {raws : List (List UInt8)}

theorem toNat_ofNat_of_lt {n : Nat} (h : n < 256) : (UInt8.ofNat n).toNat = n :=
  UInt8.toNat_ofNat_of_lt' h

/-- The reader finds the lengths that a header of a string or of a list tells. -/
theorem info_header (hoffset : offset = 0x80 ∨ offset = 0xc0) (hn : n < 256 ^ 8) :
    info (header offset n ++ rest) = some ((header offset n).length, n) := by
  unfold header
  by_cases hshort : n ≤ 55
  · rw [if_pos hshort, List.singleton_append, info, toNat_ofNat_of_lt (by omega)]
    rcases hoffset with rfl | rfl
    · rw [if_neg (by omega), if_pos (by omega), Nat.add_sub_cancel_left]
      rfl
    · rw [if_neg (by omega), if_neg (by omega), if_neg (by omega), if_pos (by omega),
        Nat.add_sub_cancel_left]
      rfl
  · have hle := Bytes.length_minBe_le 8 n
    have hof := Bytes.ofBe_minBe hn
    have hpos : 0 < (Bytes.minBe 8 n).length := by
      refine List.length_pos_iff.mpr fun hnil => ?_
      rw [hnil] at hof
      exact hshort (hof ▸ Nat.zero_le 55)
    have htake : (Bytes.minBe 8 n ++ rest).take (Bytes.minBe 8 n).length = Bytes.minBe 8 n :=
      List.take_left' rfl
    rw [if_neg hshort, List.cons_append, info, toNat_ofNat_of_lt (by omega), List.length_cons]
    rcases hoffset with rfl | rfl
    · rw [if_neg (by omega), if_neg (by omega), if_pos (by omega), Nat.add_sub_cancel_left, htake, hof,
        Nat.add_comm]
    · rw [if_neg (by omega), if_neg (by omega), if_neg (by omega), if_neg (by omega),
        Nat.add_sub_cancel_left, htake, hof, Nat.add_comm]

theorem isList_header_list : isList (header 0xc0 n ++ rest) = true := by
  have hle := Bytes.length_minBe_le 8 n
  unfold header isList
  split_ifs with hshort
  · rw [List.singleton_append, List.head?_cons, Option.any_some, decide_eq_true_iff,
      UInt8.le_iff_toNat_le, toNat_ofNat_of_lt (by omega)]
    exact Nat.le_add_right _ _
  · rw [List.cons_append, List.head?_cons, Option.any_some, decide_eq_true_iff,
      UInt8.le_iff_toNat_le, toNat_ofNat_of_lt (by omega)]
    exact (Nat.le_add_right _ _).trans (Nat.le_add_right _ _)

theorem length_le_length_str (b : List UInt8) : b.length ≤ (str b).length := by
  unfold str
  split_ifs
  · exact Nat.le_refl _
  · rw [List.length_append]
    exact Nat.le_add_left _ _

theorem length_flatten_le_length_list (raws : List (List UInt8)) :
    raws.flatten.length ≤ (list raws).length := by
  rw [list, List.length_append]
  exact Nat.le_add_left _ _

theorem info_str (hb : b.length < 256 ^ 8) (rest : List UInt8) :
    ∃ h, info (str b ++ rest) = some (h.length, b.length) ∧ str b = h ++ b := by
  unfold str
  split_ifs with hsmall
  · obtain ⟨x, rfl⟩ := List.length_eq_one_iff.mp hsmall.1
    have hx : x.toNat < 0x80 := by simpa [UInt8.lt_iff_toNat_lt] using hsmall.2
    refine ⟨[], ?_, rfl⟩
    rw [List.singleton_append, info, if_pos hx]
    rfl
  · refine ⟨header 0x80 b.length, ?_, rfl⟩
    rw [List.append_assoc]
    exact info_header (.inl rfl) hb

theorem length_le_of_mem (h : raw ∈ raws) : raw.length ≤ raws.flatten.length :=
  (List.sublist_flatten_of_mem h).length_le

theorem IsPayload.of_length (h : ∀ raw ∈ raws, IsItem raw) (hlen : (list raws).length < 256 ^ 8) :
    IsPayload raws :=
  ⟨h, (length_flatten_le_length_list raws).trans_lt hlen⟩

theorem IsPayload.of_mem {raws' : List (List UInt8)} (h : IsPayload raws) (hmem : list raws' ∈ raws)
    (hitem : ∀ raw ∈ raws', IsItem raw) : IsPayload raws' :=
  .of_length hitem ((length_le_of_mem hmem).trans_lt h.short)

theorem IsPayload.length_lt (h : IsPayload raws) (hmem : str b ∈ raws) : b.length < 256 ^ 8 :=
  ((length_le_length_str b).trans (length_le_of_mem hmem)).trans_lt h.short

theorem info_list (hraws : raws.flatten.length < 256 ^ 8) (rest : List UInt8) :
    info (list raws ++ rest) = some ((header 0xc0 raws.flatten.length).length, raws.flatten.length) := by
  unfold list
  rw [List.append_assoc]
  exact info_header (.inr rfl) hraws

theorem split_of_info {h : List UInt8} (hinfo : info (h ++ b ++ rest) = some (h.length, b.length)) :
    split (h ++ b ++ rest) = some (h ++ b, rest) := by
  have hlen : h.length + b.length = (h ++ b).length := List.length_append.symm
  unfold split
  rw [hinfo]
  dsimp only [Option.bind_some]
  rw [hlen, if_pos (by simp), List.take_left' rfl, List.drop_left' rfl]

theorem payload_of_info {h : List UInt8} (hinfo : info (h ++ b) = some (h.length, b.length)) :
    payload (h ++ b) = some b := by
  unfold payload
  rw [hinfo]
  show some (List.take _ (List.drop _ _)) = _
  rw [List.drop_left' rfl, List.take_length]

theorem IsItem.split (h : IsItem raw) (hraw : raw.length < 256 ^ 8) (rest : List UInt8) :
    split (raw ++ rest) = some (raw, rest) := by
  cases h with
  | str b =>
    obtain ⟨h, hinfo, hstr⟩ := info_str ((length_le_length_str b).trans_lt hraw) rest
    rw [hstr] at hinfo ⊢
    exact split_of_info hinfo
  | @list raws _ =>
    exact split_of_info (info_list ((length_flatten_le_length_list raws).trans_lt hraw) rest)

theorem IsItem.length_pos (h : IsItem raw) : 0 < raw.length := by
  refine List.length_pos_iff.mpr fun hnil => ?_
  have hsplit := h.split (hnil ▸ Nat.pow_pos (Nat.zero_lt_succ 255)) []
  rw [hnil] at hsplit
  cases hsplit

theorem payload_str (hb : b.length < 256 ^ 8) : payload (str b) = some b := by
  obtain ⟨h, hinfo, hstr⟩ := info_str hb []
  rw [List.append_nil, hstr] at hinfo
  rw [hstr]
  exact payload_of_info hinfo

theorem readAll_flatten (h : IsPayload raws) {fuel : Nat} (hfuel : raws.flatten.length ≤ fuel) :
    readAll fuel raws.flatten = some raws := by
  obtain ⟨h, hraws⟩ := h
  induction raws generalizing fuel with
  | nil => cases fuel <;> rfl
  | cons raw raws ih =>
    have hraw := h raw List.mem_cons_self
    have hpos := hraw.length_pos
    rw [List.flatten_cons, List.length_append] at hraws hfuel
    obtain ⟨fuel, rfl⟩ : ∃ k, fuel = k + 1 := ⟨fuel - 1, by omega⟩
    obtain ⟨x, xs, hcons⟩ := List.exists_cons_of_ne_nil (List.length_pos_iff.mp hpos)
    have hsplit := hraw.split (by omega) raws.flatten
    have hrest : readAll fuel raws.flatten = some raws :=
      ih (by omega) (fun raw hraw => h raw (List.mem_cons_of_mem _ hraw)) (by omega)
    rw [List.flatten_cons]
    rw [hcons, List.cons_append] at hsplit ⊢
    rw [readAll.eq_3 _ _ (List.cons_ne_nil _ _), hsplit]
    simp only [Option.bind_eq_bind, Option.bind_some, hrest, Option.pure_def]

theorem items_list (h : IsPayload raws) : items (list raws) = some raws := by
  have hinfo := info_list h.short []
  rw [List.append_nil] at hinfo
  have hpayload : payload (list raws) = some raws.flatten := payload_of_info hinfo
  have hlist : isList (list raws) = true := isList_header_list
  unfold items
  rw [hlist, hpayload]
  exact readAll_flatten h (Nat.le_refl _)

theorem str_inj {b' : List UInt8} (hb : (str b).length < 256 ^ 8) (h : str b = str b') : b = b' := by
  have hpayload := payload_str ((length_le_length_str b).trans_lt hb)
  rw [h] at hb
  rw [h, payload_str ((length_le_length_str b').trans_lt hb)] at hpayload
  exact (Option.some.inj hpayload).symm

theorem list_inj {raws' : List (List UInt8)} (h : ∀ raw ∈ raws, IsItem raw)
    (h' : ∀ raw ∈ raws', IsItem raw) (hraws : (list raws).length < 256 ^ 8)
    (heq : list raws = list raws') : raws = raws' := by
  have hitems := items_list (.of_length h hraws)
  rw [heq] at hraws
  rw [heq, items_list (.of_length h' hraws)] at hitems
  exact (Option.some.inj hitems).symm

end Rlp
