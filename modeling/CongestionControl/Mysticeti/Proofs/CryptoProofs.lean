import CongestionControl.Mysticeti.Crypto

/-!
# What a signature binds

Numbers, references and votes have a fixed length, but neither the number of includes nor the length of
a shared transaction is hashed. Equal bytes mean equal content only for blocks that agree in these.
-/

namespace CongestionControl.Mysticeti

section Parts

variable {n m : Nat} {s t : List UInt8}

theorem u64Bytes_append_inj (hn : n < 2 ^ 64) (hm : m < 2 ^ 64)
    (h : u64Bytes n ++ s = u64Bytes m ++ t) : n = m ∧ s = t := by
  obtain ⟨hbytes, hrest⟩ := List.append_inj h (by simp [u64Bytes])
  exact ⟨Bytes.toBe_injOn hn hm hbytes, hrest⟩

theorem digestBytes_append_inj (hn : n < 2 ^ 256) (hm : m < 2 ^ 256)
    (h : digestBytes n ++ s = digestBytes m ++ t) : n = m ∧ s = t := by
  obtain ⟨hbytes, hrest⟩ := List.append_inj h (by simp [digestBytes])
  exact ⟨Bytes.toBe_injOn hn hm hbytes, hrest⟩

theorem BlockReference.cryptoHash_append_inj {r r' : BlockReference} (hr : r.InRange)
    (hr' : r'.InRange) (h : r.cryptoHash ++ s = r'.cryptoHash ++ t) : r = r' ∧ s = t := by
  obtain ⟨hauthority, h⟩ := u64Bytes_append_inj hr.1 hr'.1 h
  obtain ⟨hround, h⟩ := u64Bytes_append_inj hr.2.1 hr'.2.1 h
  obtain ⟨hdigest, h⟩ := digestBytes_append_inj hr.2.2 hr'.2.2 h
  cases r
  cases r'
  simp_all

theorem TransactionLocator.cryptoHash_append_inj {l l' : TransactionLocator} (hl : l.InRange)
    (hl' : l'.InRange) (h : l.cryptoHash ++ s = l'.cryptoHash ++ t) : l = l' ∧ s = t := by
  obtain ⟨hblock, h⟩ := BlockReference.cryptoHash_append_inj hl.1 hl'.1 h
  obtain ⟨hoffset, h⟩ := u64Bytes_append_inj hl.2 hl'.2 h
  cases l
  cases l'
  simp_all

theorem TransactionLocatorRange.cryptoHash_append_inj {r r' : TransactionLocatorRange}
    (hr : r.InRange) (hr' : r'.InRange) (h : r.cryptoHash ++ s = r'.cryptoHash ++ t) :
    r = r' ∧ s = t := by
  obtain ⟨hblock, h⟩ := BlockReference.cryptoHash_append_inj hr.1 hr'.1 h
  obtain ⟨hstart, h⟩ := u64Bytes_append_inj hr.2.1 hr'.2.1 h
  obtain ⟨hend, h⟩ := u64Bytes_append_inj hr.2.2 hr'.2.2 h
  cases r
  cases r'
  simp_all

end Parts

namespace BaseStatement

theorem cryptoHash_append_inj {s s' : BaseStatement} {t t' : List UInt8} (hs : s.InRange)
    (hs' : s'.InRange) (hlen : s.shareLength = s'.shareLength)
    (h : s.cryptoHash ++ t = s'.cryptoHash ++ t') : s = s' ∧ t = t' := by
  -- Two statements of different kinds have different tags.
  rcases s with ⟨tx⟩ | ⟨id, _ | _ | other⟩ | range <;>
    rcases s' with ⟨tx'⟩ | ⟨id', _ | _ | other'⟩ | range' <;>
    simp only [cryptoHash, List.cons_append, List.cons.injEq] at h <;>
    obtain ⟨htag, h⟩ := h <;> first | exact absurd htag (by decide) | clear htag
  · obtain ⟨hdata, h⟩ := List.append_inj h (Option.some.inj hlen)
    cases tx
    cases tx'
    simp_all
  · obtain ⟨rfl, hrest⟩ := TransactionLocator.cryptoHash_append_inj hs hs' h
    exact ⟨rfl, hrest⟩
  · obtain ⟨rfl, hrest⟩ := TransactionLocator.cryptoHash_append_inj hs hs' h
    exact ⟨rfl, hrest⟩
  · obtain ⟨rfl, hother⟩ := TransactionLocator.cryptoHash_append_inj hs.1 hs'.1 h
    obtain ⟨rfl, hrest⟩ := TransactionLocator.cryptoHash_append_inj hs.2 hs'.2 hother
    exact ⟨rfl, hrest⟩
  · obtain ⟨rfl, hrest⟩ := TransactionLocatorRange.cryptoHash_append_inj hs hs' h
    exact ⟨rfl, hrest⟩

end BaseStatement

namespace SignedBlock

variable {b b' : SignedBlock}

theorem SameContent.shape (h : b.SameContent b') :
    b.includes.length = b'.includes.length ∧ b.shareLengths = b'.shareLengths := by
  obtain ⟨-, -, hincludes, hstatements, -⟩ := h
  exact ⟨by rw [hincludes], by rw [shareLengths, hstatements, shareLengths]⟩

end SignedBlock

end CongestionControl.Mysticeti
