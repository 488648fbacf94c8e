import CongestionControl.Lib.HashOrder

/-!
# The in-memory storage

The accounts of `storage.rs` and the storage of `storage/in_memory.rs`. The representation of code is
a type parameter. The reads never fail, so the `Result` around their values is left out, and so are
the block hashes, which nothing here reads.
-/

namespace CongestionControl.Pevm

abbrev U256 := Fin (2 ^ 256)

instance neZeroU256 : NeZero (2 ^ 256) := ⟨by decide⟩

def U256.max : U256 := ⟨2 ^ 256 - 1, by decide⟩

abbrev B256 := Fin (2 ^ 256)

abbrev Address := Fin (2 ^ 160)

instance neZeroAddress : NeZero (2 ^ 160) := ⟨by decide⟩

structure AccountBasic where
  balance : U256
  nonce : UInt64
  deriving DecidableEq

def AccountBasic.default : AccountBasic := ⟨0, 0⟩

structure EvmAccount (C : Type) where
  balance : U256
  nonce : UInt64
  codeHash : Option B256
  code : Option C
  storage : HashMap U256 U256

def keccakEmpty : B256 :=
  ⟨0xc5d2460186f7233c927e7db2dcc703c0e500b653ca82273b7bfad8045d85a470, by decide⟩

structure Account (C : Type) where
  balance : U256
  nonce : UInt64
  codeHash : B256
  code : Option C
  storage : HashMap U256 U256

/-- `EvmAccount::from`; it panics if the code of an account with a code hash is not there. -/
def EvmAccount.ofAccount {C : Type} (account : Account C) : Option (EvmAccount C) :=
  let hasCode := account.codeHash ≠ keccakEmpty
  if hasCode then
    account.code.map fun code =>
      ⟨account.balance, account.nonce, some account.codeHash, some code, account.storage⟩
  else some ⟨account.balance, account.nonce, none, none, account.storage⟩

abbrev ChainState (C : Type) := HashMap Address (EvmAccount C)

abbrev Bytecodes (C : Type) := HashMap B256 C

structure InMemoryStorage (C : Type) where
  accounts : ChainState C
  bytecodes : Bytecodes C

namespace InMemoryStorage

variable {C : Type} (s : InMemoryStorage C)

def basic (address : Address) : Option AccountBasic :=
  (s.accounts.lookup address).map fun account => ⟨account.balance, account.nonce⟩

def codeHash (address : Address) : Option B256 :=
  (s.accounts.lookup address).bind EvmAccount.codeHash

def codeByHash (codeHash : B256) : Option C := s.bytecodes.lookup codeHash

def hasStorage (address : Address) : Bool :=
  (s.accounts.lookup address).any fun account => account.storage.keys ≠ ∅

def storage (address : Address) (index : U256) : U256 :=
  ((s.accounts.lookup address).bind fun account => account.storage.lookup index).getD 0

end InMemoryStorage

end CongestionControl.Pevm
