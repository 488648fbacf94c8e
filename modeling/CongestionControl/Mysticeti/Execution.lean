import CongestionControl.Mysticeti.Statements
import CongestionControl.Pevm.Deserializer

/-!
# The transactions of a committed block

`execute_block_in_pevm` of `core.rs`: the shared transactions of a committed block are decoded and given
to the executor. What is executed with them is left out.
-/

namespace CongestionControl.Mysticeti

open Pevm Pevm.Deserializer

variable (d : Decoders)

def decodeShareBaseStatement (data : List UInt8) : Option (String × Address) :=
  (d.deserialize data).map fun decoded => (decoded.rawHex, decoded.caller)

def shareTransactions : List BaseStatement → Option (List (String × Address))
  | [] => some []
  | .share share :: statements => do
    let tx ← decodeShareBaseStatement d share.data
    let txs ← shareTransactions statements
    some (tx :: txs)
  | _ :: statements => shareTransactions statements

/-- The transactions that `PevmExecutor::execute` gets from `decode_batch_hex`. -/
def executeBlockInPevm (statements : List BaseStatement) : Option (List Deserializer.TxEnv) := do
  let txs ← shareTransactions d statements
  if 0 < txs.length then decodeBatchHex d txs else some []

end CongestionControl.Mysticeti
