import Mathlib.Data.Finset.Basic

/-!
The chain data the client and the node exchange, each type with the fields that
modelled code reads. Hashes and scripts enter the code only through equality
and through their printed form, so they are read as numbers.
-/

namespace BdkFloresta

abbrev BlockHash := Nat
abbrev Txid := Nat
abbrev ScriptBuf := Nat

/-- The 64 lower-case digits a hash is displayed with. -/
def displayHash (hash : Nat) : String :=
  let digits := Nat.toDigits 16 hash
  String.ofList (List.replicate (64 - digits.length) '0' ++ digits)

structure OutPoint where
  txid : Txid
  vout : Nat
  deriving DecidableEq, Repr

/-- A transaction: `compute_txid`, the outputs it spends and the script of each
output it creates. -/
structure Transaction where
  txid : Txid
  input : List OutPoint
  output : List ScriptBuf
  deriving DecidableEq, Repr

/-- A block: `block_hash`, its header's time and its transactions. -/
structure Block where
  blockHash : BlockHash
  time : Nat
  txdata : List Transaction
  deriving DecidableEq, Repr

structure BlockId where
  height : Nat
  hash : BlockHash
  deriving DecidableEq, Repr

/-- `ConfirmationBlockTime`, the anchor of a confirmed transaction. -/
structure ConfirmationBlockTime where
  blockId : BlockId
  confirmationTime : Nat
  deriving DecidableEq, Repr

def Block.anchor (block : Block) (height : Nat) : ConfirmationBlockTime :=
  ⟨⟨height, block.blockHash⟩, block.time⟩

inductive Network where
  | bitcoin
  | testnet
  | testnet4
  | signet
  | regtest
  deriving DecidableEq, Repr

def Network.display : Network → String
  | .bitcoin => "bitcoin"
  | .testnet => "testnet"
  | .testnet4 => "testnet4"
  | .signet => "signet"
  | .regtest => "regtest"

/-- A socket address, as its text. -/
structure SocketAddr where
  text : String
  deriving DecidableEq, Repr

end BdkFloresta
