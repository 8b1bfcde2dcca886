import AliasWallet.Core.Block
import AliasWallet.Core.Unserialize

/-!
# Importing a file of blocks (`LoadExternalBlockFile`)

The scan looks for the start bytes window by window, and a block is read behind them and a plausible size. Only an
accepted block is skipped as a whole; behind any other start the scan goes on at once. Bytes that cannot be read end the
import. How `ProcessBlock` answers, and what the proof of a block is, are parameters; `good()` holds as long as no
exception is thrown.
-/

namespace AliasWallet
open Lib

def MESSAGE_START_SIZE : Nat := 4

/-- `pchMessageStart`. -/
def Network.messageStart : Network → Bytes
  | main => [0xb5, 0x22, 0x5c, 0xd3]
  | testnet => [0xa3, 0x2c, 0x44, 0xb4]
  | regtest => [0x05, 0xc5, 0x04, 0x3a]

/-- `Unserialize` from the disk, for the sizes that the compiler gives transactions, inputs and outputs. -/
def CBlock.unserialize (sizeofTx sizeofTxIn sizeofTxOut : Nat) : Reader CBlock := do
  let nVersion ← readInt32
  let hashPrevBlock ← readUInt256
  let hashMerkleRoot ← readUInt256
  let nTime ← readUInt32
  let nBits ← readUInt32
  let nNonce ← readUInt32
  let vtx ← readVector (readMany (CTransaction.unserialize sizeofTxIn sizeofTxOut)) (5000000 / sizeofTx)
  let vchBlockSig ← readScript
  return { nVersion, hashPrevBlock, hashMerkleRoot, nTime, nBits, nNonce, vtx, vchBlockSig }

/-- A call that the import makes. -/
inductive ImportCall
  | processBlock (block : CBlock)
  | addToBlockIndex (block : CBlock) (nFile : Int) (nBlockPos : Nat) (hashProof : UInt256)
  | progress (nLoaded : UInt32)
  deriving DecidableEq

/-- The surroundings of the import. -/
structure ImportEnv where
  network : Network
  /-- `nNodeMode` is `NT_FULL`. -/
  fFull : Bool
  fReindexing : Bool
  sizeofTx : Nat
  sizeofTxIn : Nat
  sizeofTxOut : Nat
  getHashProof : CBlock → Option UInt256
  /-- How `ProcessBlock` answers after the blocks that it was passed before. -/
  processBlock : List CBlock → CBlock → Bool

structure ImportState where
  nPos : Nat
  nLoaded : UInt32
  calls : List ImportCall

namespace ImportState

/-- The blocks that `ProcessBlock` was passed. -/
def passed (s : ImportState) : List CBlock := s.calls.filterMap fun
  | .processBlock block => some block
  | _ => none

def call (s : ImportState) (c : ImportCall) : ImportState := { s with calls := s.calls ++ [c] }

end ImportState

section Scan

/-- `memchr`. -/
def memchr (l : Bytes) (c : UInt8) : Option Nat := l.idxOf? c

/-- The scan for the start bytes: the position behind them, or -1. -/
def findStart (start file : Bytes) : Nat → Nat → Option Nat
  | 0, _ => none
  | rounds + 1, nPos =>
    let pchData := (file.drop nPos).take 65536
    let nRead := pchData.length
    if nRead ≤ 8 then some 0xFFFFFFFF
    else
      match memchr (pchData.take (nRead + 1 - MESSAGE_START_SIZE)) (start.headD 0) with
      | some nFind =>
        if (pchData.drop nFind).take MESSAGE_START_SIZE = start then
          some ((nPos + nFind + MESSAGE_START_SIZE) % 2 ^ 32)
        else findStart start file rounds ((nPos + nFind + 1) % 2 ^ 32)
      | none => findStart start file rounds ((nPos + (65536 - MESSAGE_START_SIZE + 1)) % 2 ^ 32)

end Scan

section Import

variable (env : ImportEnv) (nFile : Int) (file : Bytes)

/-- An accepted block. -/
def acceptRecord (nSize : Nat) (block : CBlock) (s : ImportState) : ImportState :=
  let s :=
    if env.fReindexing then
      match env.getHashProof block with
      | some hashProof => s.call (.addToBlockIndex block nFile ((s.nPos + 4) % 2 ^ 32) hashProof)
      | none => s
    else s
  let nLoaded := s.nLoaded + 1
  { s with nLoaded, nPos := (s.nPos + (4 + nSize)) % 2 ^ 32 }.call (.progress nLoaded)

/-- A block is passed on. -/
def processRecord (nSize : Nat) (block : CBlock) (s : ImportState) : ImportState :=
  let fAccepted := env.processBlock s.passed block
  let s := s.call (.processBlock block)
  if fAccepted then acceptRecord env nFile nSize block s else s

/-- What is read at a start; nothing if bytes cannot be read. -/
def readRecord (s : ImportState) : Option ImportState := do
  let (nSize, rest) ← readUInt32.run (file.drop s.nPos)
  if 0 < nSize.toNat ∧ nSize.toNat ≤ MAX_BLOCK_SIZE then
    let (block, _) ← (CBlock.unserialize env.sizeofTx env.sizeofTxIn env.sizeofTxOut).run rest
    return processRecord env nFile nSize.toNat block s
  else return s

/-- The outer loop. It ends when no start is left or an exception is thrown. -/
def importLoop : Nat → ImportState → Option ImportState
  | 0, _ => none
  | rounds + 1, s =>
    if s.nPos = 0xFFFFFFFF then some s
    else
      match findStart env.network.messageStart file (rounds + 1) s.nPos with
      | none => none
      | some nPos =>
        if nPos = 0xFFFFFFFF then some { s with nPos }
        else
          match readRecord env nFile file { s with nPos } with
          | none => some { s with nPos }
          | some s => importLoop rounds s

/-- `LoadExternalBlockFile` with a number of rounds that its loops have: whether blocks were loaded, and the calls. -/
def loadExternalBlockFile (rounds : Nat) : Option (Bool × ImportState) :=
  if env.fFull then
    match importLoop env nFile file rounds ⟨0, 0, []⟩ with
    | none => none
    | some s => some (decide (s.nLoaded > 0), s)
  else some (false, ⟨0, 0, []⟩)

end Import

end AliasWallet
