import AliasWallet.Chain.ConnectBlock
import AliasWallet.Crypto.Concrete
import AliasWallet.Lib.Ripemd160

/-!
# A node that runs

The primitives that the node links against, block files in memory, and a wallet that owns none of
the coins it sees: with these the model evaluates on concrete chains. The last section mines the
first blocks of a test network, with one anonymous coin in block 2.
-/

namespace AliasWallet
open Lib

section Primitives

/-- An ASN.1 integer and what follows it. -/
def derInteger : Bytes → Option (Nat × Bytes)
  | 0x02 :: n :: bs => if n.toNat ≤ bs.length then some (beNat (bs.take n.toNat), bs.drop n.toNat) else none
  | _ => none

/-- The two numbers of a DER signature. -/
def derSignature : Bytes → Option (Nat × Nat)
  | 0x30 :: _ :: bs => do
    let (r, bs) ← derInteger bs
    let (s, _) ← derInteger bs
    return (r, s)
  | _ => none

/-- A public key in compressed or uncompressed form. -/
def decodePubKey (vch : Bytes) : Option Secp256k1.Point :=
  if vch.length = 65 then
    let x := beNat (slice vch 1 32)
    let y := beNat (slice vch 33 32)
    if x < Secp256k1.prime ∧ y < Secp256k1.prime ∧
        y * y % Secp256k1.prime = (x * x * x + 7) % Secp256k1.prime then some (.affine x y) else none
  else Secp256k1.decode vch

def ecdsaVerify (vchPubKey : Bytes) (hash : UInt256) (vchSig : Bytes) : Bool :=
  match decodePubKey vchPubKey, derSignature vchSig with
  | some Q, some (r, s) => Secp256k1.verify Q (beNat (uint256Bytes hash)) r s
  | _, _ => false

def linkedCrypto : ScriptCrypto where
  ripemd160 := ripemd160
  sha1 := sha1
  sha256 := sha256
  hash := sha256d
  verify := ecdsaVerify

end Primitives

section Files

/-- The transactions of a block with the positions at which they are read back. -/
def txPositions (nTxPos : Nat) : List CTransaction → List (UInt32 × CTransaction)
  | [] => []
  | tx :: vtx => (nTxPos.toUInt32, tx) :: txPositions (nTxPos + tx.size) vtx

/-- The first block file: blocks by position. -/
abbrev BlockFile := List (UInt32 × CBlock)

namespace BlockFile

variable (file : BlockFile)

def readBlock (nFile nBlockPos : UInt32) : Option CBlock :=
  if nFile = 1 then file.lookup nBlockPos else none

/-- The transactions of the block at a position. -/
def transactions (nBlockPos : UInt32) (block : CBlock) : List (UInt32 × CTransaction) :=
  txPositions (nBlockPos.toNat + 80 + (compactSize block.vtx.length).length) block.vtx

def readTx (pos : CDiskTxPos) : Option CTransaction := do
  let block ← readBlock file pos.nFile pos.nBlockPos
  (transactions pos.nBlockPos block).lookup pos.nTxPos

/-- The index of all transactions of the file, with every output unspent. -/
def txIndex (hash : UInt256) : Option CTxIndex :=
  file.findSome? fun (nBlockPos, block) =>
    (transactions nBlockPos block).findSome? fun (nTxPos, tx) =>
      if tx.getHash sha256d = hash then some (CTxIndex.new ⟨1, nBlockPos, nTxPos⟩ tx.vout.length)
      else none

/-- An indexed transaction lies in a block of the file. -/
theorem txIndex_pos (hash : UInt256) (e : CTxIndex) (h : file.txIndex hash = some e) :
    e.pos.nBlockPos ∈ file.map Prod.fst := by
  obtain ⟨⟨nBlockPos, block⟩, hmem, htx⟩ := List.exists_of_findSome?_eq_some h
  obtain ⟨⟨nTxPos, tx⟩, -, hentry⟩ := List.exists_of_findSome?_eq_some htx
  simp only [Option.ite_none_right_eq_some, Option.some.injEq] at hentry
  rw [← hentry.2]
  exact List.mem_map_of_mem hmem

end BlockFile

end Files

/-- A wallet without coins in the chain; it takes every transaction back into the pool. -/
def strangerWallet : WalletOps Unit where
  readOldOutputLink _ _ := none
  readOwnedAnonOutput _ _ := none
  findWalletTx _ _ := none
  cacheAnonStats _ _ _ := ()
  addToWallet _ _ _ := ()
  updateAnonStats _ _ := ()
  undo _ _ _ := ()
  removeAnonStats _ _ := some ()
  abort _ _ := ()
  acceptToMemoryPool _ _ _ := true

/-- The node on a block file. All of its blocks are of version 7, so that scrypt never runs. -/
def fileNode (p : ChainParams) (file : BlockFile) : NodeEnv Secp256k1.Point Unit where
  p
  E := secp256k1
  C := linkedCrypto
  scryptBlockHash _ := 0
  readBlock := file.readBlock
  readTx := file.readTx
  wallet := strangerWallet

/-- The block index of a single chain. -/
def singleChain (pindexBest : CBlockIndex) (nAdjustedTime : Int) : ChainState where
  pindexBest
  pindexGenesisBlock := pindexBest.drop (pindexBest.length - 1)
  mapBlockIndex hash := pindexBest.tails.find? fun pindex => (pindex.head?.map BlockNode.hash) == some hash
  pnext hash :=
    ((pindexBest.zip pindexBest.tail).find? fun e => e.2.hash == hash).map fun e => e.1.hash
  nAdjustedTime

/-- A session on a freshly opened database without anonymous records. -/
def fileSession (file : BlockFile) : Session Unit where
  disk := ⟨file.txIndex, fun _ => none, fun _ => none, none⟩
  batch := TxBatch.empty
  loc := ()
  supply _ := ⟨0, 0, 0⟩

/-- A block of version 7 with the root of its transactions. -/
def sealedBlock (hashPrevBlock : UInt256) (nTime nNonce : UInt32) (vtx : List CTransaction) : CBlock :=
  let block : CBlock :=
    { nVersion := 7, hashPrevBlock, hashMerkleRoot := 0, nTime, nBits := 0x207fffff, nNonce, vtx
      vchBlockSig := [] }
  { block with hashMerkleRoot := block.buildMerkleTree sha256d }

section Mined

/-- The genesis block of the test network; its transaction is never read. -/
def testGenesis : CBlock where
  nVersion := 1
  hashPrevBlock := 0
  hashMerkleRoot := 0x48d79d88cdf7d5c84dbb2ffb4fcaab253cebe040a4e7b46cdd507fbb93623e3f
  nTime := 1479594600
  nBits := 0x207fffff
  nNonce := 20
  vtx := []
  vchBlockSig := []

def minedTime (nHeight : Nat) : UInt32 := (1530000000 + 64 * nHeight).toUInt32

def minedCoinBase (nHeight : Nat) (nExtra : UInt8) (nValue : Int64) : CTransaction where
  nVersion := 1
  nTime := minedTime nHeight
  vin := [⟨⟨0, 0xFFFFFFFF⟩, 0x02 :: leBytes 2 nHeight ++ [nExtra], 0xFFFFFFFF⟩]
  vout := [⟨nValue, if nValue = 0 then [] else [0x51]⟩]
  nLockTime := 0

def minedBlock (hashPrevBlock : UInt256) (nHeight : Nat) (nExtra : UInt8) (nValue : Int64)
    (nNonce : UInt32) (vtx : List CTransaction) : CBlock :=
  sealedBlock hashPrevBlock (minedTime nHeight) nNonce (minedCoinBase nHeight nExtra nValue :: vtx)

def minedNode (hash : UInt256) (nBlockPos : UInt32) (nHeight : Nat) : BlockNode :=
  ⟨hash, 1, nBlockPos, if nHeight = 0 then 1479594600 else minedTime nHeight, 2 * (nHeight + 1)⟩

def coinPk : Bytes := beBytes 33 0x029204bc7cf2b42c782940842722bd7ba3f59dbd0beb8362c57967df2151f964cc

/-- The coinbase of block 1 pays for an anonymous coin of five. -/
def mintTx : CTransaction where
  nVersion := ANON_TXN_VERSION
  nTime := minedTime 2
  vin := [⟨⟨0xc88b2cc84fdff2b2962f35f1fa253e8443a7f28e7ad673459b14b961a02ee95f, 0⟩, [0x51, 0x51],
    0xFFFFFFFF⟩]
  vout := [⟨5 * COIN, [OP_RETURN, OP_ANON_MARKER, 33] ++ coinPk ++ [33] ++
      beBytes 33 0x024e5872a40c8e850bd227dc2aec0e3ceff05708c83bbb871484ac3db71c0a144f⟩,
    ⟨1999994 * COIN, [0x51]⟩]
  nLockTime := 0

/-- A spend of the coin with a ring of one, as it was allowed before fork V3. -/
def coinSpend (keyID sigc sigr : Nat) : CTransaction where
  nVersion := ANON_TXN_VERSION
  nTime := minedTime 9
  vin := [⟨⟨0xd7f33abc04cb76adb34c19d5b48c0b80d8e57209c2641e753e5b2ff8d2c24b03, 0x1001b⟩,
    [OP_RETURN, OP_ANON_MARKER] ++ coinPk ++ beBytes 32 sigc ++ beBytes 32 sigr, 0xFFFFFFFF⟩]
  vout := [⟨499990000, payToPubKeyHash keyID⟩]
  nLockTime := 0

def firstSpend : CTransaction :=
  coinSpend 1 0x20247d1e7743a7d241482c7477570773e603564b53095d264c0c2d83e558b839
    0x8b74fb6d8b9dbdc83c1ba2d57dd859a12a29e51e7f9971edf44cf2e84c80d138

/-- The same coin to another key. -/
def secondSpend : CTransaction :=
  coinSpend 2 0x4f597ec68c87f0454773f97126a7514aef119b0c7fd358c91b1042d16d5306a9
    0xcc21f637cda09bf9ea0b405e8804cc74b0434d9b0387658c0f7ee17779e5d544

/-- Hash and nonce of the blocks 1 to 12. -/
def minedHashes : List (UInt256 × UInt32) :=
  [(0x6f17542ce3f082e95309367504a958f6cb866d0416fa3fc1726b063766cca090, 0),
   (0xc11b8a0625c7982a185f37ef356cc2abc1dbd8668bf8173f8fd3d8a604bfff4, 2),
   (0x51aeec7ffb25952dcb1604178e0db37b3ee8bf6f977cf3893834fe6eda15a4c7, 0),
   (0x54c6571717cac5a64494cc29b05ecd8ad91b9c59e15ab0315cb05c3d89549f48, 0),
   (0x221d815bfc5a749385226d84a2e242d9c74b34ac1aa866d63a985249a6a06aa2, 3),
   (0x6accdc14bcfcbb3d229a9518940dd5fad7f577cdd0d3340a4435ca95f851a2b6, 0),
   (0x68ae9c96a3e8eb1ff7737f6557de12ce48595a7f4c3a3c0d8655ee0f4251f93a, 0),
   (0x1a73c77bcfb3a1c5c960b05c0ebf308c557fa099dd685638016b9dad780d0a7d, 1),
   (0xfd72bc404420b5d6cccbf606d6cd8d93ee0d7425c4b14933122df728e2e1719, 2),
   (0x65ccfc23d40f10fdbb21d93a8eacf1cc8a4850729ccdae805a22967abff5b311, 4),
   (0x445f662438daea5530fa690b7e8af31688c2dd9f6427c7113e8286bf8e7e360, 2),
   (0x1f3611c05bf369372a61a76630286e095f078693389247a6f2fbb8e5916cb1d5, 1)]

def minedHash : Nat → UInt256
  | 0 => testNetParams.hashGenesisBlock
  | k + 1 => (minedHashes.getD k (0, 0)).1

def minedChainBlock : Nat → CBlock
  | 0 => testGenesis
  | k + 1 => minedBlock (minedHash k) (k + 1) 0 (if k = 0 then 2000000 * COIN else 0)
      (minedHashes.getD k (0, 0)).2 (if k = 1 then [mintTx] else [])

def minedPos (nHeight : Nat) : UInt32 := (8 + 2000 * nHeight).toUInt32

def minedIndex : Nat → CBlockIndex
  | 0 => [minedNode (minedHash 0) (minedPos 0) 0]
  | k + 1 => minedNode (minedHash (k + 1)) (minedPos (k + 1)) (k + 1) :: minedIndex k

/-- Block 13 with the first spend of the coin. -/
def spendBlock : CBlock := minedBlock (minedHash 12) 13 0 0 2 [firstSpend]

def spendIndex : CBlockIndex :=
  minedNode 0x35f2d3cb076765e95ca9f86c21ee92d715989a508b1647292651e65fd5736de8 (minedPos 13) 13 ::
    minedIndex 12

def minedFile : BlockFile := (List.range 13).map fun k => (minedPos k, minedChainBlock k)

/-- The test node on a file; scrypt is known on the genesis block. -/
def testNode (file : BlockFile) : NodeEnv Secp256k1.Point Unit :=
  { fileNode testNetParams file with
    scryptBlockHash := fun header =>
      if header = testGenesis.headerBytes then testNetParams.hashGenesisBlock else 0 }

/-- The records of the coin after block 2. -/
def minedDisk : Disk where
  txIndex := minedFile.txIndex
  keyImages _ := none
  anonOutputs pk := if pk = coinPk then some {
      outpoint := ⟨mintTx.getHash sha256d, 0⟩, nValue := 5 * COIN, nBlockHeight := 2
      nCompromised := 0, fCoinStake := false } else none
  hashBestChain := some (minedHash 12)

def minedSession : Session Unit := ⟨minedDisk, TxBatch.empty, (), fun _ => ⟨0, 0, 0⟩⟩

end Mined

section Eval

def evalEcdsaVerify (vchPubKey : Bytes) (hash : UInt256) (vchSig : Bytes) : Bool :=
  match decodePubKey vchPubKey, derSignature vchSig with
  | some Q, some (r, s) => Secp256k1.evalVerify Q (beNat (uint256Bytes hash)) r s
  | _, _ => false

/-- `fileNode` on the primitives as the kernel computes them best. -/
def evalFileNode (p : ChainParams) (file : BlockFile) : NodeEnv Secp256k1.Point Unit :=
  { fileNode p file with
    E := evalSecp256k1
    C := { linkedCrypto with sha256 := evalSha256, hash := evalSha256d, verify := evalEcdsaVerify } }

theorem fileNode_eq_eval (p : ChainParams) (file : BlockFile) : fileNode p file = evalFileNode p file := by
  have hverify : ecdsaVerify = evalEcdsaVerify := by
    unfold ecdsaVerify evalEcdsaVerify
    rw [Secp256k1.verify_eq_eval]
  rw [evalFileNode, ← secp256k1_eq_eval, ← sha256d_eq_eval, ← sha256_eq_eval, ← hverify]
  rfl

/-- `testNode` on the primitives as the kernel computes them best. -/
def evalTestNode (file : BlockFile) : NodeEnv Secp256k1.Point Unit :=
  { evalFileNode testNetParams file with
    scryptBlockHash := fun header =>
      if header = testGenesis.headerBytes then testNetParams.hashGenesisBlock else 0 }

theorem testNode_eq_eval (file : BlockFile) : testNode file = evalTestNode file := by
  rw [testNode, fileNode_eq_eval, evalTestNode]

def evalSealedBlock (hashPrevBlock : UInt256) (nTime nNonce : UInt32) (vtx : List CTransaction) : CBlock :=
  let block : CBlock :=
    { nVersion := 7, hashPrevBlock, hashMerkleRoot := 0, nTime, nBits := 0x207fffff, nNonce, vtx
      vchBlockSig := [] }
  { block with hashMerkleRoot := block.buildMerkleTree evalSha256d }

theorem sealedBlock_eq_eval : sealedBlock = evalSealedBlock := by
  funext hashPrevBlock nTime nNonce vtx
  rw [sealedBlock, evalSealedBlock, sha256d_eq_eval]

def evalMinedBlock (hashPrevBlock : UInt256) (nHeight : Nat) (nExtra : UInt8) (nValue : Int64)
    (nNonce : UInt32) (vtx : List CTransaction) : CBlock :=
  evalSealedBlock hashPrevBlock (minedTime nHeight) nNonce (minedCoinBase nHeight nExtra nValue :: vtx)

theorem minedBlock_eq_eval : minedBlock = evalMinedBlock := by
  funext hashPrevBlock nHeight nExtra nValue nNonce vtx
  rw [minedBlock, evalMinedBlock, sealedBlock_eq_eval]

def evalMinedChainBlock : Nat → CBlock
  | 0 => testGenesis
  | k + 1 => evalMinedBlock (minedHash k) (k + 1) 0 (if k = 0 then 2000000 * COIN else 0)
      (minedHashes.getD k (0, 0)).2 (if k = 1 then [mintTx] else [])

theorem minedChainBlock_eq_eval : minedChainBlock = evalMinedChainBlock := by
  funext k
  cases k with
  | zero => rfl
  | succ k => rw [minedChainBlock, evalMinedChainBlock, minedBlock_eq_eval]

def evalMinedFile : BlockFile := (List.range 13).map fun k => (minedPos k, evalMinedChainBlock k)

theorem minedFile_eq_eval : minedFile = evalMinedFile := by
  rw [minedFile, evalMinedFile, minedChainBlock_eq_eval]

def BlockFile.evalTxIndex (file : BlockFile) (hash : UInt256) : Option CTxIndex :=
  file.findSome? fun (nBlockPos, block) =>
    (BlockFile.transactions nBlockPos block).findSome? fun (nTxPos, tx) =>
      if tx.getHash evalSha256d = hash then some (CTxIndex.new ⟨1, nBlockPos, nTxPos⟩ tx.vout.length)
      else none

theorem BlockFile.txIndex_eq_eval : BlockFile.txIndex = BlockFile.evalTxIndex := by
  funext file hash
  rw [BlockFile.txIndex, BlockFile.evalTxIndex, sha256d_eq_eval]

end Eval

end AliasWallet
