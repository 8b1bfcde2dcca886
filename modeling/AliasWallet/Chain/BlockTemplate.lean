import AliasWallet.Chain.AcceptBlock

/-!
# Block templates (`miner.cpp`)

`CreateNewBlock` first sorts the memory pool into a priority queue and a list of transactions that wait
for others, then takes the queue from the top. `none` stands for undefined behaviour: an entry of the
waiting list that was freed, or an output that does not exist.
-/

namespace AliasWallet
open Lib

section Priority

/-- The operations on `double` that the priorities use. -/
structure DoubleOps (D : Type) where
  ofInt : Int → D
  add : D → D → D
  mul : D → D → D
  div : D → D → D
  lt : D → D → Bool
  eq : D → D → Bool

/-- The heap functions of the standard library. Nothing here depends on the order they establish, so
only their effect on the elements is kept. -/
structure HeapOps (T : Type) where
  makeHeap : (T → T → Bool) → List T → List T
  pushHeap : (T → T → Bool) → List T → T → List T
  /-- What is left once the front has been moved behind the others and removed. -/
  popHeap : (T → T → Bool) → T → List T → List T
  makeHeap_perm : ∀ lt l, (makeHeap lt l).Perm l
  pushHeap_perm : ∀ lt l x, (pushHeap lt l x).Perm (x :: l)
  popHeap_perm : ∀ lt x l, (popHeap lt x l).Perm l

variable {D : Type}

structure TxPriority (D : Type) where
  dPriority : D
  dFeePerKb : D
  nFee : Int64
  ptx : CTransaction

/-- `TxPriorityCompare`. -/
def txPriorityCompare (F : DoubleOps D) (byFee : Bool) (a b : TxPriority D) : Bool :=
  if byFee then
    if F.eq a.dFeePerKb b.dFeePerKb then F.lt a.dPriority b.dPriority
    else F.lt a.dFeePerKb b.dFeePerKb
  else
    if F.eq a.dPriority b.dPriority then F.lt a.dFeePerKb b.dFeePerKb
    else F.lt a.dPriority b.dPriority

structure COrphan (D : Type) where
  ptx : CTransaction
  setDependsOn : List UInt256
  dPriority : D
  dFeePerKb : D
  nFee : Int64

end Priority

/-- The limits of the miner. The largest size is at least 1000 (`init.cpp`). -/
structure BlockLimits where
  nBlockMaxSize : Nat
  nBlockMinSize : Nat
  nBlockPrioritySize : Nat
  clamped : 1000 ≤ nBlockMaxSize

/-- The limits from the arguments `-blockmaxsize`, `-blockminsize` and `-blockprioritysize`. -/
def BlockLimits.ofArgs (nMax nMin nPriority : Nat) : BlockLimits where
  nBlockMaxSize := max 1000 (min (MAX_BLOCK_SIZE - 1000) nMax)
  nBlockMinSize := min (max 1000 (min (MAX_BLOCK_SIZE - 1000) nMax)) nMin
  nBlockPrioritySize := min (max 1000 (min (MAX_BLOCK_SIZE - 1000) nMax)) nPriority
  clamped := Nat.le_max_left _ _

/-- `IsFinal()` with its default arguments. -/
def CTransaction.isFinal (nBestHeight nAdjustedTime : Int) (tx : CTransaction) : Bool :=
  tx.nLockTime == 0 ||
    decide ((tx.nLockTime.toNat : Int) <
      if (tx.nLockTime.toNat : Int) < LOCKTIME_THRESHOLD then nBestHeight else nAdjustedTime) ||
    tx.vin.all CTxIn.isFinal

/-- `GetMinFee(nBlockSize, GMF_BLOCK)`: the price rises as the block fills up. -/
def getMinFeeAt (p : ChainParams) (nBlockSize : Nat) : Int64 :=
  let range (nMinFee : Int64) := if moneyRange nMinFee then nMinFee else MAX_MONEY
  if nBlockSize ≠ 1 ∧ nBlockSize ≥ MAX_BLOCK_SIZE_GEN / 2 then
    if nBlockSize ≥ MAX_BLOCK_SIZE_GEN then MAX_MONEY
    else range (p.nMinTxFee * Int64.ofNat (MAX_BLOCK_SIZE_GEN / (MAX_BLOCK_SIZE_GEN - nBlockSize)))
  else range p.nMinTxFee

/-- `MANDATORY_SCRIPT_VERIFY_FLAGS`. -/
def mandatoryScriptFlags : ScriptFlags where
  p2sh := true
  discourageUpgradableNops := false
  nullDummy := true
  strictEnc := true
  allowEmptySig := false
  fixHashType := false
  checkLockTimeVerify := true

section Connect

variable {Pt L : Type} (env : NodeEnv Pt L) (pindexBlock : CBlockIndex) (tx : CTransaction)

/-- The second loop of `ConnectInputs` for the miner: scripts are always verified. -/
def spendInputMiner (flags : ScriptFlags) (posThisTx : CDiskTxPos) (s : MapPrevTx × MapTestPool)
    (e : CTxIn × Nat) : Option (MapPrevTx × MapTestPool) := do
  let (inputs, mapTestPool) := s
  let (txin, i) := e
  if tx.skipsInput txin then return s
  let hash := txin.prevout.hash
  let n := txin.prevout.n.toNat
  let (txindex, txPrev) ← inputs hash
  let spent ← txindex.vSpent[n]?
  if ¬ spent.isNull then none
  if ¬ verifySignature env.p env.C tx i flags txPrev then none
  let txindex := { txindex with vSpent := txindex.vSpent.set n posThisTx }
  return (Function.update inputs hash (some (txindex, txPrev)),
    Function.update mapTestPool hash (some txindex))

/-- `ConnectInputs` with `fMiner`: the changed `mapTestPool`. -/
def connectInputsMiner (view : AnonView) (inputs : MapPrevTx) (mapTestPool : MapTestPool)
    (posThisTx : CDiskTxPos) (flags : ScriptFlags) : Option MapTestPool := do
  if tx.isCoinBase then return mapTestPool
  let nValueIn ← tx.vin.foldlM (checkInputValue env pindexBlock tx inputs) 0
  let (_, mapTestPool) ← tx.vin.zipIdx.foldlM (spendInputMiner env tx flags posThisTx)
    (inputs, mapTestPool)
  let nSumAnon ← anonValueIn env tx view
  if checkFees env tx (nValueIn + nSumAnon) then some mapTestPool else none

end Connect

section Collect

variable {Pt L D : Type} (env : NodeEnv Pt L) (c : ChainState) (pool : CTxMemPool) (disk : Disk)
  (F : DoubleOps D)

/-- `ReadFromDisk(txdb, prevout, txindex)`: the index entry and the output. -/
def readFromTxdb (prevout : COutPoint) : Option (CTxIndex × CTxOut) := do
  let txindex ← disk.txIndex prevout.hash
  let txPrev ← env.readTx txindex.pos
  let txout ← txPrev.vout[prevout.n.toNat]?
  return (txindex, txout)

/-- `CheckAnonInputs` without the test whether a spending transaction is known; `none` where it
fails. -/
def anonSum (tx : CTransaction) : Option Int64 :=
  if tx.nVersion = ANON_TXN_VERSION then
    (checkAnonInputs env.p env.E env.C.hash (env.anonView c pool disk disk.txIndex) tx false).toOption
  else some 0

/-- The loop over the inputs of a pooled transaction. A pointer into `vOrphan` is its position; the
position of a freed entry holds nothing. -/
structure InputScan (D : Type) where
  porphan : Option Nat
  dPriority : D
  nTotalIn : Int64
  vOrphan : List (Option (COrphan D))
  mapDependers : UInt256 → List Nat

/-- `setDependsOn.insert` through a pointer. -/
def dependOn (hash : UInt256) (o : Option (COrphan D)) : Option (COrphan D) :=
  o.map fun o => { o with setDependsOn := o.setDependsOn.insert hash }

/-- The transaction waits for `hash`. -/
def InputScan.waitFor (st : InputScan D) (tx : CTransaction) (hash : UInt256) : InputScan D :=
  let porphan := st.porphan.getD st.vOrphan.length
  let vOrphan := if st.porphan.isSome then st.vOrphan
    else st.vOrphan ++ [some ⟨tx, [], F.ofInt 0, F.ofInt 0, 0⟩]
  { st with
    porphan := some porphan
    vOrphan := vOrphan.modify porphan (dependOn hash)
    mapDependers := Function.update st.mapDependers hash (st.mapDependers hash ++ [porphan]) }

/-- The scan, with `fMissingInputs`. -/
def scanInputs (tx : CTransaction) : List CTxIn → InputScan D → Option (InputScan D × Bool)
  | [], st => some (st, false)
  | txin :: vin, st =>
    if tx.skipsInput txin then scanInputs tx vin st
    else
      match readFromTxdb env disk txin.prevout with
      | some (txindex, txout) =>
        scanInputs tx vin { st with
          nTotalIn := st.nTotalIn + txout.nValue
          dPriority := F.add st.dPriority
            (F.mul (F.ofInt txout.nValue.toInt) (F.ofInt (env.getDepthInMainChain c txindex))) }
      | none =>
        match pool.lookup txin.prevout.hash with
        | none =>
          -- `vOrphan.pop_back()` frees the entry, and `mapDependers` keeps pointing to it
          some ({ st with vOrphan := match st.porphan with
            | some porphan => st.vOrphan.set porphan none
            | none => st.vOrphan }, true)
        | some txPrev =>
          match txPrev.vout[txin.prevout.n.toNat]? with
          | none => none
          | some txout =>
            let st := st.waitFor F tx txin.prevout.hash
            scanInputs tx vin { st with nTotalIn := st.nTotalIn + txout.nValue }

structure Collected (D : Type) where
  vecPriority : List (TxPriority D)
  vOrphan : List (Option (COrphan D))
  mapDependers : UInt256 → List Nat

/-- One round of the loop over `mempool.mapTx`. -/
def collectTx (st : Collected D) (tx : CTransaction) : Option (Collected D) :=
  if tx.isCoinBase || tx.isCoinStake || !tx.isFinal c.nBestHeight c.nAdjustedTime then some st
  else do
    let (scan, fMissingInputs) ← scanInputs env c pool disk F tx tx.vin
      ⟨none, F.ofInt 0, 0, st.vOrphan, st.mapDependers⟩
    let st := { st with vOrphan := scan.vOrphan, mapDependers := scan.mapDependers }
    match anonSum env c pool disk tx with
    | none => some st
    | some nSumAnon =>
      if fMissingInputs then some st
      else
        let nTotalIn := scan.nTotalIn + nSumAnon
        let nTxSize := F.ofInt tx.size
        let dPriority := F.div scan.dPriority nTxSize
        let nFee := nTotalIn - tx.getValueOut
        let dFeePerKb := F.div (F.ofInt nFee.toInt) (F.div nTxSize (F.ofInt 1000))
        match scan.porphan with
        | some porphan =>
          some { st with vOrphan :=
            st.vOrphan.modify porphan (Option.map fun o => { o with dPriority, dFeePerKb }) }
        | none => some { st with vecPriority := st.vecPriority ++ [⟨dPriority, dFeePerKb, nFee, tx⟩] }

def collectPool : Option (Collected D) :=
  (pool.mapTx.map Prod.snd).foldlM (collectTx env c pool disk F) ⟨[], [], fun _ => []⟩

end Collect

section Template

variable {Pt L D : Type} (env : NodeEnv Pt L) (c : ChainState) (pool : CTxMemPool) (disk : Disk)
  (F : DoubleOps D) (heap : HeapOps (TxPriority D)) (limits : BlockLimits) (fProofOfStake : Bool)

structure TemplateState (D : Type) where
  vecPriority : List (TxPriority D)
  vOrphan : List (Option (COrphan D))
  fSortedByFee : Bool
  mapTestPool : MapTestPool
  /-- The transactions behind the coinbase. -/
  vtx : List CTransaction
  nBlockSize : Nat
  nBlockSigOps : Nat
  nFees : Int64

/-- The tests on a transaction before its inputs are fetched. The coinbase of the template has the time
of the clock. -/
def withinLimits (st : TemplateState D) (e : TxPriority D) : Bool :=
  decide (st.nBlockSize + e.ptx.size < limits.nBlockMaxSize) &&
    decide (st.nBlockSigOps + e.ptx.getLegacySigOpCount < MAX_BLOCK_SIGOPS) &&
    decide ((e.ptx.nTime.toNat : Int) ≤ c.nAdjustedTime) &&
    !(st.fSortedByFee && F.lt e.dFeePerKb (F.ofInt env.p.nMinTxFee.toInt) &&
      decide (st.nBlockSize + e.ptx.size ≥ limits.nBlockMinSize))

/-- The switch of the order once the space for high priorities is used up. -/
def sortByFee (st : TemplateState D) (e : TxPriority D) : TemplateState D :=
  if !st.fSortedByFee && (decide (st.nBlockSize + e.ptx.size ≥ limits.nBlockPrioritySize) ||
      F.lt e.dPriority (F.ofInt (COIN.toInt * 144 / 250))) then
    { st with
      fSortedByFee := true
      vecPriority := heap.makeHeap (txPriorityCompare F true) st.vecPriority }
  else st

/-- The fee of a transaction: that of the queue, or computed again where it is zero. -/
def templateFee (inputs : MapPrevTx) (e : TxPriority D) : Option Int64 :=
  if e.nFee = 0 then
    (anonSum env c pool disk e.ptx).map fun nSumAnon =>
      getValueIn inputs e.ptx - e.ptx.getValueOut + nSumAnon
  else some e.nFee

/-- What connecting a transaction adds: the changed `mapTestPool`, its signature operations and its
fee; `none` where the transaction is skipped. -/
def connectTemplateTx (st : TemplateState D) (e : TxPriority D) :
    Option (MapTestPool × Nat × Int64) := do
  let inputs ← fetchInputs env pool disk.txIndex true e.ptx st.mapTestPool
  let nFee ← templateFee env c pool disk inputs e
  if nFee < getMinFeeAt env.p st.nBlockSize then none
  let nTxSigOps := e.ptx.getLegacySigOpCount + getP2SHSigOpCount inputs e.ptx
  if st.nBlockSigOps + nTxSigOps ≥ MAX_BLOCK_SIGOPS then none
  let mapTestPool ← connectInputsMiner env c.pindexBest e.ptx
    (env.anonView c pool disk disk.txIndex) inputs st.mapTestPool CDiskTxPos.inMemoryPool
    mandatoryScriptFlags
  return (Function.update mapTestPool (env.txid e.ptx)
    (some (CTxIndex.new CDiskTxPos.inMemoryPool e.ptx.vout.length)), nTxSigOps, nFee)

/-- One pointer of `mapDependers[hash]`. -/
def releaseDepender (hash : UInt256) (st : TemplateState D) (porphan : Nat) :
    Option (TemplateState D) :=
  match st.vOrphan[porphan]? with
  | some (some o) =>
    if o.setDependsOn.isEmpty then some st
    else
      let setDependsOn := o.setDependsOn.filter (· != hash)
      let vOrphan := st.vOrphan.set porphan (some { o with setDependsOn })
      if setDependsOn.isEmpty then
        let e : TxPriority D := ⟨o.dPriority, o.dFeePerKb, o.nFee, o.ptx⟩
        some { st with
          vOrphan
          vecPriority := heap.pushHeap (txPriorityCompare F st.fSortedByFee) st.vecPriority e }
      else some { st with vOrphan }
  | _ => none

/-- One round of the loop over the queue, for the entry at its front. -/
def templateRound (mapDependers : UInt256 → List Nat) (st : TemplateState D) (e : TxPriority D) :
    Option (TemplateState D) :=
  if ¬ withinLimits env c F limits st e then some st
  else
    let st := sortByFee F heap limits st e
    match connectTemplateTx env c pool disk st e with
    | none => some st
    | some (mapTestPool, nTxSigOps, nFee) =>
      (mapDependers (env.txid e.ptx)).foldlM (releaseDepender F heap (env.txid e.ptx))
        { st with
          mapTestPool
          vtx := st.vtx ++ [e.ptx]
          nBlockSize := st.nBlockSize + e.ptx.size
          nBlockSigOps := st.nBlockSigOps + nTxSigOps
          nFees := st.nFees + nFee }

/-- The loop over the queue. Each round takes one entry off, and a pooled transaction enters the queue
once at most. -/
def templateLoop (mapDependers : UInt256 → List Nat) : Nat → TemplateState D → Option (TemplateState D)
  | 0, st => some st
  | n + 1, st =>
    match st.vecPriority with
    | [] => some st
    | e :: rest => do
      let st ← templateRound env c pool disk F heap limits mapDependers { st with
        vecPriority := heap.popHeap (txPriorityCompare F st.fSortedByFee) e rest } e
      templateLoop mapDependers n st

/-- The transactions that `CreateNewBlock` collects, with their fees. -/
def collectTransactions : Option (TemplateState D) := do
  let collected ← collectPool env c pool disk F
  let fSortedByFee := limits.nBlockPrioritySize == 0
  templateLoop env c pool disk F heap limits collected.mapDependers pool.mapTx.length
    { vecPriority := heap.makeHeap (txPriorityCompare F fSortedByFee) collected.vecPriority
      vOrphan := collected.vOrphan
      fSortedByFee
      mapTestPool := fun _ => none
      vtx := []
      nBlockSize := 1000
      nBlockSigOps := 100
      nFees := 0 }

/-- The coinbase of a template. The key of the miner and the height in the input are left open. -/
def templateCoinBase (nTime : UInt32) (scriptSig scriptPubKey : Bytes) (nValue : Int64) : CTransaction where
  nVersion := 1
  nTime
  vin := [⟨⟨0, 0xFFFFFFFF⟩, if fProofOfStake then scriptSig else [], 0xFFFFFFFF⟩]
  vout := [if fProofOfStake then ⟨0, []⟩ else ⟨nValue, scriptPubKey⟩]
  nLockTime := 0

/-- `CreateNewBlock`: the template and its fees. -/
def createNewBlock (nBits : UInt32) (scriptSig scriptPubKey : Bytes) : Option (CBlock × Int64) := do
  let st ← collectTransactions env c pool disk F heap limits
  let nHeight := c.nBestHeight + 1
  let vtx := templateCoinBase fProofOfStake c.nAdjustedTime.toNat.toUInt32 scriptSig scriptPubKey
    (getProofOfWorkReward env.p nHeight) :: st.vtx
  let nMaxTime := vtx.foldl (fun n tx => max n (tx.nTime.toNat : Int)) 0
  let nTime := max (getPastTimeLimit env.p c.pindexBest + 1) nMaxTime
  return ({
    nVersion := if env.p.isProtocolV2 nHeight then 7 else 6
    hashPrevBlock := c.hashBestChain
    hashMerkleRoot := 0
    nTime := (if fProofOfStake then nTime else max nTime c.nAdjustedTime).toNat.toUInt32
    nBits
    nNonce := 0
    vtx
    vchBlockSig := [] }, st.nFees)

end Template

end AliasWallet
