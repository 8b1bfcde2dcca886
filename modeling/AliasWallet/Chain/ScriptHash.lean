import AliasWallet.Chain.ConnectSpec
import AliasWallet.Chain.ConcreteNode

/-!
# Script hashes in blocks

The flags of `ConnectBlock` lack the bit under which `VerifyScript` runs a redeem script. A spend of
a script hash in a block therefore needs the redeem script, but the script need not hold.
-/

namespace AliasWallet
open Lib

section ScriptHash

variable {Pt L : Type} (env : NodeEnv Pt L) (c : ChainState) (pool : CTxMemPool) (s : Session L)
  (block : CBlock) (pindex : CBlockIndex)

/-- The output that the transparent input `i` of transaction `k` spends when the block is
connected. -/
def transparentSpend (k i : Nat) : Option (CTransaction × CTxIn × CTxOut) := do
  let tx ← block.vtx[k]?
  let t ← (block.vtx.take k).foldlM (connectTx env c pool s pindex false)
    (initTotals block pindex false)
  let txin ← tx.vin[i]?
  if tx.isCoinBase || tx.skipsInput txin then none
  let inputs ← fetchInputs env pool s.readTxIndex true tx t.mapQueuedChanges
  let txout ← getOutputFor inputs txin
  return (tx, txin, txout)

/-- The scriptSig holds only literals, and the last of them, run on the others, ends true. -/
def RedeemScriptHolds (tx : CTransaction) (i : Nat) (txin : CTxIn) : Prop :=
  let flags := blockScriptFlags env.p (CBlockIndex.nHeight pindex)
  CScript.isPushOnly txin.scriptSig ∧ ∃ redeemScript stack,
    evalScript env.p env.C tx i flags.toEvalFlags [] txin.scriptSig = some (redeemScript :: stack) ∧
      evalsToTrue env.p env.C tx i flags stack redeemScript

/-- The flags of the block with `SCRIPT_VERIFY_P2SH`. -/
def p2shFlags : ScriptFlags :=
  { blockScriptFlags env.p (CBlockIndex.nHeight pindex) with p2sh := true }

/-- With the missing bit `VerifyScript` adds the rule for redeem scripts and changes nothing else. -/
theorem verifyScript_p2sh_iff (tx : CTransaction) (i : Nat) (txin : CTxIn) (scriptPubKey : CScript)
    (hp2sh : CScript.isPayToScriptHash scriptPubKey)
    (hverify : verifyScript env.p env.C tx i (blockScriptFlags env.p (CBlockIndex.nHeight pindex))
      txin.scriptSig scriptPubKey) :
    verifyScript env.p env.C tx i (p2shFlags env pindex) txin.scriptSig scriptPubKey ↔
      RedeemScriptHolds env pindex tx i txin := by
  unfold verifyScript at hverify ⊢
  simp only [p2shFlags, RedeemScriptHolds]
  cases hstack : evalScript env.p env.C tx i
      (blockScriptFlags env.p (CBlockIndex.nHeight pindex)).toEvalFlags [] txin.scriptSig with
  | none => simp [hstack] at hverify
  | some stack =>
    simp only [hstack, Bool.and_eq_true] at hverify
    have hpub := hverify.1
    unfold evalsToTrue at hpub ⊢
    simp only [hpub, hp2sh, verifyRedeemScript, evalsToTrue]
    cases stack with
    | nil => simp
    | cons redeemScript stack => simp

/-- A transparent input of an accepted block has passed `VerifyScript` with the block's flags. -/
theorem transparentSpend_verified (haccept : (connectBlock env c pool false s block pindex).2 = true)
    (hscripts : env.p.totalBlocksEstimate ≤ c.nBestHeight) (k i : Nat) (tx : CTransaction)
    (txin : CTxIn) (txout : CTxOut)
    (hspend : transparentSpend env c pool s block pindex k i = some (tx, txin, txout)) :
    verifyScript env.p env.C tx i (blockScriptFlags env.p (CBlockIndex.nHeight pindex))
      txin.scriptSig txout.scriptPubKey := by
  rw [connectBlock_accepts, Bool.and_eq_true] at haccept
  simp only [transparentSpend, Option.bind_eq_bind, Option.bind_none, Option.ite_none_left_eq_some,
    Option.bind_eq_some_iff, Option.pure_def, Option.some.injEq, Prod.mk.injEq] at hspend
  obtain ⟨tx, hk, t, ht, txin, hi, htransparent, inputs, hfetch, txout, hout, rfl, rfl, rfl⟩ := hspend
  rw [Bool.or_eq_true, not_or] at htransparent
  have hsplit : block.vtx = block.vtx.take k ++ tx :: block.vtx.drop (k + 1) := by
    obtain ⟨hlt, rfl⟩ := List.getElem?_eq_some_iff.mp hk
    rw [← List.drop_eq_getElem_cons hlt, List.take_append_drop]
  obtain ⟨t', hround⟩ := checkTransactions_reaches env c pool s block pindex false haccept.2 tx t
    ⟨_, _, hsplit, ht⟩
  obtain ⟨-, q, -, hcases⟩ := connectTx_eq_some env c pool s pindex false t t' tx hround
  cases hcases with
  | inl hbase => exact absurd hbase.1 htransparent.1
  | inr hinputs =>
    obtain ⟨-, inputs', hconnected⟩ := hinputs
    obtain rfl : inputs = inputs' := Option.some.inj (hfetch.symm.trans hconnected.fetched)
    have hon : checksScripts env c true := by
      simp [checksScripts, hscripts]
    obtain ⟨txindex, txPrev, hprev, hsig⟩ := connectInputs_verified env c tx true _ _ pindex _ inputs _
      q htransparent.1 hon hconnected.connected i txin hi htransparent.2
    have hprevout : txPrev.vout[txin.prevout.n.toNat]? = some txout := by
      simpa [getOutputFor, hprev] using hout
    simp only [verifySignature, hi, hprevout, Bool.and_eq_true] at hsig
    exact hsig.2

private theorem transparentSpend_bound (k i : Nat) (tx : CTransaction) (txin : CTxIn) (txout : CTxOut)
    (hspend : transparentSpend env c pool s block pindex k i = some (tx, txin, txout)) :
    k < block.vtx.length ∧ i < (block.vtx.map fun tx => tx.vin.length).foldr max 0 := by
  simp only [transparentSpend, Option.bind_eq_bind, Option.bind_none, Option.ite_none_left_eq_some,
    Option.bind_eq_some_iff] at hspend
  obtain ⟨tx, hk, -, -, txin, hi, -⟩ := hspend
  obtain ⟨hlt, rfl⟩ := List.getElem?_eq_some_iff.mp hk
  obtain ⟨hi, -⟩ := List.getElem?_eq_some_iff.mp hi
  refine ⟨hlt, lt_of_lt_of_le hi ?_⟩
  exact List.le_max_of_le (List.mem_map_of_mem (List.getElem_mem hlt)) le_rfl

end ScriptHash

section Scene

variable (op : UInt8) (hash160 : Nat)

/-- One coin for the script hash of the one-byte script `op`, and a stake that anyone may spend. -/
def scriptHashFunding : CTransaction where
  nVersion := 1
  nTime := 1530000000
  vin := [⟨⟨1, 0⟩, [], 0xFFFFFFFF⟩]
  vout := [⟨COIN, [0xa9, 20] ++ beBytes 20 hash160 ++ [0x87]⟩, ⟨10 * COIN, [0x51]⟩]
  nLockTime := 0

def stakedCoinBase (nTime : UInt32) : CTransaction where
  nVersion := 1
  nTime
  vin := [⟨⟨0, 0xFFFFFFFF⟩, [0x02, 0xf7, 0x01], 0xFFFFFFFF⟩]
  vout := [⟨0, []⟩]
  nLockTime := 0

def scriptHashFile : BlockFile :=
  [(8, sealedBlock 0 1530000000 0 [stakedCoinBase 1530000000, scriptHashFunding hash160])]

def scriptHashStake : CTransaction where
  nVersion := 1
  nTime := 1530001600
  vin := [⟨⟨(scriptHashFunding hash160).getHash sha256d, 1⟩, [], 0xFFFFFFFF⟩]
  vout := [⟨0, []⟩, ⟨10 * COIN, [0x51]⟩]
  nLockTime := 0

/-- The coin is taken with nothing but the redeem script. -/
def scriptHashSpend : CTransaction where
  nVersion := 1
  nTime := 1530001600
  vin := [⟨⟨(scriptHashFunding hash160).getHash sha256d, 0⟩, [0x01, op], 0xFFFFFFFF⟩]
  vout := [⟨COIN - 1000, payToPubKeyHash 1⟩]
  nLockTime := 0

def scriptHashBlock : CBlock :=
  sealedBlock 502 1530001600 0
    [stakedCoinBase 1530001600, scriptHashStake hash160, scriptHashSpend op hash160]

/-- Heights 502 to 0. -/
def scriptHashPrev : CBlockIndex :=
  (List.range 503).reverse.map fun k => ⟨BitVec.ofNat 256 k, 1, 8, 1530000000, k⟩

def scriptHashIndex : CBlockIndex :=
  ⟨(scriptHashBlock op hash160).getHash ⟨sha256d, fun _ => 0⟩, 1, 100000, 1530001600, 503⟩ ::
    scriptHashPrev

def scriptHashNode : NodeEnv Secp256k1.Point Unit := fileNode testNetParams (scriptHashFile hash160)

def scriptHashState : ChainState := singleChain scriptHashPrev 1530001600

/-- The spend of the script hash in that block. -/
def theSpend : CTransaction × CTxIn × CTxOut :=
  (scriptHashSpend op hash160,
    ⟨⟨(scriptHashFunding hash160).getHash sha256d, 0⟩, [0x01, op], 0xFFFFFFFF⟩,
    ⟨COIN, [0xa9, 20] ++ beBytes 20 hash160 ++ [0x87]⟩)

/-- The hash of the script `OP_0`, which ends false. -/
def hashOfZero : Nat := 0x9f7fd096d37ed2c0e3f7f0cfc924beef4ffceb68

/-- The hash of the script `OP_1`, which ends true. -/
def hashOfOne : Nat := 0xda1745e9b549bd0bfa1a569971c77eba30cd5a4b

end Scene

end AliasWallet
