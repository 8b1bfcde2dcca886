import AliasWallet.Crypto.KeyDerivation
import AliasWallet.Crypto.Stealth
import AliasWallet.Script.Solver
import AliasWallet.Wallet.StealthAddresses

/-!
# Narrations of stealth payments (`FindStealthTransactions`)

Each data output with an ephemeral key is matched to the first other output that a stealth key of the wallet opens. The
encrypted narration stands behind the ephemeral key; a plaintext narration belongs to the output in front of it.
-/

namespace AliasWallet
open Lib

/-- What the scan asks of the wallet `W` and changes in it. -/
structure StealthKeyStore (W : Type) where
  haveKey : W → CKeyID → Bool
  isLocked : W → Bool
  addCryptedKey : W → CPubKey → W
  addKeyPubKey : W → CKey → CPubKey → Bool × W
  /-- The public key of what `ExpandStealthChildKey` derives. -/
  expandStealthChildKey : W → CKeyID → CEKAStealthKey → Bytes → Option CPubKey
  /-- Whether `ExtKeySaveKey` returns zero. -/
  extKeySaveKey : W → CKeyID → CKeyID → CEKASCKey → Bool × W

/-- The curve, the hashes and the crypter, with the store, the stealth keys and the debug switch. -/
structure StealthScan (Pt W : Type) where
  curve : Curve Pt
  sha256 : Bytes → Bytes
  /-- `CPubKey::GetID`. -/
  getID : CPubKey → CKeyID
  /-- `SecMsgCrypter::Decrypt` under a shared secret, with the ephemeral key as the IV. -/
  decrypt : Bytes → Bytes → Bytes → Option Bytes
  store : StealthKeyStore W
  stealth : StealthWallet
  fDebug : Bool

/-- A data output, the output that is matched to it, and where the narration is looked for. -/
structure StealthMatch where
  nOutputIdOuter : Nat
  nOutputId : Nat
  vchEphemPK : Bytes
  sShared : Bytes
  byAccount : Bool
  itTxA : CScript
  deriving DecidableEq

inductive ScanEvent
  | plaintext (nOutputIdOuter : Nat) (sNarr : Bytes)
  | matched (m : StealthMatch)
  deriving DecidableEq

/-- The wallet and `mapNarr`, by the number in `n_%d`; the events are for the proofs. -/
structure ScanState (W : Type) where
  w : W
  mapNarr : Int → Option Bytes
  events : List ScanEvent

namespace StealthScan

variable {Pt W : Type} (scan : StealthScan Pt W)

/-- `ExtractDestination`, where the address is a key. -/
def extractKeyID (scriptPubKey : CScript) : Option CKeyID :=
  match CScript.ops scriptPubKey with
  | ([key, checkSig], true) =>
    if 33 ≤ key.vch.length ∧ key.vch.length ≤ 120 ∧ checkSig.opcode = OP_CHECKSIG then
      some (scan.getID (CPubKey.set key.vch))
    else none
  | ([dup, hash160, hash, equalVerify, checkSig], true) =>
    if dup.opcode = OP_DUP ∧ hash160.opcode = OP_HASH160 ∧ hash.vch.length = 20 ∧
        equalVerify.opcode = OP_EQUALVERIFY ∧ checkSig.opcode = OP_CHECKSIG then
      some (BitVec.ofNat 160 (leNat hash.vch))
    else none
  | _ => none

/-- `CKey::Set` of a secret; the key is valid within the order. -/
def setKey (secret : Bytes) : CKey :=
  ⟨secret, decide (0 < beNat secret ∧ beNat secret < scan.curve.order), true⟩

/-- The loop over the loose addresses: the shared secret where an address matches. -/
def matchLoose (haveKey : Bool) (vchEphemPK : Bytes) (ckidMatch : CKeyID) : List CStealthAddress → W → Option Bytes × W
  | [], w => (none, w)
  | it :: rest, w =>
    if ¬ it.isOwned then matchLoose haveKey vchEphemPK ckidMatch rest w
    else match stealthSecret scan.curve scan.sha256 it.scan_secret vchEphemPK it.spend_pubkey with
      | none => matchLoose haveKey vchEphemPK ckidMatch rest w
      | some (sShared, pkExtracted) =>
        let cpkE := CPubKey.set pkExtracted
        if cpkE.vch = [] ∨ ckidMatch ≠ scan.getID cpkE then matchLoose haveKey vchEphemPK ckidMatch rest w
        else if haveKey then (some sShared, w)
        else if scan.store.isLocked w then (some sShared, scan.store.addCryptedKey w cpkE)
        else if it.spend_secret.length ≠ EC_SECRET_SIZE then matchLoose haveKey vchEphemPK ckidMatch rest w
        else match stealthSharedToSecretSpend scan.curve sShared it.spend_secret with
          | none => matchLoose haveKey vchEphemPK ckidMatch rest w
          | some sSpendR =>
            let ckey := scan.setKey sSpendR
            match ckey.getPubKey scan.curve with
            | .error _ => matchLoose haveKey vchEphemPK ckidMatch rest w
            | .ok cpkT =>
              if cpkT.vch = [] ∨ scan.getID cpkT ≠ ckidMatch then matchLoose haveKey vchEphemPK ckidMatch rest w
              else
                let (fAdded, w) := scan.store.addKeyPubKey w ckey cpkT
                if fAdded then (some sShared, w) else matchLoose haveKey vchEphemPK ckidMatch rest w

/-- The loops over the accounts and their stealth keys, in a row. -/
def matchAccounts (haveKey : Bool) (vchEphemPK : Bytes) (ckidMatch : CKeyID) :
    List (CKeyID × CKeyID × CEKAStealthKey) → W → Option Bytes × W
  | [], w => (none, w)
  | (ea, idStealthKey, aks) :: rest, w =>
    if ¬ aks.isScanValid then matchAccounts haveKey vchEphemPK ckidMatch rest w
    else match stealthSecret scan.curve scan.sha256 aks.skScan vchEphemPK aks.pkSpend with
      | none => matchAccounts haveKey vchEphemPK ckidMatch rest w
      | some (sShared, pkExtracted) =>
        let cpkE := CPubKey.set pkExtracted
        if cpkE.vch = [] ∨ ckidMatch ≠ scan.getID cpkE then matchAccounts haveKey vchEphemPK ckidMatch rest w
        else if haveKey then (some sShared, w)
        -- in debug mode an unlocked wallet derives the key
        else if scan.fDebug ∧ ¬ scan.store.isLocked w ∧
            (scan.store.expandStealthChildKey w ea aks sShared).map scan.getID ≠ some ckidMatch then
          matchAccounts haveKey vchEphemPK ckidMatch rest w
        else
          let (fSaved, w) := scan.store.extKeySaveKey w ea ckidMatch ⟨idStealthKey, sShared⟩
          if fSaved then (some sShared, w) else matchAccounts haveKey vchEphemPK ckidMatch rest w

def accountKeys : List (CKeyID × CKeyID × CEKAStealthKey) :=
  scan.stealth.mapExtAccounts.flatMap fun mi => mi.2.map (mi.1, ·)

/-- The narration that `itTxA` stands before, and the script behind it. -/
def nextNarration (itTxA : CScript) : Option (Bytes × CScript) := do
  let ret ← CScript.getOp itTxA
  if ret.opcode ≠ OP_RETURN then none
  else
    let narr ← CScript.getOp ret.rest
    if narr.vch.length > 0 then some (narr.vch, narr.rest) else none

/-- The loop over the outputs for one ephemeral key. -/
def matchOutputs (tx : CTransaction) (txout : CTxOut) (nOutputIdOuter : Nat) (vchEphemPK : Bytes) :
    List (CTxOut × Nat) → CScript → ScanState W → ScanState W
  | [], _, st => st
  | (txoutB, nOutputId) :: rest, itTxA, st =>
    if tx.nVersion = ANON_TXN_VERSION ∧ txout.isAnonOutput then
      matchOutputs tx txout nOutputIdOuter vchEphemPK rest itTxA st
    else if nOutputId = nOutputIdOuter then matchOutputs tx txout nOutputIdOuter vchEphemPK rest itTxA st
    else match scan.extractKeyID txoutB.scriptPubKey with
      | none => matchOutputs tx txout nOutputIdOuter vchEphemPK rest itTxA st
      | some ckidMatch =>
        let haveKey := scan.store.haveKey st.w ckidMatch
        match scan.matchLoose haveKey vchEphemPK ckidMatch scan.stealth.stealthAddresses st.w with
        | (some sShared, w) =>
          -- the `break` for a loose address is in front of the code for the narration
          { st with
            w
            events := st.events ++ [.matched ⟨nOutputIdOuter, nOutputId, vchEphemPK, sShared, false, itTxA⟩] }
        | (none, w) =>
          match scan.matchAccounts haveKey vchEphemPK ckidMatch scan.accountKeys w with
          | (none, w) => matchOutputs tx txout nOutputIdOuter vchEphemPK rest itTxA { st with w }
          | (some sShared, w) =>
            let events := st.events ++ [.matched ⟨nOutputIdOuter, nOutputId, vchEphemPK, sShared, true, itTxA⟩]
            match nextNarration itTxA with
            | none => { st with w, events }
            | some (vchENarr, itTxA) =>
              match scan.decrypt sShared vchEphemPK vchENarr with
              | none => matchOutputs tx txout nOutputIdOuter vchEphemPK rest itTxA { st with w, events }
              | some vchNarr => ⟨w, Function.update st.mapNarr nOutputId (some vchNarr), events⟩

/-- `np` at the start of the data. -/
def isPlaintextMarker (vch : Bytes) : Bool := vch.take 2 == [0x6e, 0x70]

/-- The body of the loop over the outputs. -/
def scanOutput (tx : CTransaction) (st : ScanState W) (output : CTxOut × Nat) : ScanState W :=
  let (txout, nOutputIdOuter) := output
  if tx.nVersion = ANON_TXN_VERSION ∧ txout.isAnonOutput then st
  else match CScript.getOp txout.scriptPubKey with
    | none => st
    | some ret =>
      if ret.opcode ≠ OP_RETURN then st
      else match CScript.getOp ret.rest with
        | none => st
        | some key =>
          if key.vch.length = EC_COMPRESSED_SIZE then
            scan.matchOutputs tx txout nOutputIdOuter key.vch tx.vout.zipIdx key.rest st
          else if isPlaintextMarker key.vch then
            match nextNarration key.rest with
            | none => st
            | some (sNarr, _) =>
              { st with
                mapNarr := Function.update st.mapNarr (nOutputIdOuter - 1) (some sNarr)
                events := st.events ++ [.plaintext nOutputIdOuter sNarr] }
          else st

/-- `FindStealthTransactions`. -/
def findStealthTransactions (tx : CTransaction) (w : W) : ScanState W :=
  tx.vout.zipIdx.foldl (scan.scanOutput tx) ⟨w, fun _ => none, []⟩

/-- The stealth keys for one output, loose addresses first: the shared secret of the one that matches, and whether it
is a key of an account. -/
def matchKeys (vchEphemPK : Bytes) (ckidMatch : CKeyID) (w : W) : Option (Bytes × Bool) × W :=
  let haveKey := scan.store.haveKey w ckidMatch
  match scan.matchLoose haveKey vchEphemPK ckidMatch scan.stealth.stealthAddresses w with
  | (some sShared, w) => (some (sShared, false), w)
  | (none, w) =>
    let (sShared, w) := scan.matchAccounts haveKey vchEphemPK ckidMatch scan.accountKeys w
    (sShared.map (·, true), w)

/-- The key of an output that is tried for a data output. -/
def candidate (tx : CTransaction) (txout : CTxOut) (nOutputIdOuter : Nat) (output : CTxOut × Nat) :
    Option (CKeyID × Nat) :=
  if (tx.nVersion = ANON_TXN_VERSION ∧ txout.isAnonOutput) ∨ output.2 = nOutputIdOuter then none
  else (scan.extractKeyID output.1.scriptPubKey).map (·, output.2)

/-- The script behind the narration of a match by an account where it does not decrypt: the scan goes on there. -/
def behindFailed (m : StealthMatch) : Option CScript := do
  if ¬ m.byAccount then none
  else
    let (vchENarr, itTxA) ← nextNarration m.itTxA
    if (scan.decrypt m.sShared m.vchEphemPK vchENarr).isNone then some itTxA else none

/-- The matches of one ephemeral key among some candidates. -/
def keyMatches (nOutputIdOuter : Nat) (vchEphemPK : Bytes) :
    List (CKeyID × Nat) → CScript → W → List StealthMatch × W
  | [], _, w => ([], w)
  | (ckidMatch, nOutputId) :: rest, itTxA, w =>
    match scan.matchKeys vchEphemPK ckidMatch w with
    | (none, w) => keyMatches nOutputIdOuter vchEphemPK rest itTxA w
    | (some (sShared, byAccount), w) =>
      let m : StealthMatch := ⟨nOutputIdOuter, nOutputId, vchEphemPK, sShared, byAccount, itTxA⟩
      match scan.behindFailed m with
      | none => ([m], w)
      | some itTxA =>
        let (later, w) := keyMatches nOutputIdOuter vchEphemPK rest itTxA w
        (m :: later, w)

/-- The events of one output, from the transaction and the wallet alone. -/
def outputEvents (tx : CTransaction) (output : CTxOut × Nat) (w : W) : List ScanEvent × W :=
  let (txout, nOutputIdOuter) := output
  if tx.nVersion = ANON_TXN_VERSION ∧ txout.isAnonOutput then ([], w)
  else match CScript.getOp txout.scriptPubKey with
    | none => ([], w)
    | some ret =>
      if ret.opcode ≠ OP_RETURN then ([], w)
      else match CScript.getOp ret.rest with
        | none => ([], w)
        | some key =>
          if key.vch.length = EC_COMPRESSED_SIZE then
            let (found, w) := scan.keyMatches nOutputIdOuter key.vch
              (tx.vout.zipIdx.filterMap (scan.candidate tx txout nOutputIdOuter)) key.rest w
            (found.map .matched, w)
          else if isPlaintextMarker key.vch then
            match nextNarration key.rest with
            | none => ([], w)
            | some (sNarr, _) => ([.plaintext nOutputIdOuter sNarr], w)
          else ([], w)

def outputsEvents (tx : CTransaction) : List (CTxOut × Nat) → W → List ScanEvent × W
  | [], w => ([], w)
  | output :: rest, w =>
    let (events, w) := scan.outputEvents tx output w
    let (events', w) := outputsEvents tx rest w
    (events ++ events', w)

/-- Which keys of a wallet open which outputs of a transaction, with the plaintext narrations in between. -/
def scanEvents (tx : CTransaction) (w : W) : List ScanEvent := (scan.outputsEvents tx tx.vout.zipIdx w).1

/-- The script of a data output behind its ephemeral key. -/
def behindKey (tx : CTransaction) (nOutputIdOuter : Nat) : Option CScript := do
  let txout ← tx.vout[nOutputIdOuter]?
  let ret ← CScript.getOp txout.scriptPubKey
  let key ← CScript.getOp ret.rest
  return key.rest

/-- The narration behind the ephemeral key of a match, under its shared secret. -/
def narration (tx : CTransaction) (m : StealthMatch) : Option Bytes := do
  let itTxA ← behindKey tx m.nOutputIdOuter
  let (vchENarr, _) ← nextNarration itTxA
  scan.decrypt m.sShared m.vchEphemPK vchENarr

/-- The narration of every match is in `mapNarr`, under the number of the output. -/
def Recorded (tx : CTransaction) (st : ScanState W) : Prop :=
  ∀ m, ScanEvent.matched m ∈ st.events → ∀ vchNarr, scan.narration tx m = some vchNarr →
    st.mapNarr m.nOutputId = some vchNarr

/-- The number and the narration that an event gives: of a match by a stealth key of an account what stands at
`itTxA`, of one by a loose address nothing. -/
def gives : ScanEvent → Option (Int × Bytes)
  | .plaintext nOutputIdOuter sNarr => some (nOutputIdOuter - 1, sNarr)
  | .matched m => do
    if ¬ m.byAccount then none
    else
      let (vchENarr, _) ← nextNarration m.itTxA
      let vchNarr ← scan.decrypt m.sShared m.vchEphemPK vchENarr
      return (m.nOutputId, vchNarr)

/-- The last narration that some events give to a number. -/
def lastGiven (events : List ScanEvent) (n : Int) : Option Bytes := (events.filterMap scan.gives).reverse.lookup n

/-- For the output of each match that has a narration this narration is given, and no other one after it. -/
def NarrationsReached (tx : CTransaction) (events : List ScanEvent) : Prop :=
  ∀ m, ScanEvent.matched m ∈ events → ∀ vchNarr, scan.narration tx m = some vchNarr →
    scan.lastGiven events m.nOutputId = some vchNarr

/-- The first match of each data output looks for the narration behind the ephemeral key. -/
def FirstMatches (tx : CTransaction) (events : List ScanEvent) : Prop :=
  ∀ pre m post, events = pre ++ .matched m :: post →
    (∀ m', ScanEvent.matched m' ∈ pre → m'.nOutputIdOuter ≠ m.nOutputIdOuter) →
      behindKey tx m.nOutputIdOuter = some m.itTxA

variable {scan}

theorem lastGiven_concat_none {events : List ScanEvent} {e : ScanEvent} (h : scan.gives e = none) :
    scan.lastGiven (events ++ [e]) = scan.lastGiven events := by
  funext n
  rw [lastGiven, List.filterMap_append, List.filterMap_cons_none h, List.filterMap_nil, List.append_nil, lastGiven]

theorem lastGiven_concat_some {events : List ScanEvent} {e : ScanEvent} {n : Int} {sNarr : Bytes}
    (h : scan.gives e = some (n, sNarr)) :
    scan.lastGiven (events ++ [e]) = Function.update (scan.lastGiven events) n (some sNarr) := by
  funext n'
  rw [lastGiven, List.filterMap_append, List.filterMap_cons_some h, List.filterMap_nil, List.reverse_append]
  by_cases hn : n' = n
  · subst hn
    simp
  · rw [Function.update_of_ne hn, lastGiven]
    simp [List.lookup_cons, beq_eq_false_iff_ne.mpr hn]

theorem gives_loose {m : StealthMatch} (h : m.byAccount = false) : scan.gives (.matched m) = none := by
  simp [gives, h]

theorem matchOutputs_lastGiven {tx : CTransaction} {txout : CTxOut} {nOutputIdOuter : Nat} {vchEphemPK : Bytes}
    (outputs : List (CTxOut × Nat)) (itTxA : CScript) (st : ScanState W) (h : st.mapNarr = scan.lastGiven st.events) :
    (scan.matchOutputs tx txout nOutputIdOuter vchEphemPK outputs itTxA st).mapNarr =
      scan.lastGiven (scan.matchOutputs tx txout nOutputIdOuter vchEphemPK outputs itTxA st).events := by
  induction outputs generalizing itTxA st with
  | nil => exact h
  | cons output rest ih =>
    obtain ⟨txoutB, nOutputId⟩ := output
    rw [matchOutputs]
    split
    · exact ih itTxA st h
    split
    · exact ih itTxA st h
    split
    · exact ih itTxA st h
    dsimp only
    split
    · -- a loose address matches
      rw [lastGiven_concat_none (gives_loose rfl)]
      exact h
    split
    · exact ih itTxA _ h
    -- a key of an account matches
    split
    case h_1 hnone =>
      rw [lastGiven_concat_none (by simp [gives, hnone])]
      exact h
    case h_2 vchENarr itTxA' hnext =>
      split
      case h_1 hdecrypt =>
        apply ih
        rw [lastGiven_concat_none (by simp [gives, hnext, hdecrypt])]
        exact h
      case h_2 vchNarr hdecrypt =>
        rw [h]
        exact (lastGiven_concat_some (by simp [gives, hnext, hdecrypt])).symm

theorem scanOutput_lastGiven {tx : CTransaction} (output : CTxOut × Nat) (st : ScanState W)
    (h : st.mapNarr = scan.lastGiven st.events) :
    (scan.scanOutput tx st output).mapNarr = scan.lastGiven (scan.scanOutput tx st output).events := by
  rw [scanOutput]
  split
  · exact h
  split
  · exact h
  split
  · exact h
  split
  · exact h
  split
  · exact matchOutputs_lastGiven _ _ st h
  split
  · split
    · exact h
    · dsimp only
      rw [lastGiven_concat_some rfl, h]
  · exact h

/-- `mapNarr` holds the last narrations that the events give. -/
theorem findStealthTransactions_lastGiven (tx : CTransaction) (w : W) :
    (scan.findStealthTransactions tx w).mapNarr = scan.lastGiven (scan.findStealthTransactions tx w).events := by
  have hrun : ∀ (outputs : List (CTxOut × Nat)) (st : ScanState W), st.mapNarr = scan.lastGiven st.events →
      (outputs.foldl (scan.scanOutput tx) st).mapNarr =
        scan.lastGiven (outputs.foldl (scan.scanOutput tx) st).events := by
    intro outputs
    induction outputs with
    | nil => exact fun st h => h
    | cons output rest ih => exact fun st h => ih _ (scanOutput_lastGiven output st h)
  exact hrun _ _ rfl

theorem matchKeys_loose {vchEphemPK sShared : Bytes} {ckidMatch : CKeyID} {w w' : W}
    (h : scan.matchLoose (scan.store.haveKey w ckidMatch) vchEphemPK ckidMatch scan.stealth.stealthAddresses w =
      (some sShared, w')) : scan.matchKeys vchEphemPK ckidMatch w = (some (sShared, false), w') := by
  simp [matchKeys, h]

theorem matchKeys_accounts {vchEphemPK : Bytes} {found : Option Bytes} {ckidMatch : CKeyID} {w w' w'' : W}
    (hloose : scan.matchLoose (scan.store.haveKey w ckidMatch) vchEphemPK ckidMatch scan.stealth.stealthAddresses w =
      (none, w'))
    (haccount : scan.matchAccounts (scan.store.haveKey w ckidMatch) vchEphemPK ckidMatch scan.accountKeys w' =
      (found, w'')) : scan.matchKeys vchEphemPK ckidMatch w = (found.map (·, true), w'') := by
  simp [matchKeys, hloose, haccount]

/-- The loop over the outputs finds the matches of the ephemeral key. -/
theorem matchOutputs_events {tx : CTransaction} {txout : CTxOut} {nOutputIdOuter : Nat} {vchEphemPK : Bytes}
    (outputs : List (CTxOut × Nat)) (itTxA : CScript) (st : ScanState W) :
    let found := scan.keyMatches nOutputIdOuter vchEphemPK
      (outputs.filterMap (scan.candidate tx txout nOutputIdOuter)) itTxA st.w
    (scan.matchOutputs tx txout nOutputIdOuter vchEphemPK outputs itTxA st).events =
        st.events ++ found.1.map .matched ∧
      (scan.matchOutputs tx txout nOutputIdOuter vchEphemPK outputs itTxA st).w = found.2 := by
  induction outputs generalizing itTxA st with
  | nil => simp [matchOutputs, keyMatches]
  | cons output rest ih =>
    obtain ⟨txoutB, nOutputId⟩ := output
    dsimp only at ih ⊢
    rw [matchOutputs]
    by_cases hanon : tx.nVersion = ANON_TXN_VERSION ∧ txout.isAnonOutput
    · rw [if_pos hanon, List.filterMap_cons_none (by simp [candidate, hanon])]
      exact ih itTxA st
    rw [if_neg hanon]
    by_cases hself : nOutputId = nOutputIdOuter
    · rw [if_pos hself, List.filterMap_cons_none (by simp [candidate, hself])]
      exact ih itTxA st
    rw [if_neg hself]
    cases hkey : scan.extractKeyID txoutB.scriptPubKey with
    | none =>
      rw [List.filterMap_cons_none (by simp [candidate, hkey])]
      exact ih itTxA st
    | some ckidMatch =>
      have hcandidate : scan.candidate tx txout nOutputIdOuter (txoutB, nOutputId) = some (ckidMatch, nOutputId) := by
        rw [candidate, if_neg (not_or.mpr ⟨hanon, hself⟩), hkey, Option.map_some]
      rw [List.filterMap_cons_some hcandidate, keyMatches]
      dsimp only
      split
      case h_1 sShared w' hloose =>
        rw [matchKeys_loose hloose]
        exact ⟨rfl, rfl⟩
      case h_2 w' hloose =>
        split
        case h_1 w'' haccount =>
          rw [matchKeys_accounts hloose haccount]
          exact ih itTxA { st with w := w'' }
        case h_2 sShared w'' haccount =>
          rw [matchKeys_accounts hloose haccount, Option.map_some]
          dsimp only
          split
          case h_1 hnext =>
            simp [behindFailed, hnext]
          case h_2 vchENarr itTxA' hnext =>
            split
            case h_1 hdecrypt =>
              obtain ⟨hevents, hw⟩ := ih itTxA' ⟨w'', st.mapNarr, st.events ++
                [.matched ⟨nOutputIdOuter, nOutputId, vchEphemPK, sShared, true, itTxA⟩]⟩
              rw [hevents, hw]
              simp [behindFailed, hnext, hdecrypt]
            case h_2 vchNarr hdecrypt =>
              simp [behindFailed, hnext, hdecrypt]

theorem scanOutput_events (tx : CTransaction) (output : CTxOut × Nat) (st : ScanState W) :
    (scan.scanOutput tx st output).events = st.events ++ (scan.outputEvents tx output st.w).1 ∧
      (scan.scanOutput tx st output).w = (scan.outputEvents tx output st.w).2 := by
  have hnothing : st.events = st.events ++ [] ∧ st.w = st.w := ⟨(List.append_nil _).symm, rfl⟩
  rw [scanOutput, outputEvents]
  dsimp only
  split
  · exact hnothing
  split
  · exact hnothing
  split
  · exact hnothing
  split
  · exact hnothing
  split
  · exact matchOutputs_events _ _ st
  split
  · split
    · exact hnothing
    · exact ⟨rfl, rfl⟩
  · exact hnothing

theorem findStealthTransactions_events (tx : CTransaction) (w : W) :
    (scan.findStealthTransactions tx w).events = scan.scanEvents tx w := by
  have hrun : ∀ (outputs : List (CTxOut × Nat)) (st : ScanState W),
      (outputs.foldl (scan.scanOutput tx) st).events = st.events ++ (scan.outputsEvents tx outputs st.w).1 := by
    intro outputs
    induction outputs with
    | nil => exact fun st => (List.append_nil _).symm
    | cons output rest ih =>
      intro st
      obtain ⟨hevents, hw⟩ := scanOutput_events tx output st
      rw [List.foldl_cons, ih, hevents, hw, outputsEvents, List.append_assoc]
  exact (hrun _ _).trans (List.nil_append _)

theorem FirstMatches.concat {tx : CTransaction} {events : List ScanEvent} (h : FirstMatches tx events) {e : ScanEvent}
    (he : ∀ m, e = .matched m → behindKey tx m.nOutputIdOuter = some m.itTxA ∨
      ∃ m', ScanEvent.matched m' ∈ events ∧ m'.nOutputIdOuter = m.nOutputIdOuter) :
    FirstMatches tx (events ++ [e]) := by
  intro pre m post hsplit hfirst
  rcases List.eq_nil_or_concat post with rfl | ⟨post, last, rfl⟩
  · obtain ⟨rfl, hlast⟩ := List.append_inj' hsplit rfl
    have hthis : e = .matched m := by simpa using hlast
    refine (he m hthis).resolve_right ?_
    intro hearlier
    obtain ⟨m', hm', hsame⟩ := hearlier
    exact hfirst m' hm' hsame
  · have hconcat : pre ++ .matched m :: (post ++ [last]) = (pre ++ .matched m :: post) ++ [last] := by simp
    rw [List.concat_eq_append, hconcat] at hsplit
    exact h pre m post (List.append_inj' hsplit rfl).1 hfirst

theorem matchOutputs_firstMatches {tx : CTransaction} {txout : CTxOut} {nOutputIdOuter : Nat} {vchEphemPK : Bytes}
    (outputs : List (CTxOut × Nat)) (itTxA : CScript) (st : ScanState W) (h : FirstMatches tx st.events)
    (hit : behindKey tx nOutputIdOuter = some itTxA ∨
      ∃ m, ScanEvent.matched m ∈ st.events ∧ m.nOutputIdOuter = nOutputIdOuter) :
    FirstMatches tx (scan.matchOutputs tx txout nOutputIdOuter vchEphemPK outputs itTxA st).events := by
  induction outputs generalizing itTxA st with
  | nil => exact h
  | cons output rest ih =>
    obtain ⟨txoutB, nOutputId⟩ := output
    have hconcat : ∀ m : StealthMatch, m.nOutputIdOuter = nOutputIdOuter → m.itTxA = itTxA →
        FirstMatches tx (st.events ++ [.matched m]) := by
      intro m houter hitTxA
      apply h.concat
      intro m' hm'
      rw [← ScanEvent.matched.inj hm', houter, hitTxA]
      exact hit
    rw [matchOutputs]
    split
    · exact ih itTxA st h hit
    split
    · exact ih itTxA st h hit
    split
    · exact ih itTxA st h hit
    dsimp only
    split
    · exact hconcat _ rfl rfl
    split
    · exact ih itTxA _ h hit
    split
    · exact hconcat _ rfl rfl
    split
    · -- a failed decryption leaves the iterator behind, and a match among the events
      refine ih _ _ (hconcat _ rfl rfl) (Or.inr ⟨_, List.mem_append_right _ (List.mem_singleton_self _), rfl⟩)
    · exact hconcat _ rfl rfl

theorem scanOutput_firstMatches {tx : CTransaction} {output : CTxOut × Nat} (houtput : output ∈ tx.vout.zipIdx)
    (st : ScanState W) (h : FirstMatches tx st.events) : FirstMatches tx (scan.scanOutput tx st output).events := by
  obtain ⟨txout, nOutputIdOuter⟩ := output
  have htxout : tx.vout[nOutputIdOuter]? = some txout := List.mem_zipIdx_iff_getElem?.mp houtput
  rw [scanOutput]
  split
  · exact h
  split
  · exact h
  case h_2 ret hret =>
    split
    · exact h
    split
    · exact h
    case h_2 key hkey =>
      split
      · refine matchOutputs_firstMatches _ _ st h (Or.inl ?_)
        simp [behindKey, htxout, hret, hkey]
      split
      · split
        · exact h
        · exact h.concat fun m hm => nomatch hm
      · exact h

/-- In a run every data output's first match reads the narration behind the ephemeral key. -/
theorem findStealthTransactions_firstMatches (tx : CTransaction) (w : W) :
    FirstMatches tx (scan.findStealthTransactions tx w).events := by
  have hrun : ∀ (outputs : List (CTxOut × Nat)), outputs ⊆ tx.vout.zipIdx → ∀ st : ScanState W,
      FirstMatches tx st.events → FirstMatches tx (outputs.foldl (scan.scanOutput tx) st).events := by
    intro outputs
    induction outputs with
    | nil => exact fun _ st h => h
    | cons output rest ih =>
      intro hsub st h
      exact ih (fun o ho => hsub (List.mem_cons_of_mem _ ho)) _
        (scanOutput_firstMatches (hsub List.mem_cons_self) st h)
  exact hrun _ (fun o ho => ho) _ fun pre m post hsplit => absurd hsplit (by simp)

theorem lastGiven_of_nodup {events : List ScanEvent} (hdiffer : ((events.filterMap scan.gives).map Prod.fst).Nodup)
    {e : ScanEvent} (he : e ∈ events) {n : Int} {sNarr : Bytes} (hgives : scan.gives e = some (n, sNarr)) :
    scan.lastGiven events n = some sNarr := by
  have hmem : (n, sNarr) ∈ (events.filterMap scan.gives).reverse :=
    List.mem_reverse.mpr (List.mem_filterMap.mpr ⟨e, he, hgives⟩)
  obtain ⟨pre, post, hsplit⟩ := List.append_of_mem hmem
  refine List.lookup_eq_some_iff.mpr ⟨pre, post, hsplit, ?_⟩
  intro p hp
  rw [bne_iff_ne]
  intro hsame
  rw [← List.nodup_reverse, ← List.map_reverse, hsplit, List.map_append, List.nodup_append] at hdiffer
  exact hdiffer.2.2 p.1 (List.mem_map_of_mem hp) n (by simp) hsame.symm

/-- Nothing is lost where every match is through an account and the only one of its data output, and no number is given
two narrations. -/
theorem narrations_recorded_of_accounts (tx : CTransaction) (w : W)
    (haccount : ∀ m, ScanEvent.matched m ∈ scan.scanEvents tx w → m.byAccount = true)
    (honly : ∀ pre m post, scan.scanEvents tx w = pre ++ .matched m :: post →
      ∀ m', ScanEvent.matched m' ∈ pre → m'.nOutputIdOuter ≠ m.nOutputIdOuter)
    (hdiffer : (((scan.scanEvents tx w).filterMap scan.gives).map Prod.fst).Nodup) :
    scan.Recorded tx (scan.findStealthTransactions tx w) := by
  intro m hm vchNarr hnarr
  rw [← findStealthTransactions_events] at haccount honly hdiffer
  rw [findStealthTransactions_lastGiven]
  apply lastGiven_of_nodup hdiffer hm
  obtain ⟨pre, post, hsplit⟩ := List.append_of_mem hm
  have hbehind := findStealthTransactions_firstMatches tx w pre m post hsplit (honly pre m post hsplit)
  rw [narration, hbehind, Option.bind_eq_bind, Option.bind_some, Option.bind_eq_bind, Option.bind_eq_some_iff] at hnarr
  obtain ⟨⟨vchENarr, itTxA⟩, hnext, hdecrypt⟩ := hnarr
  simp [gives, haccount m hm, hnext, hdecrypt]

/-- A wallet over the residues modulo 7 with the loose address of the scan secret 2 and the spend secret 3. -/
def looseScan : StealthScan (ZMod 7) (List CKeyID) where
  curve := residueCurve 7
  sha256 := fun bs => smallSecret (bs.getLastD 0)
  getID := fun pubkey => BitVec.ofNat 160 (beNat pubkey.vch)
  decrypt := fun _ _ vchENarr => some vchENarr
  store :=
    { haveKey := fun w id => w.contains id
      isLocked := fun _ => false
      addCryptedKey := fun w pubkey => BitVec.ofNat 160 (beNat pubkey.vch) :: w
      addKeyPubKey := fun w _ pubkey => (true, BitVec.ofNat 160 (beNat pubkey.vch) :: w)
      expandStealthChildKey := fun _ _ _ _ => none
      extKeySaveKey := fun w _ id _ => (true, id :: w) }
  stealth := StealthWallet.single ⟨2 :: smallSecret 2, 2 :: smallSecret 3, smallSecret 2, smallSecret 3⟩
  fDebug := false

/-- The one-time key of the ephemeral secret 4, and a data output with the ephemeral key and a narration. -/
def narratedTx : CTransaction where
  nVersion := 1
  nTime := 0
  vin := []
  vout :=
    [⟨5, CScript.push (2 :: smallSecret 4) ++ [OP_CHECKSIG]⟩,
     ⟨0, OP_RETURN :: CScript.push (2 :: smallSecret 4) ++ OP_RETURN :: CScript.push [0x68, 0x69]⟩]
  nLockTime := 0

end StealthScan

end AliasWallet
