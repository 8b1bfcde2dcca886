import AliasWallet.Core.Transaction

/-!
# Extended-key accounts

The chains of an account, its key maps with the look-ahead, and the records in the wallet database:
the account, its chains, and the packs of its keys. Writes to the database may fail; what is in memory
by then stays as it is.
-/

namespace AliasWallet
open Lib

abbrev CKeyID := BitVec 160

def MAX_DERIVE_TRIES : Nat := 16

def MAX_KEY_PACK_SIZE : Nat := 100

def N_DEFAULT_LOOKAHEAD : Nat := 100

def EAF_ACTIVE : UInt32 := 1

def EAF_IS_CRYPTED : UInt32 := 4

def EAF_RECEIVE_ON : UInt32 := 8

def EAF_IN_ACCOUNT : UInt32 := 16

/-- What the accounts use of key arithmetic and of the crypter. -/
structure ExtKeyOps where
  /-- The public key of a child; the derivation fails for some numbers. -/
  derive : Bytes → UInt32 → Option Bytes
  /-- The secret of a child, from that of its parent. -/
  childKey : Bytes → UInt32 → Bytes
  /-- `CPubKey::GetID`. -/
  getID : Bytes → CKeyID
  /-- `EncryptSecret` and `DecryptSecret` under the wallet's master key. -/
  encryptSecret : Bytes → Bytes → Option Bytes
  decryptSecret : Bytes → Bytes → Option Bytes

/-- The public part and, unless it is locked or neutered, the secret. -/
structure CExtKeyPair where
  pubkey : Bytes
  key : Option Bytes
  deriving DecidableEq, Repr

structure CStoredExtKey where
  kp : CExtKeyPair
  vchCryptedSecret : Bytes
  sLabel : String
  fLocked : Bool
  nFlags : UInt32
  nGenerated : UInt32
  nHGenerated : UInt32
  /-- `EKVT_N_LOOKAHEAD` of `mapValue`. -/
  nLookAhead : Option Nat
  deriving DecidableEq, Repr

/-- A derived key: the chain in `vExtKeys` and the child. -/
structure CEKAKey where
  nParent : UInt32
  nKey : UInt32
  deriving DecidableEq, Repr

/-- A key derived from a stealth key. -/
structure CEKASCKey where
  idStealthKey : CKeyID
  sShared : Bytes
  deriving DecidableEq, Repr

structure CEKAStealthKey where
  sLabel : String
  nScanParent : UInt32
  nScanKey : UInt32
  skScan : Bytes
  akSpend : CEKAKey
  pkScan : Bytes
  pkSpend : Bytes
  deriving DecidableEq, Repr

/-- What is written of an account. -/
structure AccountRecord where
  nActiveExternal : UInt32
  nActiveInternal : UInt32
  nActiveStealth : UInt32
  vExtKeyIDs : List CKeyID
  nPack : UInt32
  nPackStealth : UInt32
  nPackStealthKeys : UInt32
  deriving DecidableEq, Repr

structure CExtKeyAccount extends AccountRecord where
  mapKeys : CKeyID → Option CEKAKey
  mapLookAhead : CKeyID → Option CEKAKey
  mapStealthChildKeys : CKeyID → Option CEKASCKey
  mapStealthKeys : CKeyID → Option CEKAStealthKey
  vExtKeys : List CStoredExtKey

namespace CStoredExtKey

variable (ops : ExtKeyOps) (sek : CStoredExtKey)

def isCrypted : Bool := sek.nFlags &&& EAF_IS_CRYPTED != 0

/-- The chain generates look-ahead keys. -/
def receives : Bool := sek.nFlags &&& EAF_ACTIVE != 0 && sek.nFlags &&& EAF_RECEIVE_ON != 0

/-- What is written of the chain: never the secret of an encrypted one. -/
def stored : CStoredExtKey :=
  { sek with
    kp := if sek.vchCryptedSecret = [] then sek.kp else { sek.kp with key := none }
    fLocked := false }

def setCounter (nC : UInt32) (fHardened : Bool) : CStoredExtKey :=
  if fHardened then { sek with nHGenerated := nC } else { sek with nGenerated := nC }

def getCounter (fHardened : Bool) : UInt32 := if fHardened then sek.nHGenerated else sek.nGenerated

/-- `kp.Derive`; a hardened child and a secret need the secret of the chain. -/
def deriveChild (fSecret : Bool) (nNum : UInt32) : Option Bytes :=
  if (fSecret || nNum >>> 31 == 1) && sek.kp.key.isNone then none else ops.derive sek.kp.pubkey nNum

/-- The loop of `DeriveKey`: the child's public key and its number. -/
def deriveTries (fSecret fHardened : Bool) : Nat → UInt32 → Option (Bytes × UInt32)
  | 0, _ => none
  | tries + 1, nChildIn =>
    if nChildIn >>> 31 == 1 then none
    else
      let nNum := if fHardened then nChildIn ||| 0x80000000 else nChildIn
      match sek.deriveChild ops fSecret nNum with
      | some pubkey => some (pubkey, nNum)
      | none => deriveTries fSecret fHardened tries (nChildIn + 1)

/-- `DeriveKey`. -/
def deriveKey (fSecret : Bool) (nChildIn : UInt32) (fHardened : Bool) : Option (Bytes × UInt32) :=
  if fHardened && sek.kp.key.isNone then none
  else sek.deriveTries ops fSecret fHardened MAX_DERIVE_TRIES nChildIn

/-- `DeriveNextKey`: the child, its number, and the chain with its counter advanced. -/
def deriveNextKey (fSecret fHardened : Bool) : Option (Bytes × UInt32 × CStoredExtKey) :=
  match sek.deriveKey ops fSecret (sek.getCounter fHardened) fHardened with
  | none => none
  | some (pubkey, nChildOut) =>
    some (pubkey, nChildOut, sek.setCounter ((nChildOut &&& 0x7FFFFFFF) + 1) fHardened)

end CStoredExtKey

namespace CExtKeyAccount

variable (ops : ExtKeyOps) (sea : CExtKeyAccount)

def getChain (nChain : UInt32) : Option CStoredExtKey := sea.vExtKeys[nChain.toNat]?

/-- The account with a chain replaced. -/
def setChain (nChain : UInt32) (sek : CStoredExtKey) : CExtKeyAccount :=
  { sea with vExtKeys := sea.vExtKeys.set nChain.toNat sek }

/-- The account with a new chain. -/
def addChain (id : CKeyID) (sek : CStoredExtKey) : CExtKeyAccount :=
  { sea with vExtKeyIDs := sea.vExtKeyIDs ++ [id], vExtKeys := sea.vExtKeys ++ [sek] }

def setPack (nPack : UInt32) : CExtKeyAccount := { sea with nPack }

def setPackStealth (nPackStealth : UInt32) : CExtKeyAccount := { sea with nPackStealth }

def setPackStealthKeys (nPackStealthKeys : UInt32) : CExtKeyAccount := { sea with nPackStealthKeys }

def setStealthKey (id : CKeyID) (aks : Option CEKAStealthKey) : CExtKeyAccount :=
  { sea with mapStealthKeys := Function.update sea.mapStealthKeys id aks }

/-- The tries of `AddLookAhead` for one key: its id, and `nChild` and `nChildOut` after them. After a
failed derivation the search goes on behind the last child that was derived. -/
def lookAheadTries (mapKeys : CKeyID → Option CEKAKey) (pc : CStoredExtKey) :
    Nat → UInt32 → UInt32 → Option CKeyID × UInt32 × UInt32
  | 0, nChild, nChildOut => (none, nChild, nChildOut)
  | tries + 1, nChild, nChildOut =>
    match pc.deriveKey ops false nChild false with
    | none => lookAheadTries mapKeys pc tries (nChildOut + 1) nChildOut
    | some (pk, nChildOut) =>
      if (mapKeys (ops.getID pk)).isSome then lookAheadTries mapKeys pc tries (nChildOut + 1) nChildOut
      else (some (ops.getID pk), nChildOut + 1, nChildOut)

/-- The loop of `AddLookAhead`. -/
def lookAheadLoop (mapKeys : CKeyID → Option CEKAKey) (pc : CStoredExtKey) (nChain : UInt32) :
    Nat → UInt32 → UInt32 → (CKeyID → Option CEKAKey) → CKeyID → Option CEKAKey
  | 0, _, _, mapLookAhead => mapLookAhead
  | nKeys + 1, nChild, nChildOut, mapLookAhead =>
    match lookAheadTries ops mapKeys pc MAX_DERIVE_TRIES nChild nChildOut with
    | (none, nChild, nChildOut) => lookAheadLoop mapKeys pc nChain nKeys nChild nChildOut mapLookAhead
    | (some keyId, nChild, nChildOut) =>
      lookAheadLoop mapKeys pc nChain nKeys nChild nChildOut
        (Function.update mapLookAhead keyId (some ⟨nChain, nChildOut⟩))

/-- `AddLookAhead`; callers ignore its result. -/
def addLookAhead (nChain : UInt32) (nKeys : Nat) : CExtKeyAccount :=
  match sea.getChain nChain with
  | none => sea
  | some pc =>
    { sea with
      mapLookAhead :=
        lookAheadLoop ops sea.mapKeys pc nChain nKeys pc.nGenerated pc.nGenerated sea.mapLookAhead }

/-- What `SaveKey` does to the chain of the key. -/
def advanceChain (keyIn : CEKAKey) : CExtKeyAccount :=
  match sea.getChain keyIn.nParent with
  | none => sea
  | some pc =>
    let pc := if keyIn.nKey = pc.nGenerated then { pc with nGenerated := pc.nGenerated + 1 } else pc
    let sea := sea.setChain keyIn.nParent pc
    if pc.receives then sea.addLookAhead ops keyIn.nParent 1 else sea

/-- `SaveKey` for a derived key. -/
def saveKey (id : CKeyID) (keyIn : CEKAKey) : Bool × CExtKeyAccount :=
  if (sea.mapKeys id).isSome then (false, sea)
  else
    (true, advanceChain ops { sea with
      mapLookAhead := Function.update sea.mapLookAhead id none
      mapKeys := Function.update sea.mapKeys id (some keyIn) } keyIn)

/-- `SaveKey` for a key derived from a stealth key. -/
def saveStealthChildKey (id : CKeyID) (keyIn : CEKASCKey) : Bool × CExtKeyAccount :=
  if (sea.mapStealthChildKeys id).isSome || (sea.mapStealthKeys keyIn.idStealthKey).isNone then (false, sea)
  else (true, { sea with mapStealthChildKeys := Function.update sea.mapStealthChildKeys id (some keyIn) })

/-- `HaveKey` with `fUpdate`, as far as keys of the look-ahead go: the key to promote. -/
def lookAheadKey (id : CKeyID) : Option CEKAKey :=
  if (sea.mapKeys id).isSome then none else sea.mapLookAhead id

end CExtKeyAccount

section Database

/-- Packs by number. -/
abbrev Packs (V : Type) := List (UInt32 × List (CKeyID × V))

namespace Packs

variable {V : Type}

/-- The pack, or an empty one. -/
def read (packs : Packs V) (nPack : UInt32) : List (CKeyID × V) := (packs.lookup nPack).getD []

def write (packs : Packs V) (nPack : UInt32) (pack : List (CKeyID × V)) : Packs V :=
  (nPack, pack) :: packs.filter fun e => e.1 != nPack

end Packs

/-- The records of one account in the wallet database, and whether the next writes succeed; beyond the
list they do. -/
structure AccountDB where
  extKeys : CKeyID → Option CStoredExtKey
  account : AccountRecord
  keyPacks : Packs CEKAKey
  stealthKeyPacks : Packs CEKAStealthKey
  stealthChildPacks : Packs CEKASCKey
  outcomes : List Bool

namespace AccountDB

variable (db : AccountDB)

def setExtKey (id : CKeyID) (sek : CStoredExtKey) : AccountDB :=
  { db with extKeys := Function.update db.extKeys id (some sek.stored) }

def setAccount (account : AccountRecord) : AccountDB := { db with account }

def setKeyPack (nPack : UInt32) (ekPak : List (CKeyID × CEKAKey)) : AccountDB :=
  { db with keyPacks := db.keyPacks.write nPack ekPak }

def setStealthPack (nPack : UInt32) (aksPak : List (CKeyID × CEKAStealthKey)) : AccountDB :=
  { db with stealthKeyPacks := db.stealthKeyPacks.write nPack aksPak }

def setChildPack (nPack : UInt32) (asckPak : List (CKeyID × CEKASCKey)) : AccountDB :=
  { db with stealthChildPacks := db.stealthChildPacks.write nPack asckPak }

/-- One write. -/
def commitWrite (change : AccountDB → AccountDB) : Bool × AccountDB :=
  match db.outcomes with
  | [] => (true, change db)
  | true :: outcomes => (true, change { db with outcomes })
  | false :: outcomes => (false, { db with outcomes })

def writeExtKey (id : CKeyID) (sek : CStoredExtKey) : Bool × AccountDB :=
  db.commitWrite fun db => db.setExtKey id sek

def writeExtAccount (sea : CExtKeyAccount) : Bool × AccountDB :=
  db.commitWrite fun db => db.setAccount sea.toAccountRecord

end AccountDB

/-- The account in memory and its records. -/
structure KeyState where
  sea : CExtKeyAccount
  db : AccountDB

end Database

section Creation

variable (ops : ExtKeyOps)

/-- `vExtKeyIDs[nChain]`. -/
def CExtKeyAccount.chainID (sea : CExtKeyAccount) (nChain : UInt32) : CKeyID :=
  (sea.vExtKeyIDs[nChain.toNat]?).getD 0

/-- `ExtKeyAppendToPack` for a derived key: `fUpdateAcc`, or nothing where the write fails. -/
def appendToKeyPack (st : KeyState) (idKey : CKeyID) (ak : CEKAKey) : Option Bool × KeyState :=
  let ekPak := st.db.keyPacks.read st.sea.nPack ++ [(idKey, ak)]
  match st.db.commitWrite fun db => db.setKeyPack st.sea.nPack ekPak with
  | (false, db) => (none, ⟨st.sea, db⟩)
  | (true, db) =>
    if ekPak.length ≥ MAX_KEY_PACK_SIZE - 1 then (some true, ⟨st.sea.setPack (st.sea.nPack + 1), db⟩)
    else (some false, ⟨st.sea, db⟩)

/-- `ExtKeyAppendToPack` for a key derived from a stealth key. -/
def appendToChildPack (st : KeyState) (idKey : CKeyID) (asck : CEKASCKey) : Option Bool × KeyState :=
  let asckPak := st.db.stealthChildPacks.read st.sea.nPackStealthKeys ++ [(idKey, asck)]
  match st.db.commitWrite fun db => db.setChildPack st.sea.nPackStealthKeys asckPak with
  | (false, db) => (none, ⟨st.sea, db⟩)
  | (true, db) =>
    if asckPak.length ≥ MAX_KEY_PACK_SIZE - 1 then
      (some true, ⟨st.sea.setPackStealthKeys (st.sea.nPackStealthKeys + 1), db⟩)
    else (some false, ⟨st.sea, db⟩)

/-- The account record, where a pack number has changed. -/
def writeIfUpdated (fUpdateAcc : Bool) (st : KeyState) : Bool × KeyState :=
  if fUpdateAcc then
    match st.db.writeExtAccount st.sea with
    | (ok, db) => (ok, ⟨st.sea, db⟩)
  else (true, st)

/-- `ExtKeySaveKey` for a derived key: whether it returns zero. -/
def extKeySaveKey (st : KeyState) (keyId : CKeyID) (ak : CEKAKey) : Bool × KeyState :=
  match st.sea.saveKey ops keyId ak with
  | (false, _) => (false, st)
  | (true, sea) =>
    match appendToKeyPack ⟨sea, st.db⟩ keyId ak with
    | (none, st) => (false, st)
    | (some fUpdateAcc, st) =>
      match st.sea.getChain ak.nParent with
      | none => (false, st)
      | some pc =>
        match st.db.writeExtKey (st.sea.chainID ak.nParent) pc with
        | (false, db) => (false, ⟨st.sea, db⟩)
        | (true, db) => writeIfUpdated fUpdateAcc ⟨st.sea, db⟩

/-- `ExtKeySaveKey` for a key derived from a stealth key. -/
def extKeySaveChildKey (st : KeyState) (keyId : CKeyID) (asck : CEKASCKey) : Bool × KeyState :=
  match st.sea.saveStealthChildKey keyId asck with
  | (false, _) => (false, st)
  | (true, sea) =>
    match appendToChildPack ⟨sea, st.db⟩ keyId asck with
    | (none, st) => (false, st)
    | (some fUpdateAcc, st) => writeIfUpdated fUpdateAcc st

/-- A child as the creation of keys derives it: the chain and its index, the child's public key and
number, and the chain with its counter advanced. -/
structure DerivedKey where
  nChain : UInt32
  sek : CStoredExtKey
  pubkey : Bytes
  nChildOut : UInt32
  sekNext : CStoredExtKey

/-- The part of `NewKeyFromAccount` before it writes. -/
def deriveNewKey (fWalletLocked : Bool) (sea : CExtKeyAccount) (fInternal fHardened : Bool) :
    Option DerivedKey :=
  let nExtKey := if fInternal then sea.nActiveInternal else sea.nActiveExternal
  if fHardened && fWalletLocked then none
  else
    match sea.getChain nExtKey with
    | none => none
    | some sek =>
      match sek.deriveNextKey ops false fHardened with
      | none => none
      | some (pubkey, nChildOut, sekNext) => some ⟨nExtKey, sek, pubkey, nChildOut, sekNext⟩

/-- `SetCounter` back to the value before: the counter is all that the derivation has changed. -/
def KeyState.restoreChain (st : KeyState) (d : DerivedKey) : KeyState :=
  ⟨st.sea.setChain d.nChain d.sek, st.db⟩

/-- `NewKeyFromAccount` with an open database: the public key, or nothing where it fails. -/
def newKeyFromAccount (fWalletLocked : Bool) (st : KeyState) (fInternal fHardened : Bool) :
    Option Bytes × KeyState :=
  match deriveNewKey ops fWalletLocked st.sea fInternal fHardened with
  | none => (none, st)
  | some d =>
    let idKey := ops.getID d.pubkey
    let ks : CEKAKey := ⟨d.nChain, d.nChildOut⟩
    match appendToKeyPack ⟨st.sea.setChain d.nChain d.sekNext, st.db⟩ idKey ks with
    | (none, st) => (none, st.restoreChain d)
    | (some fUpdateAcc, st) =>
      match st.db.writeExtKey (st.sea.chainID d.nChain) d.sekNext with
      | (false, db) => (none, KeyState.restoreChain ⟨st.sea, db⟩ d)
      | (true, db) =>
        match writeIfUpdated fUpdateAcc ⟨st.sea, db⟩ with
        | (false, st) => (none, st.restoreChain d)
        -- the result of `SaveKey` is ignored
        | (true, st) => (some d.pubkey, ⟨(st.sea.saveKey ops idKey ks).2, st.db⟩)

/-- The scan and the spend key of `NewStealthKeyFromAccount`, both hardened; the second chain is the
one with both counted. -/
def deriveStealthKey (fWalletLocked : Bool) (sea : CExtKeyAccount) : Option (DerivedKey × DerivedKey) :=
  if fWalletLocked then none
  else
    match sea.getChain sea.nActiveStealth with
    | none => none
    | some sek =>
      match sek.deriveNextKey ops true true with
      | none => none
      | some (pkScan, nScanOut, sek') =>
        match sek'.deriveNextKey ops true true with
        | none => none
        | some (pkSpend, nSpendOut, sek'') =>
          some (⟨sea.nActiveStealth, sek, pkScan, nScanOut, sek'⟩,
            ⟨sea.nActiveStealth, sek', pkSpend, nSpendOut, sek''⟩)

/-- The new stealth key. -/
def newStealthKey (sLabel : String) (scan spend : DerivedKey) : CEKAStealthKey where
  sLabel
  nScanParent := scan.nChain
  nScanKey := scan.nChildOut
  skScan := ops.childKey (scan.sek.kp.key.getD []) scan.nChildOut
  akSpend := ⟨spend.nChain, spend.nChildOut⟩
  pkScan := scan.pubkey
  pkSpend := spend.pubkey

/-- What a failed `NewStealthKeyFromAccount` takes back. -/
def KeyState.dropStealthKey (st : KeyState) (idKey : CKeyID) (scan : DerivedKey) : KeyState :=
  ⟨(st.sea.setStealthKey idKey none).setChain scan.nChain scan.sek, st.db⟩

/-- `NewStealthKeyFromAccount` with an open database. The account record is never written. -/
def newStealthKeyFromAccount (fWalletLocked : Bool) (st : KeyState) (sLabel : String) :
    Option CEKAStealthKey × KeyState :=
  match deriveStealthKey ops fWalletLocked st.sea with
  | none => (none, st)
  | some (scan, spend) =>
    let aks := newStealthKey ops sLabel scan spend
    let idKey := ops.getID scan.pubkey
    let nPackStealth := st.sea.nPackStealth
    let sea := (st.sea.setChain spend.nChain spend.sekNext).setStealthKey idKey (some aks)
    let aksPak := st.db.stealthKeyPacks.read nPackStealth ++ [(idKey, aks)]
    match st.db.commitWrite fun db => db.setStealthPack nPackStealth aksPak with
    | (false, db) => (none, KeyState.dropStealthKey ⟨sea, db⟩ idKey scan)
    | (true, db) =>
      let sea := if aksPak.length ≥ MAX_KEY_PACK_SIZE - 1 then sea.setPackStealth (nPackStealth + 1) else sea
      match db.writeExtKey (st.sea.chainID spend.nChain) spend.sekNext with
      | (false, db) => (none, KeyState.dropStealthKey ⟨sea, db⟩ idKey scan)
      | (true, db) => (some aks, ⟨sea, db⟩)

/-- `ExtKeyEncrypt` of one chain; nothing where `EncryptSecret` fails. -/
def extKeyEncrypt (sek : CStoredExtKey) (fLockKey : Bool) : Option CStoredExtKey :=
  match sek.kp.key with
  | none => some sek
  | some key =>
    match ops.encryptSecret key sek.kp.pubkey with
    | none => none
    | some vchCryptedSecret =>
      some { sek with
        nFlags := sek.nFlags ||| EAF_IS_CRYPTED
        vchCryptedSecret
        fLocked := fLockKey
        kp := { sek.kp with key := if fLockKey then none else some key } }

/-- The new chain of `NewExtKeyFromAccount`, as far as it is set before the encryption. -/
def newChain (sLabel : String) (sekOut : CStoredExtKey) (d : DerivedKey) : CStoredExtKey :=
  { sekOut with
    nFlags := sekOut.nFlags ||| EAF_ACTIVE ||| EAF_RECEIVE_ON ||| EAF_IN_ACCOUNT
    kp := ⟨d.pubkey, some (ops.childKey (d.sek.kp.key.getD []) d.nChildOut)⟩
    sLabel }

/-- The part of `NewExtKeyFromAccount` before it writes: the child of the account chain, and the new
chain, encrypted where the wallet is. -/
def deriveExtKey (fWalletLocked fWalletCrypted : Bool) (sea : CExtKeyAccount) (sLabel : String)
    (sekOut : CStoredExtKey) : Option (DerivedKey × CStoredExtKey) :=
  if fWalletLocked then none
  else
    match sea.getChain 0 with
    | none => none
    | some sekAccount =>
      match sekAccount.deriveNextKey ops true false with
      | none => none
      | some (pubkey, nNewChildNo, sekNext) =>
        let d : DerivedKey := ⟨0, sekAccount, pubkey, nNewChildNo, sekNext⟩
        if fWalletCrypted then
          match extKeyEncrypt ops (newChain ops sLabel sekOut d) false with
          | none => none
          | some sek => some (d, sek)
        else some (d, newChain ops sLabel sekOut d)

/-- The three writes of `NewExtKeyFromAccount`, up to the first that fails. -/
def writeNewChain (sea : CExtKeyAccount) (d : DerivedKey) (sek : CStoredExtKey) (db : AccountDB) :
    Bool × AccountDB :=
  match db.writeExtAccount sea with
  | (false, db) => (false, db)
  | (true, db) =>
    match db.writeExtKey (sea.chainID 0) d.sekNext with
    | (false, db) => (false, db)
    | (true, db) => db.writeExtKey (ops.getID sek.kp.pubkey) sek

/-- `NewExtKeyFromAccount` with an open database. A failed write takes the counter back, but not the
new chain. -/
def newExtKeyFromAccount (fWalletLocked fWalletCrypted : Bool) (st : KeyState) (sLabel : String)
    (sekOut : CStoredExtKey) : Option CStoredExtKey × KeyState :=
  match deriveExtKey ops fWalletLocked fWalletCrypted st.sea sLabel sekOut with
  | none => (none, st)
  | some (d, sek) =>
    let chainNo := st.sea.vExtKeyIDs.length
    let sea := (st.sea.setChain 0 d.sekNext).addChain (ops.getID sek.kp.pubkey) sek
    match writeNewChain ops sea d sek st.db with
    | (false, db) => (none, KeyState.restoreChain ⟨sea, db⟩ d)
    | (true, db) => (some sek, ⟨sea.addLookAhead ops chainNo.toUInt32 N_DEFAULT_LOOKAHEAD, db⟩)

end Creation

end AliasWallet
