import AliasWallet.Wallet.ExtKey

/-!
# The stealth addresses of a wallet (`CWallet::IsMine`)

A wallet holds loose stealth addresses, and stealth keys in its accounts.
-/

namespace AliasWallet
open Lib

structure CStealthAddress where
  scan_pubkey : Bytes
  spend_pubkey : Bytes
  scan_secret : Bytes
  spend_secret : Bytes
  deriving DecidableEq, Repr

/-- `scan_secret.size() == EC_SECRET_SIZE`. -/
def CStealthAddress.isOwned (sx : CStealthAddress) : Bool := sx.scan_secret.length == EC_SECRET_SIZE

/-- `skScan.IsValid()`; a key that is not valid holds no secret. -/
def CEKAStealthKey.isScanValid (aks : CEKAStealthKey) : Bool := aks.skScan.length == EC_SECRET_SIZE

/-- The set of loose addresses, which is ordered by the scan public key, and the stealth keys of the accounts. -/
structure StealthWallet where
  stealthAddresses : List CStealthAddress
  mapExtAccounts : List (CKeyID × List (CKeyID × CEKAStealthKey))
  scanKeysDiffer : (stealthAddresses.map CStealthAddress.scan_pubkey).Nodup

namespace StealthWallet

variable (w : StealthWallet) (stealthAddress : CStealthAddress)

/-- The loop over the loose addresses; the spend public keys are compared for a difference. -/
def isMineLoose : Bool :=
  w.stealthAddresses.any fun it =>
    it.isOwned && it.scan_pubkey == stealthAddress.scan_pubkey && it.spend_pubkey != stealthAddress.spend_pubkey

/-- The loops over the accounts and their stealth keys. -/
def isMineAccounts : Bool :=
  w.mapExtAccounts.any fun mi => mi.2.any fun it =>
    it.2.isScanValid && it.2.pkScan == stealthAddress.scan_pubkey && it.2.pkSpend == stealthAddress.spend_pubkey

/-- `CWallet::IsMine(CStealthAddress)`. -/
def isMine : Bool := w.isMineLoose stealthAddress || w.isMineAccounts stealthAddress

/-- An account holds a valid stealth key with both public keys. -/
def AccountOwns : Prop :=
  ∃ mi ∈ w.mapExtAccounts, ∃ it ∈ mi.2, it.2.isScanValid ∧ it.2.pkScan = stealthAddress.scan_pubkey ∧
    it.2.pkSpend = stealthAddress.spend_pubkey

/-- The wallet owns a stealth address with both public keys. -/
def Owns : Prop :=
  (∃ it ∈ w.stealthAddresses, it.isOwned ∧ it.scan_pubkey = stealthAddress.scan_pubkey ∧
    it.spend_pubkey = stealthAddress.spend_pubkey) ∨ w.AccountOwns stealthAddress

variable {w stealthAddress}

theorem isMineLoose_iff : w.isMineLoose stealthAddress = true ↔
    ∃ it ∈ w.stealthAddresses, it.isOwned ∧ it.scan_pubkey = stealthAddress.scan_pubkey ∧
      it.spend_pubkey ≠ stealthAddress.spend_pubkey := by
  simp [isMineLoose, and_assoc]

theorem isMineAccounts_iff : w.isMineAccounts stealthAddress = true ↔ w.AccountOwns stealthAddress := by
  simp [isMineAccounts, AccountOwns, and_assoc]

/-- Two addresses of the set with one scan public key are the same. -/
theorem eq_of_scan_pubkey {it it' : CStealthAddress} (h : it ∈ w.stealthAddresses) (h' : it' ∈ w.stealthAddresses)
    (hscan : it.scan_pubkey = it'.scan_pubkey) : it = it' :=
  List.inj_on_of_nodup_map w.scanKeysDiffer h h' hscan

/-- The test is right exactly for an address that an account owns, and for one whose scan public key no loose address
of the wallet has. -/
theorem isMine_iff_owns (w : StealthWallet) (stealthAddress : CStealthAddress) :
    (w.isMine stealthAddress = true ↔ w.Owns stealthAddress) ↔
      w.AccountOwns stealthAddress ∨
        ∀ it ∈ w.stealthAddresses, it.isOwned → it.scan_pubkey ≠ stealthAddress.scan_pubkey := by
  rw [isMine, Bool.or_eq_true, isMineLoose_iff, isMineAccounts_iff, Owns]
  constructor
  · intro hright
    by_cases haccount : w.AccountOwns stealthAddress
    · exact Or.inl haccount
    · refine Or.inr fun it hit howned hscan => ?_
      -- the one address with the scan key would have to have the spend key, and not to have it
      by_cases hspend : it.spend_pubkey = stealthAddress.spend_pubkey
      · have hmine := hright.mpr (Or.inl ⟨it, hit, howned, hscan, hspend⟩)
        obtain ⟨it', hit', -, hscan', hspend'⟩ := hmine.resolve_right haccount
        exact hspend' (eq_of_scan_pubkey hit hit' (hscan.trans hscan'.symm) ▸ hspend)
      · have howns := hright.mp (Or.inl ⟨it, hit, howned, hscan, hspend⟩)
        obtain ⟨it', hit', -, hscan', hspend'⟩ := howns.resolve_right haccount
        exact hspend (eq_of_scan_pubkey hit hit' (hscan.trans hscan'.symm) ▸ hspend')
  · rintro (haccount | hnone)
    · exact ⟨fun _ => Or.inr haccount, fun _ => Or.inr haccount⟩
    · apply or_congr_left
      constructor
      · rintro ⟨it, hit, howned, hscan, -⟩
        exact absurd hscan (hnone it hit howned)
      · rintro ⟨it, hit, howned, hscan, -⟩
        exact absurd hscan (hnone it hit howned)

/-- A wallet with one loose address. -/
def single (sx : CStealthAddress) : StealthWallet := ⟨[sx], [], List.nodup_singleton _⟩

def ownedAddress : CStealthAddress := ⟨[2], [3], List.replicate 32 1, []⟩

/-- The only address of a wallet is not its own. -/
theorem ownedAddress_not_mine : (single ownedAddress).Owns ownedAddress ∧
    (single ownedAddress).isMine ownedAddress = false :=
  ⟨Or.inl ⟨ownedAddress, List.mem_singleton_self _, by decide, rfl, rfl⟩, by decide⟩

end StealthWallet

end AliasWallet
