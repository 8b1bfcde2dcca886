import AliasWallet.Net.AddrMan

/-!
# What the address manager keeps

The index structures of the address manager describe the same entries. In the middle of an operation one entry
may be counted once more than it lies in buckets, or lie in no bucket at all; all other entries stay settled.
-/

namespace AliasWallet
open Lib

namespace CAddrMan

/-- What an operation has left open. -/
inductive Pending
  | settled
  | owed (nId : Nat)
  | homeless (nId : Nat)
  deriving DecidableEq

namespace Pending

/-- How many buckets an entry still has to go to. -/
def owes : Pending → Nat → Nat
  | .owed m, n => if n = m then 1 else 0
  | _, _ => 0

def Names : Pending → Nat → Prop
  | .settled, _ => False
  | .owed m, n => n = m
  | .homeless m, n => n = m

/-- Entries that no counter counts. -/
def missing : Pending → Int
  | .homeless _ => 1
  | _ => 0

@[simp] theorem owes_settled (n : Nat) : settled.owes n = 0 := rfl
@[simp] theorem owes_homeless (m n : Nat) : (homeless m).owes n = 0 := rfl
@[simp] theorem owes_owed_self (n : Nat) : (owed n).owes n = 1 := if_pos rfl
@[simp] theorem missing_settled : settled.missing = 0 := rfl
@[simp] theorem missing_owed (n : Nat) : (owed n).missing = 0 := rfl
@[simp] theorem missing_homeless (n : Nat) : (homeless n).missing = 1 := rfl

/-- Nothing is open about an entry. -/
theorem owes_of_not_names {p : Pending} {n : Nat} (h : ¬ p.Names n) : p.owes n = 0 := by
  cases p with
  | settled => rfl
  | owed m => exact if_neg h
  | homeless m => rfl

end Pending

section Invariant

variable (hash : HashFn) (timely : Prop)

def clearPos (info : CAddrInfo) : CAddrInfo := { info with nRandomPos := 0 }

theorem eq_of_clearPos {info info' : CAddrInfo} (h : clearPos info' = clearPos info) :
    info'.toCService = info.toCService ∧ info'.nRefCount = info.nRefCount ∧ info'.fInTried = info.fInTried ∧
      info'.nLastSuccess = info.nLastSuccess ∧ info'.nLastTry = info.nLastTry :=
  ⟨(congrArg (fun i : CAddrInfo => i.toCService) h :), (congrArg (fun i : CAddrInfo => i.nRefCount) h :),
    (congrArg (fun i : CAddrInfo => i.fInTried) h :), (congrArg (fun i : CAddrInfo => i.nLastSuccess) h :),
    (congrArg (fun i : CAddrInfo => i.nLastTry) h :)⟩

def positions (m : AList fun _ : Nat => CAddrInfo) (n : Nat) : Option Nat := (m.lookup n).map CAddrInfo.nRandomPos

/-- An entry is in the one tried bucket that it belongs to, or in as many new ones as it counts. Its times are not
negative where no clock has given a negative one. -/
structure EntryOk (st : CAddrMan) (p : Pending) (n : Nat) (info : CAddrInfo) : Prop where
  id : n < st.nIdCount
  lastTry : timely → 0 ≤ info.nLastTry
  lastSuccess : timely → 0 ≤ info.nLastSuccess
  tried : info.fInTried = true → info.nRefCount = 0 ∧ info.nLastSuccess ≠ 0 ∧ holders st.vvNew n = ∅ ∧
    (∀ b, n ∈ st.vvTried b ↔ b = info.getTriedBucket hash st.nKey) ∧ ¬ p.Names n
  new : info.fInTried = false → (∀ b, n ∉ st.vvTried b) ∧ info.nRefCount = (holders st.vvNew n).card + p.owes n ∧
    info.nRefCount ≤ ADDRMAN_NEW_BUCKETS_PER_ADDRESS ∧ (p ≠ .homeless n → 0 < info.nRefCount)

/-- What holds of an id; one without an entry is in no bucket. -/
def Fits (st : CAddrMan) (p : Pending) (n : Nat) : Option CAddrInfo → Prop
  | none => (∀ b, n ∉ st.vvTried b) ∧ holders st.vvNew n = ∅ ∧ ¬ p.Names n
  | some info => EntryOk hash timely st p n info

structure Consistent (p : Pending) (st : CAddrMan) : Prop where
  placed : Placed st.vRandom (positions st.mapInfo)
  addr : ∀ a n, st.mapAddr.lookup a = some n ↔ ∃ info, st.mapInfo.lookup n = some info ∧ info.toCNetAddr = a
  fits : ∀ n, Fits hash timely st p n (st.mapInfo.lookup n)
  total : (st.vRandom.length : Int) = st.nTried + st.nNew + p.missing
  nTried : st.nTried = totalLength st.vvTried
  triedNodup : ∀ b, (st.vvTried b).Nodup
  triedSize : ∀ b, (st.vvTried b).length ≤ ADDRMAN_TRIED_BUCKET_SIZE
  newSize : ∀ b, (st.vvNew b).card ≤ ADDRMAN_NEW_BUCKET_SIZE

variable {hash} {timely} {st : CAddrMan} {p : Pending}

theorem getTriedBucket_congr {info info' : CAddrInfo} (h : info'.toCService = info.toCService) (nKey : Bytes) :
    info'.getTriedBucket hash nKey = info.getTriedBucket hash nKey := by
  rw [CAddrInfo.getTriedBucket, CAddrInfo.getTriedBucket, h]

/-- An id whose buckets do not change stays as it was. -/
theorem Fits.frame {st' : CAddrMan} {p' : Pending} {n : Nat} {o o' : Option CAddrInfo} (h : Fits hash timely st p n o)
    (hkey : st'.nKey = st.nKey) (hid : st.nIdCount ≤ st'.nIdCount)
    (htried : ∀ b, n ∈ st'.vvTried b ↔ n ∈ st.vvTried b) (hnew : holders st'.vvNew n = holders st.vvNew n)
    (howes : p'.owes n = p.owes n) (hnames : p'.Names n ↔ p.Names n) (hhome : p' = .homeless n ↔ p = .homeless n)
    (ho : o'.map clearPos = o.map clearPos) : Fits hash timely st' p' n o' := by
  cases o with
  | none =>
    obtain rfl : o' = none := by simpa using ho
    exact ⟨fun b hb => h.1 b ((htried b).mp hb), hnew.trans h.2.1, fun hname => h.2.2 (hnames.mp hname)⟩
  | some info =>
    cases o' with
    | none => simp at ho
    | some info' =>
      have hinfo : clearPos info' = clearPos info := by simpa using ho
      obtain ⟨hservice, hrefs, hin, hsuccess, htry⟩ := eq_of_clearPos hinfo
      constructor
      · exact lt_of_lt_of_le h.id hid
      · rw [htry]
        exact h.lastTry
      · rw [hsuccess]
        exact h.lastSuccess
      · intro hwas
        rw [hin] at hwas
        obtain ⟨hzero, hnonzero, hempty, hbucket, hname⟩ := h.tried hwas
        rw [hrefs, hsuccess, hnew, hkey, getTriedBucket_congr hservice, hnames]
        exact ⟨hzero, hnonzero, hempty, fun b => (htried b).trans (hbucket b), hname⟩
      · intro hwas
        rw [hin] at hwas
        obtain ⟨hnone, hcount, hmax, hpos⟩ := h.new hwas
        rw [hrefs, hnew, howes]
        exact ⟨fun b hb => hnone b ((htried b).mp hb), hcount, hmax, fun hne => hpos fun hp => hne (hhome.mpr hp)⟩

theorem Consistent.entry (h : Consistent hash timely p st) {n : Nat} {info : CAddrInfo}
    (hn : st.mapInfo.lookup n = some info) : EntryOk hash timely st p n info := by
  have hfits := h.fits n
  rwa [hn] at hfits

theorem Consistent.of_mem_new (h : Consistent hash timely p st) {n : Nat} {b : NewBucket} (hn : n ∈ st.vvNew b) :
    ∃ info, st.mapInfo.lookup n = some info ∧ info.fInTried = false := by
  have hfits := h.fits n
  cases hfound : st.mapInfo.lookup n with
  | none =>
    rw [hfound] at hfits
    have hb := mem_holders.mpr hn
    rw [hfits.2.1] at hb
    exact absurd hb (Finset.notMem_empty b)
  | some info =>
    rw [hfound] at hfits
    refine ⟨info, rfl, ?_⟩
    by_contra htried
    have hb := mem_holders.mpr hn
    rw [(hfits.tried (Bool.eq_true_of_not_eq_false htried)).2.2.1] at hb
    exact absurd hb (Finset.notMem_empty b)

theorem Consistent.of_mem_tried (h : Consistent hash timely p st) {n : Nat} {b : TriedBucket} (hn : n ∈ st.vvTried b) :
    ∃ info, st.mapInfo.lookup n = some info ∧ info.fInTried = true ∧ info.getTriedBucket hash st.nKey = b := by
  have hfits := h.fits n
  cases hfound : st.mapInfo.lookup n with
  | none =>
    rw [hfound] at hfits
    exact absurd hn (hfits.1 b)
  | some info =>
    rw [hfound] at hfits
    cases htried : info.fInTried with
    | false => exact absurd hn ((hfits.new htried).1 b)
    | true => exact ⟨info, rfl, htried, (((hfits.tried htried).2.2.2.1 b).mp hn).symm⟩

theorem Consistent.of_names (h : Consistent hash timely p st) {n : Nat} (hn : p.Names n) :
    ∃ info, st.mapInfo.lookup n = some info ∧ info.fInTried = false := by
  have hfits := h.fits n
  cases hfound : st.mapInfo.lookup n with
  | none =>
    rw [hfound] at hfits
    exact absurd hn hfits.2.2
  | some info =>
    rw [hfound] at hfits
    refine ⟨info, rfl, ?_⟩
    by_contra htried
    exact (hfits.tried (Bool.eq_true_of_not_eq_false htried)).2.2.2.2 hn

theorem consistent_empty (nKey : Bytes) : Consistent hash timely .settled (empty nKey) where
  placed := placed_nil
  addr := by simp [empty]
  fits := by
    intro n
    refine ⟨fun b => List.not_mem_nil, ?_, id⟩
    ext b
    rw [mem_holders]
    exact iff_of_false (Finset.notMem_empty n) (Finset.notMem_empty b)
  total := rfl
  nTried := by simp [empty, totalLength]
  triedNodup := fun _ => List.nodup_nil
  triedSize := fun _ => Nat.zero_le _
  newSize := fun _ => Nat.zero_le _

end Invariant

section Modify

variable {hash : HashFn} {timely : Prop} {st : CAddrMan} {p : Pending}

theorem lookup_modify (st : CAddrMan) (n k : Nat) (f : CAddrInfo → CAddrInfo) :
    (st.modify n f).mapInfo.lookup k = if k = n then (st.mapInfo.lookup k).map f else st.mapInfo.lookup k :=
  lookup_modifyAt st.mapInfo n k f

theorem lookup_modify_self {n : Nat} {info : CAddrInfo} (hn : st.mapInfo.lookup n = some info)
    (f : CAddrInfo → CAddrInfo) : (st.modify n f).mapInfo.lookup n = some (f info) := by
  rw [lookup_modify, if_pos rfl, hn, Option.map_some]

theorem lookup_modify_of_ne {n k : Nat} (hk : k ≠ n) (f : CAddrInfo → CAddrInfo) :
    (st.modify n f).mapInfo.lookup k = st.mapInfo.lookup k := by
  rw [lookup_modify, if_neg hk]

theorem positions_modify {n : Nat} {f : CAddrInfo → CAddrInfo} (hf : ∀ info, (f info).nRandomPos = info.nRandomPos) :
    positions (st.modify n f).mapInfo = positions st.mapInfo := by
  funext k
  rw [positions, positions, lookup_modify]
  split
  · rw [Option.map_map]
    exact congrArg (fun g => (st.mapInfo.lookup k).map g) (funext hf)
  · rfl

/-- A change that leaves the address of an entry leaves the index of addresses. -/
theorem modify_addr_iff {n : Nat} {f : CAddrInfo → CAddrInfo} (hf : ∀ info, (f info).toCNetAddr = info.toCNetAddr)
    (a : CNetAddr) (k : Nat) :
    (∃ info, (st.modify n f).mapInfo.lookup k = some info ∧ info.toCNetAddr = a) ↔
      ∃ info, st.mapInfo.lookup k = some info ∧ info.toCNetAddr = a := by
  rw [lookup_modify]
  split
  · constructor
    · rintro ⟨info, hk, rfl⟩
      obtain ⟨info', hk', rfl⟩ := Option.map_eq_some_iff.mp hk
      exact ⟨info', hk', (hf info').symm⟩
    · rintro ⟨info, hk, rfl⟩
      exact ⟨f info, by rw [hk, Option.map_some], hf info⟩
  · rfl

theorem Consistent.addr_modify (h : Consistent hash timely p st) {n : Nat} {f : CAddrInfo → CAddrInfo}
    (hf : ∀ info, (f info).toCNetAddr = info.toCNetAddr) (a : CNetAddr) (k : Nat) :
    st.mapAddr.lookup a = some k ↔
      ∃ info, (st.modify n f).mapInfo.lookup k = some info ∧ info.toCNetAddr = a :=
  (h.addr a k).trans (modify_addr_iff hf a k).symm

/-- An entry whose address, counter and place stay the same may get other times. -/
theorem Consistent.touch (h : Consistent hash timely p st) (n : Nat) (f : CAddrInfo → CAddrInfo)
    (hservice : ∀ info, (f info).toCService = info.toCService) (hrefs : ∀ info, (f info).nRefCount = info.nRefCount)
    (hin : ∀ info, (f info).fInTried = info.fInTried) (hpos : ∀ info, (f info).nRandomPos = info.nRandomPos)
    (htry : timely → ∀ info : CAddrInfo, 0 ≤ info.nLastTry → 0 ≤ (f info).nLastTry)
    (hsuccess : timely → ∀ info : CAddrInfo, 0 ≤ info.nLastSuccess → 0 ≤ (f info).nLastSuccess)
    (hnonzero : ∀ info : CAddrInfo, info.nLastSuccess ≠ 0 → (f info).nLastSuccess ≠ 0) :
    Consistent hash timely p (st.modify n f) where
  placed := by
    rw [positions_modify hpos]
    exact h.placed
  addr := h.addr_modify fun info => congrArg CService.toCNetAddr (hservice info)
  fits := by
    intro k
    by_cases hk : k = n
    · subst hk
      have hfits := h.fits k
      cases hfound : st.mapInfo.lookup k with
      | none =>
        rw [lookup_modify, if_pos rfl, hfound]
        rwa [hfound] at hfits
      | some info =>
        rw [hfound] at hfits
        rw [lookup_modify_self hfound]
        refine ⟨hfits.id, fun ht => htry ht info (hfits.lastTry ht),
          fun ht => hsuccess ht info (hfits.lastSuccess ht), fun hwas => ?_, fun hwas => ?_⟩
        · obtain ⟨hzero, hne, hempty, hbucket, hname⟩ := hfits.tried ((hin info).symm.trans hwas)
          refine ⟨(hrefs info).trans hzero, hnonzero info hne, hempty, fun b => ?_, hname⟩
          rw [getTriedBucket_congr (hservice info)]
          exact hbucket b
        · rw [hrefs info]
          exact hfits.new ((hin info).symm.trans hwas)
    · rw [lookup_modify_of_ne hk]
      exact (h.fits k).frame rfl le_rfl (fun _ => Iff.rfl) rfl rfl Iff.rfl Iff.rfl rfl
  total := h.total
  nTried := h.nTried
  triedNodup := h.triedNodup
  triedSize := h.triedSize
  newSize := h.newSize

end Modify

end CAddrMan

end AliasWallet
