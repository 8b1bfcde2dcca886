import AliasWallet.Core.Unserialize
import AliasWallet.Crypto.Curve
import Mathlib.Data.List.Sort

/-!
# Alerts (`alert.h`, `alert.cpp`, `main.cpp`)

Signed alerts are kept under their hashes, at most five at a time, and are relayed once to every peer. An alert removes
those that it cancels. The one that says that the key is compromised stays alone and for good.
-/

namespace AliasWallet
open Lib

def maxInt : Int32 := Int32.maxValue

/-- The sets are lists in which only membership matters. -/
structure CUnsignedAlert where
  nVersion : Int32
  nRelayUntil : Int64
  nExpiration : Int64
  nID : Int32
  nCancel : Int32
  setCancel : List Int32
  nMinVer : Int32
  nMaxVer : Int32
  setSubVer : List Bytes
  nPriority : Int32
  strComment : Bytes
  strStatusBar : Bytes
  strReserved : Bytes
  deriving DecidableEq

structure CAlert extends CUnsignedAlert where
  vchMsg : Bytes
  vchSig : Bytes
  deriving DecidableEq

section Read

def readString : Reader Bytes := do
  let nSize ← readCompactSize
  readBytes nSize

def readSet {α : Type} (read : Reader α) : Reader (List α) := do
  let nSize ← readCompactSize
  readMany read nSize

def CUnsignedAlert.unserialize : Reader CUnsignedAlert := do
  let nVersion ← readInt32
  let nRelayUntil ← readInt64
  let nExpiration ← readInt64
  let nID ← readInt32
  let nCancel ← readInt32
  let setCancel ← readSet readInt32
  let nMinVer ← readInt32
  let nMaxVer ← readInt32
  let setSubVer ← readSet readString
  let nPriority ← readInt32
  let strComment ← readString
  let strStatusBar ← readString
  let strReserved ← readString
  return ⟨nVersion, nRelayUntil, nExpiration, nID, nCancel, setCancel, nMinVer, nMaxVer, setSubVer, nPriority,
    strComment, strStatusBar, strReserved⟩

/-- The message and the signature of an alert. -/
def CAlert.unserialize : Reader (Bytes × Bytes) := do
  let vchMsg ← readScript
  let vchSig ← readScript
  return (vchMsg, vchSig)

end Read

/-- The hash, the check of a signature under `AlertKey`, and what this node calls itself. -/
structure AlertEnv where
  hash : HashFn
  verify : UInt256 → Bytes → Bool
  PROTOCOL_VERSION : Int32
  strSubVersion : Bytes

/-- What a peer knows, and the alerts that were pushed to it. -/
structure AlertPeer where
  nVersion : Int32
  strSubVer : Bytes
  setKnown : List UInt256
  nMisbehavior : Int
  pushed : List CAlert

/-- The alerts with ascending hashes. -/
abbrev MapAlerts := List (UInt256 × CAlert)

variable (env : AlertEnv)

namespace CAlert

def getHash (alert : CAlert) : UInt256 := env.hash alert.vchMsg

def isInEffect (now : Int64) (alert : CAlert) : Bool := decide (now < alert.nExpiration)

/-- The numbers that an alert cancels while it is in effect. -/
def Covers (alert : CAlert) (nID : Int32) : Prop := nID ≤ alert.nCancel ∨ nID ∈ alert.setCancel

instance (alert : CAlert) (nID : Int32) : Decidable (alert.Covers nID) := inferInstanceAs (Decidable (_ ∨ _))

def cancels (now : Int64) (alert other : CAlert) : Bool := alert.isInEffect now && decide (alert.Covers other.nID)

def appliesTo (now : Int64) (alert : CAlert) (nVersion : Int32) (strSubVerIn : Bytes) : Bool :=
  alert.isInEffect now && decide (alert.nMinVer ≤ nVersion) && decide (nVersion ≤ alert.nMaxVer) &&
    (alert.setSubVer.isEmpty || alert.setSubVer.contains strSubVerIn)

def appliesToMe (now : Int64) (alert : CAlert) : Bool := alert.appliesTo now env.PROTOCOL_VERSION env.strSubVersion

def relayTo (now : Int64) (alert : CAlert) (pnode : AlertPeer) : AlertPeer :=
  if alert.isInEffect now = true ∧ pnode.setKnown.contains (alert.getHash env) = false then
    let pnode := { pnode with setKnown := alert.getHash env :: pnode.setKnown }
    if alert.appliesTo now pnode.nVersion pnode.strSubVer || alert.appliesToMe env now ||
        decide (now < alert.nRelayUntil)
      then { pnode with pushed := pnode.pushed ++ [alert] } else pnode
  else pnode

/-- What an alert with the highest number has to say. -/
def isFinal (alert : CAlert) : Bool :=
  decide (alert.nExpiration = 0x7fffffff) && decide (alert.nCancel = maxInt - 1) && decide (alert.nMinVer = 0) &&
    decide (alert.nMaxVer = maxInt) && alert.setSubVer.isEmpty && decide (alert.nPriority = maxInt) &&
    decide (alert.strStatusBar = "URGENT: Alert key compromised, upgrade required".toUTF8.toList) &&
    decide (alert.strComment = []) && decide (alert.strReserved = []) && decide (alert.nVersion = 1)

end CAlert

/-- `ProcessAlert` for a message and its signature: the alert where it is accepted, and the alerts that are left; none
where reading throws. What is cancelled goes also if there is no place for the alert. -/
def processAlert (now : Int64) (vchMsg vchSig : Bytes) (mapAlerts : MapAlerts) : Option (Option CAlert × MapAlerts) :=
  if env.verify (env.hash vchMsg) vchSig = false then some (none, mapAlerts)
  else match CUnsignedAlert.unserialize vchMsg with
    | none => none
    | some (unsigned, _) =>
      let alert : CAlert := { unsigned with vchMsg, vchSig }
      if alert.isInEffect now = false then some (none, mapAlerts)
      else if alert.nID = maxInt ∧ alert.isFinal = false then some (none, mapAlerts)
      else if mapAlerts.any fun item => item.2.cancels now alert || item.2.isFinal then some (none, mapAlerts)
      else
        let left := mapAlerts.filter fun item => !alert.cancels now item.2 && item.2.isInEffect now
        if 5 ≤ left.length then some (none, left)
        else if (left.map Prod.fst).contains (alert.getHash env) then some (some alert, left)
        else some (some alert, left.orderedInsert (fun item item' => item.1 ≤ item'.1) (alert.getHash env, alert))

/-- The alerts of a node and its peers. -/
structure AlertNode where
  mapAlerts : MapAlerts
  vNodes : List AlertPeer

/-- What reaches a node; whether a version message gets as far as the alerts is decided elsewhere. -/
inductive AlertEvent
  | connected
  | disconnected (i : Nat)
  | version (i : Nat) (nVersion : Int32) (strSubVer : Bytes) (relays : Bool)
  | alert (i : Nat) (vRecv : Bytes)

namespace AlertNode

def misbehaving (i : Nat) (howmuch : Int) (s : AlertNode) : AlertNode :=
  { s with vNodes := s.vNodes.modify i fun pnode => { pnode with nMisbehavior := pnode.nMisbehavior + howmuch } }

/-- The part of a `version` message that concerns alerts. -/
def versionMessage (now : Int64) (i : Nat) (nVersion : Int32) (strSubVer : Bytes) (relays : Bool) (s : AlertNode) :
    AlertNode :=
  { s with vNodes := s.vNodes.modify i fun pfrom =>
      let pfrom := { pfrom with nVersion, strSubVer }
      if relays then s.mapAlerts.foldl (fun pnode item => item.2.relayTo env now pnode) pfrom else pfrom }

/-- An `alert` message; what throws is caught by the caller. -/
def alertMessage (now : Int64) (i : Nat) (vRecv : Bytes) (s : AlertNode) : AlertNode :=
  match s.vNodes[i]? with
  | none => s
  | some pfrom =>
    if pfrom.nVersion = 0 then s.misbehaving i 1
    else match CAlert.unserialize vRecv with
      | none => s
      | some ((vchMsg, vchSig), _) =>
        if pfrom.setKnown.contains (env.hash vchMsg) then s
        else match processAlert env now vchMsg vchSig s.mapAlerts with
          | none => s
          | some (none, mapAlerts) => { s with mapAlerts }.misbehaving i 10
          | some (some alert, mapAlerts) =>
            let vNodes := s.vNodes.modify i fun pfrom => { pfrom with setKnown := env.hash vchMsg :: pfrom.setKnown }
            ⟨mapAlerts, vNodes.map (alert.relayTo env now)⟩

def step (s : AlertNode) (event : Int64 × AlertEvent) : AlertNode :=
  match event.2 with
  | .connected => { s with vNodes := s.vNodes ++ [⟨0, [], [], 0, []⟩] }
  | .disconnected i => { s with vNodes := s.vNodes.eraseIdx i }
  | .version i nVersion strSubVer relays => s.versionMessage env event.1 i nVersion strSubVer relays
  | .alert i vRecv => s.alertMessage env event.1 i vRecv

def new : AlertNode := ⟨[], []⟩

/-- The node after events at their times. -/
def run (events : List (Int64 × AlertEvent)) : AlertNode := events.foldl (step env) new

end AlertNode

section Invariant

/-- Signed, with the fields that its message says, and as prescribed if it has the highest number. -/
structure CAlert.Genuine (alert : CAlert) : Prop where
  signed : env.verify (alert.getHash env) alert.vchSig = true
  fields : ∃ rest, CUnsignedAlert.unserialize alert.vchMsg = some (alert.toCUnsignedAlert, rest)
  prescribed : alert.nID = maxInt → alert.isFinal = true

/-- No alert was pushed twice, and none that is not genuine. -/
structure AlertPeer.Ok (pnode : AlertPeer) : Prop where
  once : (pnode.pushed.map (CAlert.getHash env)).Nodup
  known : ∀ alert ∈ pnode.pushed, alert.getHash env ∈ pnode.setKnown
  genuine : ∀ alert ∈ pnode.pushed, alert.Genuine env

/-- At most five alerts, of which none would cancel another one; a final one is alone. -/
structure MapAlerts.Ok (mapAlerts : MapAlerts) : Prop where
  few : mapAlerts.length ≤ 5
  keys : (mapAlerts.map Prod.fst).Nodup
  genuine : ∀ item ∈ mapAlerts, item.1 = item.2.getHash env ∧ item.2.Genuine env
  apart : ∀ item ∈ mapAlerts, ∀ item' ∈ mapAlerts, item.1 ≠ item'.1 → ¬ item.2.Covers item'.2.nID
  alone : ∀ item ∈ mapAlerts, item.2.isFinal = true → mapAlerts = [item]

structure AlertNode.Ok (s : AlertNode) : Prop where
  alerts : MapAlerts.Ok env s.mapAlerts
  peers : ∀ pnode ∈ s.vNodes, pnode.Ok env

variable {env : AlertEnv} {now : Int64} {alert : CAlert} {mapAlerts : MapAlerts}

theorem AlertPeer.Ok.congr {pnode pnode' : AlertPeer} (h : pnode.Ok env) (hpushed : pnode'.pushed = pnode.pushed)
    (hknown : ∀ hash ∈ pnode.setKnown, hash ∈ pnode'.setKnown) : pnode'.Ok env where
  once := by
    rw [hpushed]
    exact h.once
  known := by
    rw [hpushed]
    exact fun alert halert => hknown _ (h.known alert halert)
  genuine := by
    rw [hpushed]
    exact h.genuine

/-- An alert is pushed only if its hash was not known. -/
theorem AlertPeer.Ok.relayTo {pnode : AlertPeer} (h : pnode.Ok env) (halert : alert.Genuine env) :
    (alert.relayTo env now pnode).Ok env := by
  rw [CAlert.relayTo]
  dsimp only
  split_ifs with hnew hpush
  · refine ⟨?_, ?_, ?_⟩
    · rw [List.map_append, List.nodup_append]
      refine ⟨h.once, List.nodup_singleton _, ?_⟩
      intro hash hhash hash' hhash' heq
      obtain ⟨alert', halert', rfl⟩ := List.mem_map.mp hhash
      rw [List.mem_singleton.mp hhash'] at heq
      have hknown := h.known alert' halert'
      rw [heq] at hknown
      exact Bool.eq_false_iff.mp hnew.2 (List.contains_iff_mem.mpr hknown)
    · intro alert' halert'
      cases List.mem_append.mp halert' with
      | inl hold => exact List.mem_cons_of_mem _ (h.known alert' hold)
      | inr hlast =>
        rw [List.mem_singleton.mp hlast]
        exact List.mem_cons_self
    · intro alert' halert'
      cases List.mem_append.mp halert' with
      | inl hold => exact h.genuine alert' hold
      | inr hlast =>
        rw [List.mem_singleton.mp hlast]
        exact halert
  · exact h.congr rfl fun hash hhash => List.mem_cons_of_mem _ hhash
  · exact h

theorem relayAll_ok (items : MapAlerts) (hitems : ∀ item ∈ items, item.2.Genuine env) {pnode : AlertPeer}
    (h : pnode.Ok env) : (items.foldl (fun pnode item => item.2.relayTo env now pnode) pnode).Ok env := by
  induction items generalizing pnode with
  | nil => exact h
  | cons item items ih =>
    rw [List.foldl_cons]
    apply ih fun item' hitem' => hitems item' (List.mem_cons_of_mem _ hitem')
    exact h.relayTo (hitems item List.mem_cons_self)

theorem MapAlerts.Ok.filter (h : MapAlerts.Ok env mapAlerts) (keep : UInt256 × CAlert → Bool) :
    MapAlerts.Ok env (mapAlerts.filter keep) where
  few := (List.length_filter_le _ _).trans h.few
  keys := h.keys.sublist (List.filter_sublist.map _)
  genuine := fun item hitem => h.genuine item (List.mem_filter.mp hitem).1
  apart := fun item hitem item' hitem' => h.apart item (List.mem_filter.mp hitem).1 item' (List.mem_filter.mp hitem').1
  alone := by
    intro item hitem hfinal
    rw [List.mem_filter] at hitem
    rw [h.alone item hitem.1 hfinal, List.filter_singleton, hitem.2]
    rfl

/-- A number that a final alert does not cover is the highest one. -/
theorem CAlert.covers_of_final (hfinal : alert.isFinal = true) {nID : Int32} (hid : nID ≠ maxInt) :
    alert.Covers nID := by
  have hcancel : alert.nCancel = maxInt - 1 := by
    simp only [CAlert.isFinal, Bool.and_eq_true, decide_eq_true_eq] at hfinal
    tauto
  left
  have hne : nID.toInt ≠ 2147483647 := fun heq => hid (Int32.toInt_inj.mp heq)
  have hlt := nID.toInt_lt
  rw [hcancel, Int32.le_iff_toInt_le, show (maxInt - 1).toInt = 2147483646 from rfl]
  omega

/-- An alert that none of the others cancels and that cancels none of them, where a final one finds no others. -/
theorem MapAlerts.Ok.insert (h : MapAlerts.Ok env mapAlerts) (halert : alert.Genuine env) (hroom : mapAlerts.length < 5)
    (hnew : alert.getHash env ∉ mapAlerts.map Prod.fst)
    (hcancels : ∀ item ∈ mapAlerts, ¬ item.2.Covers alert.nID ∧ ¬ alert.Covers item.2.nID ∧ item.2.isFinal = false) :
    MapAlerts.Ok env (mapAlerts.orderedInsert (fun item item' => item.1 ≤ item'.1) (alert.getHash env, alert)) := by
  have hperm := List.perm_orderedInsert (fun item item' : UInt256 × CAlert => item.1 ≤ item'.1)
    (alert.getHash env, alert) mapAlerts
  have hmem : ∀ item, item ∈ mapAlerts.orderedInsert (fun item item' => item.1 ≤ item'.1) (alert.getHash env, alert) ↔
      item = (alert.getHash env, alert) ∨ item ∈ mapAlerts := by
    intro item
    rw [hperm.mem_iff, List.mem_cons]
  constructor
  · rw [hperm.length_eq]
    exact hroom
  · rw [(hperm.map Prod.fst).nodup_iff, List.map_cons, List.nodup_cons]
    exact ⟨hnew, h.keys⟩
  · intro item hitem
    cases (hmem item).mp hitem with
    | inl heq =>
      rw [heq]
      exact ⟨rfl, halert⟩
    | inr hold => exact h.genuine item hold
  · intro item hitem item' hitem' hne
    cases (hmem item).mp hitem with
    | inl heq =>
      cases (hmem item').mp hitem' with
      | inl heq' => exact absurd (by rw [heq, heq']) hne
      | inr hold' =>
        rw [heq]
        exact (hcancels item' hold').2.1
    | inr hold =>
      cases (hmem item').mp hitem' with
      | inl heq' =>
        rw [heq']
        exact (hcancels item hold).1
      | inr hold' => exact h.apart item hold item' hold' hne
  · intro item hitem hfinal
    cases (hmem item).mp hitem with
    | inr hold =>
      rw [(hcancels item hold).2.2] at hfinal
      cases hfinal
    | inl heq =>
      rw [heq] at hfinal ⊢
      -- what a final alert leaves has the highest number and is final itself
      have hnone : mapAlerts = [] := by
        rw [List.eq_nil_iff_forall_not_mem]
        intro item' hitem'
        obtain ⟨-, hnot, hother⟩ := hcancels item' hitem'
        have hid : item'.2.nID = maxInt := by
          by_contra hne
          exact hnot (CAlert.covers_of_final hfinal hne)
        rw [(h.genuine item' hitem').2.prescribed hid] at hother
        cases hother
      rw [hnone]
      rfl

/-- What `ProcessAlert` can do: an alert is refused, or it takes out what it cancels and what has expired, and gets a
place if fewer than five are left. -/
theorem processAlert_cases {vchMsg vchSig : Bytes} {accepted : Option CAlert} {after : MapAlerts}
    (h : processAlert env now vchMsg vchSig mapAlerts = some (accepted, after)) :
    (accepted = none ∧ after = mapAlerts) ∨
      ∃ alert : CAlert, alert.Genuine env ∧ alert.isInEffect now = true ∧
        (∀ item ∈ mapAlerts, item.2.cancels now alert = false ∧ item.2.isFinal = false) ∧
        ∃ left, left = mapAlerts.filter (fun item => !alert.cancels now item.2 && item.2.isInEffect now) ∧
          ((accepted = none ∧ after = left) ∨ (accepted = some alert ∧ left.length < 5 ∧
            (after = left ∨ alert.getHash env ∉ left.map Prod.fst ∧
              after = left.orderedInsert (fun item item' => item.1 ≤ item'.1) (alert.getHash env, alert)))) := by
  rw [processAlert] at h
  split_ifs at h with hsigned
  · cases h
    exact .inl ⟨rfl, rfl⟩
  cases hread : CUnsignedAlert.unserialize vchMsg with
  | none => rw [hread] at h; cases h
  | some read =>
    rw [hread] at h
    dsimp only at h
    split_ifs at h with heffect hid hany hfull hknown
    · cases h
      exact .inl ⟨rfl, rfl⟩
    · cases h
      exact .inl ⟨rfl, rfl⟩
    · cases h
      exact .inl ⟨rfl, rfl⟩
    all_goals
      rw [Bool.not_eq_false] at heffect
      rw [List.any_eq_true, not_exists] at hany
      refine .inr ⟨⟨read.1, vchMsg, vchSig⟩, ⟨by rwa [Bool.not_eq_false] at hsigned, ⟨read.2, hread⟩, ?_⟩, heffect, ?_,
        _, rfl, ?_⟩
      · intro hmax
        by_contra hfinal
        exact hid ⟨hmax, by rwa [Bool.not_eq_true] at hfinal⟩
      · intro item hitem
        have hneither := hany item
        rw [not_and, Bool.not_eq_true, Bool.or_eq_false_iff] at hneither
        exact hneither hitem
    · cases h
      exact .inl ⟨rfl, rfl⟩
    · cases h
      exact .inr ⟨rfl, Nat.not_le.mp hfull, .inl rfl⟩
    · cases h
      exact .inr ⟨rfl, Nat.not_le.mp hfull, .inr ⟨fun hmem => hknown (List.contains_iff_mem.mpr hmem), rfl⟩⟩

theorem MapAlerts.Ok.process (h : MapAlerts.Ok env mapAlerts) {vchMsg vchSig : Bytes} {accepted : Option CAlert}
    {after : MapAlerts} (hprocess : processAlert env now vchMsg vchSig mapAlerts = some (accepted, after)) :
    MapAlerts.Ok env after ∧ ∀ alert, accepted = some alert → alert.Genuine env := by
  obtain ⟨rfl, rfl⟩ | ⟨alert, hgenuine, heffect, hothers, left, hleft, hcases⟩ := processAlert_cases hprocess
  · exact ⟨h, fun _ hnone => absurd hnone (by simp)⟩
  have hok : MapAlerts.Ok env left := hleft ▸ h.filter _
  have hcancels : ∀ item ∈ left, ¬ item.2.Covers alert.nID ∧ ¬ alert.Covers item.2.nID ∧ item.2.isFinal = false := by
    intro item hitem
    rw [hleft, List.mem_filter, Bool.and_eq_true, Bool.not_eq_true'] at hitem
    obtain ⟨hmem, hnot, hlive⟩ := hitem
    have hother := hothers item hmem
    rw [CAlert.cancels, hlive, Bool.true_and, decide_eq_false_iff_not] at hother
    rw [CAlert.cancels, heffect, Bool.true_and, decide_eq_false_iff_not] at hnot
    exact ⟨hother.1, hnot, hother.2⟩
  obtain ⟨rfl, rfl⟩ | ⟨rfl, hroom, rfl | ⟨hnew, rfl⟩⟩ := hcases
  · exact ⟨hok, fun _ hnone => absurd hnone (by simp)⟩
  · exact ⟨hok, fun alert' halert' => Option.some.inj halert' ▸ hgenuine⟩
  · exact ⟨hok.insert hgenuine hroom hnew hcancels, fun alert' halert' => Option.some.inj halert' ▸ hgenuine⟩

/-- While a final alert is there, every other one is refused. -/
theorem processAlert_of_final {item : UInt256 × CAlert} (hitem : item ∈ mapAlerts) (hfinal : item.2.isFinal = true)
    {vchMsg vchSig : Bytes} {accepted : Option CAlert} {after : MapAlerts}
    (h : processAlert env now vchMsg vchSig mapAlerts = some (accepted, after)) : after = mapAlerts := by
  cases processAlert_cases h with
  | inl hrefused => exact hrefused.2
  | inr htaken =>
    obtain ⟨alert, -, -, hothers, -⟩ := htaken
    rw [(hothers item hitem).2] at hfinal
    cases hfinal

end Invariant

section Run

variable {env : AlertEnv} {s : AlertNode}

theorem modify_forall {α : Type} {P : α → Prop} {l : List α} (h : ∀ a ∈ l, P a) (i : Nat) {f : α → α}
    (hf : ∀ a, P a → P (f a)) : ∀ a ∈ l.modify i f, P a := by
  intro a ha
  obtain ⟨j, hj⟩ := List.getElem?_of_mem ha
  rw [List.getElem?_modify] at hj
  cases hget : l[j]? with
  | none => rw [hget] at hj; cases hj
  | some b =>
    rw [hget] at hj
    have hb := h b (List.mem_of_getElem? hget)
    have heq : (if i = j then f b else b) = a := Option.some.inj hj
    rw [← heq]
    split_ifs
    · exact hf b hb
    · exact hb

theorem AlertNode.Ok.misbehaving (h : s.Ok env) (i : Nat) (howmuch : Int) : (s.misbehaving i howmuch).Ok env where
  alerts := h.alerts
  peers := modify_forall h.peers i fun _ hpnode => hpnode.congr rfl fun _ hhash => hhash

theorem AlertNode.Ok.alertMessage (h : s.Ok env) (now : Int64) (i : Nat) (vRecv : Bytes) :
    (s.alertMessage env now i vRecv).Ok env := by
  rw [AlertNode.alertMessage]
  cases s.vNodes[i]? with
  | none => exact h
  | some pfrom =>
    dsimp only
    split_ifs
    · exact h.misbehaving i 1
    cases CAlert.unserialize vRecv with
    | none => exact h
    | some read =>
      dsimp only
      split_ifs
      · exact h
      cases hprocess : processAlert env now read.1.1 read.1.2 s.mapAlerts with
      | none => exact h
      | some result =>
        obtain ⟨accepted, after⟩ := result
        obtain ⟨hafter, hgenuine⟩ := h.alerts.process hprocess
        cases accepted with
        | none => exact AlertNode.Ok.misbehaving (s := ⟨after, s.vNodes⟩) ⟨hafter, h.peers⟩ i 10
        | some alert =>
          refine ⟨hafter, ?_⟩
          intro pnode hpnode
          obtain ⟨pnode', hpnode', rfl⟩ := List.mem_map.mp hpnode
          apply AlertPeer.Ok.relayTo _ (hgenuine alert rfl)
          apply modify_forall h.peers i _ pnode' hpnode'
          exact fun pfrom hpfrom => hpfrom.congr rfl fun hash hhash => List.mem_cons_of_mem _ hhash

/-- One event keeps the invariant. -/
theorem AlertNode.Ok.step (h : s.Ok env) (event : Int64 × AlertEvent) : (s.step env event).Ok env := by
  obtain ⟨now, event⟩ := event
  cases event with
  | connected =>
    refine ⟨h.alerts, ?_⟩
    intro pnode hpnode
    cases List.mem_append.mp hpnode with
    | inl hold => exact h.peers pnode hold
    | inr hnew =>
      rw [List.mem_singleton.mp hnew]
      exact ⟨List.nodup_nil, fun _ h => absurd h List.not_mem_nil, fun _ h => absurd h List.not_mem_nil⟩
  | disconnected i => exact ⟨h.alerts, fun pnode hpnode => h.peers pnode (List.mem_of_mem_eraseIdx hpnode)⟩
  | version i nVersion strSubVer relays =>
    refine ⟨h.alerts, modify_forall h.peers i ?_⟩
    intro pnode hpnode
    have hset : { pnode with nVersion, strSubVer }.Ok env := hpnode.congr rfl fun _ hhash => hhash
    dsimp only
    split_ifs
    · exact relayAll_ok s.mapAlerts (fun item hitem => (h.alerts.genuine item hitem).2) hset
    · exact hset
  | alert i vRecv => exact h.alertMessage now i vRecv

theorem run_ok (env : AlertEnv) (events : List (Int64 × AlertEvent)) : (AlertNode.run env events).Ok env := by
  suffices hrun : ∀ s : AlertNode, s.Ok env → (events.foldl (AlertNode.step env) s).Ok env by
    apply hrun
    refine ⟨⟨Nat.zero_le _, List.nodup_nil, ?_, ?_, ?_⟩, ?_⟩
    all_goals exact fun _ h => absurd h List.not_mem_nil
  induction events with
  | nil => exact fun _ h => h
  | cons event events ih => exact fun s h => ih _ (h.step event)

theorem step_of_final {item : UInt256 × CAlert} (hitem : item ∈ s.mapAlerts) (hfinal : item.2.isFinal = true)
    (event : Int64 × AlertEvent) : (s.step env event).mapAlerts = s.mapAlerts := by
  obtain ⟨now, event⟩ := event
  cases event with
  | connected => rfl
  | disconnected i => rfl
  | version i nVersion strSubVer relays => rfl
  | alert i vRecv =>
    change (s.alertMessage env now i vRecv).mapAlerts = s.mapAlerts
    rw [AlertNode.alertMessage]
    cases s.vNodes[i]? with
    | none => rfl
    | some pfrom =>
      dsimp only
      split_ifs
      · rfl
      cases CAlert.unserialize vRecv with
      | none => rfl
      | some read =>
        dsimp only
        split_ifs
        · rfl
        cases hprocess : processAlert env now read.1.1 read.1.2 s.mapAlerts with
        | none => rfl
        | some result =>
          obtain ⟨accepted, after⟩ := result
          have hafter := processAlert_of_final hitem hfinal hprocess
          cases accepted with
          | none => exact hafter
          | some alert => exact hafter

/-- In every run, from the first connection on, whatever the peers send and whenever: there are at most five alerts, all
signed by the key, of which none would cancel another one, and no peer was pushed an alert twice or one that is not
signed. -/
theorem alerts_run (env : AlertEnv) (events : List (Int64 × AlertEvent)) :
    (AlertNode.run env events).mapAlerts.length ≤ 5 ∧
      (∀ item ∈ (AlertNode.run env events).mapAlerts, item.1 = item.2.getHash env ∧ item.2.Genuine env ∧
        ∀ item' ∈ (AlertNode.run env events).mapAlerts, item.1 ≠ item'.1 → ¬ item.2.Covers item'.2.nID) ∧
      ∀ pnode ∈ (AlertNode.run env events).vNodes, (pnode.pushed.map (CAlert.getHash env)).Nodup ∧
        ∀ alert ∈ pnode.pushed, alert.Genuine env := by
  have hok := run_ok env events
  refine ⟨hok.alerts.few, ?_, fun pnode hpnode => ⟨(hok.peers pnode hpnode).once, (hok.peers pnode hpnode).genuine⟩⟩
  intro item hitem
  obtain ⟨hhash, hgenuine⟩ := hok.alerts.genuine item hitem
  exact ⟨hhash, hgenuine, hok.alerts.apart item hitem⟩

/-- `ProcessAlert` for an alert with the highest number: it clears the map, unless another alert is final or cancels
it. -/
theorem MapAlerts.Ok.process_final {mapAlerts : MapAlerts} (h : MapAlerts.Ok env mapAlerts) {alert : CAlert}
    (hgenuine : alert.Genuine env) (hid : alert.nID = maxInt) {now : Int64} (heffect : alert.isInEffect now = true) :
    processAlert env now alert.vchMsg alert.vchSig mapAlerts =
      some (if ∀ item ∈ mapAlerts, item.2.isFinal = false ∧ item.2.cancels now alert = false
        then (some alert, [(alert.getHash env, alert)]) else (none, mapAlerts)) := by
  obtain ⟨rest, hread⟩ := hgenuine.fields
  have hfinal := hgenuine.prescribed hid
  have hsigned : env.verify (env.hash alert.vchMsg) alert.vchSig = true := hgenuine.signed
  rw [processAlert, if_neg (by rw [hsigned]; decide), hread]
  dsimp only
  rw [if_neg (by rw [heffect]; decide), if_neg (by rw [hfinal]; tauto)]
  by_cases hothers : ∀ item ∈ mapAlerts, item.2.isFinal = false ∧ item.2.cancels now alert = false
  · have hany : mapAlerts.any (fun item => item.2.cancels now alert || item.2.isFinal) = false := by
      rw [List.any_eq_false]
      intro item hitem
      rw [(hothers item hitem).1, (hothers item hitem).2]
      decide
    have hleft : mapAlerts.filter (fun item => !alert.cancels now item.2 && item.2.isInEffect now) = [] := by
      rw [List.filter_eq_nil_iff]
      intro item hitem
      have hother : item.2.nID ≠ maxInt := by
        intro hmax
        have hnot := (hothers item hitem).1
        rw [(h.genuine item hitem).2.prescribed hmax] at hnot
        cases hnot
      rw [CAlert.cancels, heffect, decide_eq_true (CAlert.covers_of_final hfinal hother), Bool.and_self, Bool.not_true,
        Bool.false_and]
      exact Bool.false_ne_true
    rw [if_neg (by rw [hany]; decide), if_pos hothers, hleft]
    rfl
  · have hany : mapAlerts.any (fun item => item.2.cancels now alert || item.2.isFinal) = true := by
      rw [List.any_eq_true]
      by_contra hnone
      apply hothers
      intro item hitem
      have hneither := not_exists.mp hnone item
      rw [not_and, Bool.not_eq_true, Bool.or_eq_false_iff] at hneither
      exact (hneither hitem).symm
    rw [if_pos hany, if_neg hothers]

end Run

end AliasWallet
