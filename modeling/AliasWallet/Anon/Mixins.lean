import Mathlib.Data.Finset.Sort
import AliasWallet.Core.Transaction

/-!
# The choice of mixins (`CMixins`)

The anonymous outputs of a denomination stand by their transactions, in a container of recent ones and one of old ones.
A choice takes one key each from different transactions; an access out of range is null.
-/

namespace AliasWallet

inductive TxMixinsContainerId
  | old
  | recent
  deriving DecidableEq

/-- A public key with what `AddAnonOutput` reads of its output. -/
structure MixinOutput (Pk : Type) where
  pkAo : Pk
  outpoint : COutPoint
  nValue : Int64
  nBlockHeight : Int

structure CTxMixins (Pk : Type) where
  txHash : UInt256
  vOutPubKeys : List (UInt32 × Pk)

structure CMixins (Pk : Type) where
  vUsedTx : List (TxMixinsContainerId × UInt256)
  mapMixins : Int64 → TxMixinsContainerId → List (CTxMixins Pk)

/-- The random choices of one round: `GetRand` for the mode, a transaction and a key, and the shuffle. -/
structure MixinDraws where
  mode : Nat
  shuffle : List (TxMixinsContainerId × UInt256) → List (TxMixinsContainerId × UInt256)
  shuffle_perm : ∀ vUsedTx, (shuffle vUsedTx).Perm vUsedTx
  getRandTx : Nat → Nat
  getRandTx_lt : ∀ nMax, 0 < nMax → getRandTx nMax < nMax
  getRandAnon : Nat → Nat
  getRandAnon_lt : ∀ nMax, 0 < nMax → getRandAnon nMax < nMax

/-- `addAnonOutput`: the key joins those of its transaction, or begins a new one. -/
def addAnonKey {Pk : Type} (out : MixinOutput Pk) : List (CTxMixins Pk) → List (CTxMixins Pk)
  | [] => [⟨out.outpoint.hash, [(out.outpoint.n, out.pkAo)]⟩]
  | txMixins :: container =>
    if txMixins.txHash = out.outpoint.hash then
      { txMixins with vOutPubKeys := txMixins.vOutPubKeys ++ [(out.outpoint.n, out.pkAo)] } :: container
    else txMixins :: addAnonKey out container

/-- The blocks of the last three days are recent. -/
def containerOf {Pk : Type} (blockHeight : Int) (out : MixinOutput Pk) : TxMixinsContainerId :=
  if blockHeight - out.nBlockHeight < 2700 then .recent else .old

/-- The variables of `Pick` for one denomination. -/
structure MixinPick (Pk : Type) where
  vUsedTx : List (TxMixinsContainerId × UInt256)
  containers : TxMixinsContainerId → List (CTxMixins Pk)
  setPickedTxInd : TxMixinsContainerId → Finset Nat
  vPickedAnons : List Pk

/-- The loop over the picked positions, in ascending order. -/
def skipPicked : List Nat → Nat → Nat
  | [], iPickTx => iPickTx
  | iPickedTx :: setPickedTxInd, iPickTx =>
    skipPicked setPickedTxInd (if iPickedTx ≤ iPickTx then iPickTx + 1 else iPickTx)

/-- `removeEmptyTx`, over the picked positions in descending order. -/
def removeEmptyTx {Pk : Type} : List Nat → List (CTxMixins Pk) → Option (List (CTxMixins Pk))
  | [], container => some container
  | i :: setPickedTxInd, container => do
    let txMixins ← container[i]?
    removeEmptyTx setPickedTxInd (if txMixins.vOutPubKeys = [] then container.eraseIdx i else container)

namespace MixinPick

variable {Pk : Type} (st : MixinPick Pk)

/-- The key at a position of a transaction is picked and erased, and the transaction counts as picked. -/
def takeAnon (containerId : TxMixinsContainerId) (iPickTx iPickAnon : Nat) : Option (MixinPick Pk) := do
  let txMixins ← (st.containers containerId)[iPickTx]?
  let e ← txMixins.vOutPubKeys[iPickAnon]?
  return { st with
    containers := Function.update st.containers containerId ((st.containers containerId).set iPickTx
      { txMixins with vOutPubKeys := txMixins.vOutPubKeys.eraseIdx iPickAnon })
    setPickedTxInd := Function.update st.setPickedTxInd containerId (insert iPickTx (st.setPickedTxInd containerId))
    vPickedAnons := st.vPickedAnons ++ [e.2] }

def nAvailable (containerId : TxMixinsContainerId) : Nat :=
  (st.containers containerId).length - (st.setPickedTxInd containerId).card

/-- `pick`. -/
def pick (d : MixinDraws) (containerId : TxMixinsContainerId) : Option (MixinPick Pk) := do
  let iPickTx := skipPicked ((st.setPickedTxInd containerId).sort (· ≤ ·)) (d.getRandTx (st.nAvailable containerId))
  let txMixins ← (st.containers containerId)[iPickTx]?
  let st ← st.takeAnon containerId iPickTx (d.getRandAnon txMixins.vOutPubKeys.length)
  let pairContTx := (containerId, txMixins.txHash)
  return if pairContTx ∈ st.vUsedTx then st else { st with vUsedTx := st.vUsedTx ++ [pairContTx] }

/-- A transaction that was used before, where it still has keys and is not picked yet. -/
def usedTx (e : TxMixinsContainerId × UInt256) : Option (TxMixinsContainerId × Nat) :=
  ((st.containers e.1).findIdx? fun txMixins => txMixins.txHash = e.2).bind fun iPickTx =>
    if iPickTx ∈ st.setPickedTxInd e.1 then none else some (e.1, iPickTx)

/-- One round of the loop in `Pick`. -/
def round (nUsedTx : Nat) (d : MixinDraws) : Option (MixinPick Pk) :=
  let fUsed := d.mode < 33 ∧ nUsedTx > 0
  let st := if fUsed then { st with vUsedTx := d.shuffle (st.vUsedTx.take nUsedTx) ++ st.vUsedTx.drop nUsedTx } else st
  match if fUsed then (st.vUsedTx.take nUsedTx).findSome? st.usedTx else none with
  | some (iContainer, iPickTx) => do
    let txMixins ← (st.containers iContainer)[iPickTx]?
    st.takeAnon iContainer iPickTx (d.getRandAnon txMixins.vOutPubKeys.length)
  | none =>
    let containerId := if st.nAvailable .recent > 0 ∧ (d.mode ≥ 66 ∨ st.nAvailable .old = 0) then .recent else .old
    st.pick d containerId

def rounds (nUsedTx : Nat) (draws : Nat → MixinDraws) : Nat → Option (MixinPick Pk)
  | 0 => some st
  | n + 1 => (rounds nUsedTx draws n).bind fun st => st.round nUsedTx (draws n)

end MixinPick

namespace CMixins

variable {Pk : Type} (m : CMixins Pk)

/-- `AddAnonOutput`. -/
def addAnonOutput (blockHeight : Int) (out : MixinOutput Pk) : CMixins Pk :=
  let containerId := containerOf blockHeight out
  let containers := m.mapMixins out.nValue
  { m with
    mapMixins := Function.update m.mapMixins out.nValue
      (Function.update containers containerId (addAnonKey out (containers containerId))) }

/-- `InitMixins`, for the outputs that it adds. -/
def ofOutputs (blockHeight : Int) (outs : List (MixinOutput Pk)) : CMixins Pk :=
  outs.foldl (fun m out => m.addAnonOutput blockHeight out) ⟨[], fun _ _ => []⟩

/-- `Pick`: the mixins left, the picked keys, and whether it returns true. -/
def pickMixins (nValue : Int64) (nMixins : UInt8) (draws : Nat → MixinDraws) (vPickedAnons : List Pk) :
    Option (CMixins Pk × List Pk × Bool) := do
  let containers := m.mapMixins nValue
  if (containers .old).length + (containers .recent).length < nMixins.toNat then return (m, vPickedAnons, false)
  let st ← (⟨m.vUsedTx, containers, fun _ => ∅, vPickedAnons⟩ : MixinPick Pk).rounds m.vUsedTx.length draws
    nMixins.toNat
  let recent ← removeEmptyTx ((st.setPickedTxInd .recent).sort (· ≥ ·)) (st.containers .recent)
  let old ← removeEmptyTx ((st.setPickedTxInd .old).sort (· ≥ ·)) (st.containers .old)
  return ({ vUsedTx := st.vUsedTx
            mapMixins := Function.update m.mapMixins nValue fun
              | .recent => recent
              | .old => old }, st.vPickedAnons, true)

end CMixins

/-- The runs of `Pick` after the outputs were added, with the keys that were returned. -/
inductive MixinRun {Pk : Type} (blockHeight : Int) (outs : List (MixinOutput Pk)) : CMixins Pk → List Pk → Prop
  | start : MixinRun blockHeight outs (CMixins.ofOutputs blockHeight outs) []
  | pick {m m' : CMixins Pk} {returned vPickedAnons vPickedAnons' : List Pk} {fPicked : Bool} (nValue : Int64)
      (nMixins : UInt8) (draws : Nat → MixinDraws) : MixinRun blockHeight outs m returned →
      m.pickMixins nValue nMixins draws vPickedAnons = some (m', vPickedAnons', fPicked) →
      MixinRun blockHeight outs m' (returned ++ vPickedAnons'.drop vPickedAnons.length)

section Positions

variable {Pk : Type}

theorem skipPicked_below {l : List Nat} {r : Nat} (h : ∀ a ∈ l, r < a) : skipPicked l r = r := by
  induction l with
  | nil => rfl
  | cons a l ih =>
    rw [skipPicked, if_neg (not_le.mpr (h a List.mem_cons_self))]
    exact ih fun b hb => h b (List.mem_cons_of_mem a hb)

theorem le_skipPicked (l : List Nat) (r : Nat) : r ≤ skipPicked l r := by
  induction l generalizing r with
  | nil => exact le_rfl
  | cons a l ih =>
    rw [skipPicked]
    split
    · exact (Nat.le_succ r).trans (ih _)
    · exact ih r

/-- The shifted position is one that was not picked. -/
theorem skipPicked_spec {l : List Nat} (hsorted : l.Pairwise (· < ·)) {r n : Nat} (hr : r + l.length < n) :
    skipPicked l r < n ∧ skipPicked l r ∉ l := by
  induction l generalizing r with
  | nil => exact ⟨hr, List.not_mem_nil⟩
  | cons a l ih =>
    obtain ⟨hfirst, hrest⟩ := List.pairwise_cons.mp hsorted
    rw [List.length_cons] at hr
    rw [skipPicked]
    split
    case isTrue hle =>
      obtain ⟨hlt, hnot⟩ := ih hrest (r := r + 1) (by omega)
      have hge := le_skipPicked l (r + 1)
      exact ⟨hlt, fun hin => (List.mem_cons.mp hin).elim (fun heq => by omega) hnot⟩
    case isFalse hgt =>
      have hbelow : ∀ b ∈ a :: l, r < b :=
        List.forall_mem_cons.mpr ⟨not_le.mp hgt, fun b hb => (not_le.mp hgt).trans (hfirst b hb)⟩
      rw [skipPicked_below fun b hb => hbelow b (List.mem_cons_of_mem a hb)]
      exact ⟨by omega, fun hin => lt_irrefl r (hbelow r hin)⟩

/-- Where all empty transactions are picked, what is left has keys. -/
theorem removeEmptyTx_spec {l : List Nat} (hsorted : l.Pairwise (· > ·)) {container : List (CTxMixins Pk)}
    (hrange : ∀ i ∈ l, i < container.length)
    (hempty : ∀ i txMixins, container[i]? = some txMixins → txMixins.vOutPubKeys = [] → i ∈ l) :
    ∃ container', removeEmptyTx l container = some container' ∧ List.Sublist container' container ∧
      ∀ txMixins ∈ container', txMixins.vOutPubKeys ≠ [] := by
  induction l generalizing container with
  | nil =>
    refine ⟨container, rfl, List.Sublist.refl _, fun txMixins htx hnil => ?_⟩
    obtain ⟨i, hi⟩ := List.mem_iff_getElem?.mp htx
    exact absurd (hempty i txMixins hi hnil) List.not_mem_nil
  | cons i l ih =>
    obtain ⟨hfirst, hrest⟩ := List.pairwise_cons.mp hsorted
    have hi := hrange i List.mem_cons_self
    have hget : container[i]? = some container[i] := List.getElem?_eq_getElem hi
    rw [removeEmptyTx, hget, Option.bind_eq_bind, Option.bind_some]
    split
    case isTrue hnil =>
      have hnext : ∃ container', removeEmptyTx l (container.eraseIdx i) = some container' ∧
          List.Sublist container' (container.eraseIdx i) ∧ ∀ txMixins ∈ container', txMixins.vOutPubKeys ≠ [] := by
        refine ih hrest (fun j hj => ?_) fun j txMixins hj hjnil => ?_
        · have hlt := hfirst j hj
          rw [List.length_eraseIdx_of_lt hi]
          omega
        · rw [List.getElem?_eraseIdx] at hj
          split at hj
          case isTrue hlt =>
            exact (List.mem_cons.mp (hempty j txMixins hj hjnil)).resolve_left (by omega)
          case isFalse hge =>
            cases List.mem_cons.mp (hempty (j + 1) txMixins hj hjnil) with
            | inl heq => omega
            | inr hlater =>
              have hlt := hfirst _ hlater
              omega
      obtain ⟨container', hremoved, hsub, hkeys⟩ := hnext
      exact ⟨container', hremoved, hsub.trans (List.eraseIdx_sublist _ _), hkeys⟩
    case isFalse hkeys =>
      refine ih hrest (fun j hj => hrange j (List.mem_cons_of_mem i hj)) fun j txMixins hj hjnil => ?_
      refine (List.mem_cons.mp (hempty j txMixins hj hjnil)).resolve_left fun heq => hkeys ?_
      subst heq
      rw [hget] at hj
      rwa [Option.some.inj hj]

end Positions

section Hold

variable {Pk : Type}

/-- A container holds keys of outputs of its own, each in the transaction of its output, and none that is gone. -/
structure MixinsHold (outs : List (MixinOutput Pk)) (blockHeight : Int) (nValue : Int64)
    (containerId : TxMixinsContainerId) (gone : List Pk) (container : List (CTxMixins Pk)) : Prop where
  keys : ∀ txMixins ∈ container, ∀ e ∈ txMixins.vOutPubKeys, e.2 ∉ gone ∧ ∃ out ∈ outs, out.pkAo = e.2 ∧
    out.outpoint.hash = txMixins.txHash ∧ out.nValue = nValue ∧ containerOf blockHeight out = containerId
  distinct : ∀ txMixins ∈ container, (txMixins.vOutPubKeys.map Prod.snd).Nodup
  hashes : (container.map CTxMixins.txHash).Nodup

variable {outs : List (MixinOutput Pk)} {blockHeight : Int} {nValue : Int64} {containerId : TxMixinsContainerId}
  {gone : List Pk} {container : List (CTxMixins Pk)}

theorem MixinsHold.sublist {container' : List (CTxMixins Pk)} (h : MixinsHold outs blockHeight nValue containerId gone
    container) (hsub : List.Sublist container' container) :
    MixinsHold outs blockHeight nValue containerId gone container' where
  keys := fun txMixins htx => h.keys txMixins (hsub.subset htx)
  distinct := fun txMixins htx => h.distinct txMixins (hsub.subset htx)
  hashes := (hsub.map _).nodup h.hashes

/-- Keys of other outputs may go. -/
theorem MixinsHold.forget {keys : List Pk} (h : MixinsHold outs blockHeight nValue containerId gone container)
    (hother : ∀ txMixins ∈ container, ∀ e ∈ txMixins.vOutPubKeys, e.2 ∉ keys) :
    MixinsHold outs blockHeight nValue containerId (gone ++ keys) container where
  keys := by
    intro txMixins htx e he
    obtain ⟨hnot, hout⟩ := h.keys txMixins htx e he
    exact ⟨fun hin => (List.mem_append.mp hin).elim hnot (hother txMixins htx e he), hout⟩
  distinct := h.distinct
  hashes := h.hashes

theorem MixinsHold.position_inj (h : MixinsHold outs blockHeight nValue containerId gone container) {i j : Nat}
    {txMixins txMixins' : CTxMixins Pk} (hi : container[i]? = some txMixins) (hj : container[j]? = some txMixins')
    (hsame : txMixins.txHash = txMixins'.txHash) : i = j := by
  have hlt : i < (container.map CTxMixins.txHash).length := by
    rw [List.length_map]
    exact (List.getElem?_eq_some_iff.mp hi).1
  refine (List.getElem?_inj hlt h.hashes).mp ?_
  rw [List.getElem?_map, List.getElem?_map, hi, hj]
  exact congrArg some hsame

/-- In a transaction the key that is erased does not stand a second time. -/
theorem key_ne_of_mem_eraseIdx {l : List (UInt32 × Pk)} {a : Nat} {e e' : UInt32 × Pk} (hl : (l.map Prod.snd).Nodup)
    (he : l[a]? = some e) (he' : e' ∈ l.eraseIdx a) : e'.2 ≠ e.2 := by
  obtain ⟨b, hne, hb⟩ := List.mem_eraseIdx_iff_getElem?.mp he'
  intro hsame
  refine hne ?_
  have hlt : b < (l.map Prod.snd).length := by
    rw [List.length_map]
    exact (List.getElem?_eq_some_iff.mp hb).1
  refine (List.getElem?_inj hlt hl).mp ?_
  rw [List.getElem?_map, List.getElem?_map, hb, he]
  exact congrArg some hsame

end Hold

section Picks

variable {Pk : Type} {outs : List (MixinOutput Pk)} {blockHeight : Int} {nValue : Int64} {returned start : List Pk}
  {sizes : TxMixinsContainerId → Nat} {st : MixinPick Pk} {chosen : List (MixinOutput Pk)}

/-- The variables of `Pick` after some outputs were chosen: their transactions differ and count as picked, and all other
transactions have keys. -/
structure PickHolds (outs : List (MixinOutput Pk)) (blockHeight : Int) (nValue : Int64) (returned start : List Pk)
    (sizes : TxMixinsContainerId → Nat) (st : MixinPick Pk) (chosen : List (MixinOutput Pk)) : Prop where
  hold : ∀ c, MixinsHold outs blockHeight nValue c (returned ++ chosen.map MixinOutput.pkAo) (st.containers c)
  sizes : ∀ c, (st.containers c).length = sizes c
  nonempty : ∀ c i txMixins, (st.containers c)[i]? = some txMixins → i ∉ st.setPickedTxInd c → txMixins.vOutPubKeys ≠ []
  range : ∀ c, ∀ i ∈ st.setPickedTxInd c, i < (st.containers c).length
  anons : st.vPickedAnons = start ++ chosen.map MixinOutput.pkAo
  mem : ∀ out ∈ chosen, out ∈ outs ∧ out.nValue = nValue ∧ out.pkAo ∉ returned
  placed : ∀ out ∈ chosen, ∃ i ∈ st.setPickedTxInd (containerOf blockHeight out), ∃ txMixins,
    (st.containers (containerOf blockHeight out))[i]? = some txMixins ∧ txMixins.txHash = out.outpoint.hash
  distinct : (chosen.map fun out => out.outpoint.hash).Nodup
  count : chosen.length = (st.setPickedTxInd .old).card + (st.setPickedTxInd .recent).card

/-- A key stands in one transaction of one container only. -/
theorem PickHolds.key_unique (hkeys : (outs.map MixinOutput.pkAo).Nodup)
    (h : PickHolds outs blockHeight nValue returned start sizes st chosen) {c c' : TxMixinsContainerId} {i j : Nat}
    {txMixins txMixins' : CTxMixins Pk} {e e' : UInt32 × Pk} (hi : (st.containers c)[i]? = some txMixins)
    (hj : (st.containers c')[j]? = some txMixins') (he : e ∈ txMixins.vOutPubKeys) (he' : e' ∈ txMixins'.vOutPubKeys)
    (hsame : e'.2 = e.2) : c' = c ∧ j = i := by
  obtain ⟨-, out, hout, hpk, hhash, -, hc⟩ := (h.hold c).keys txMixins (List.mem_of_getElem? hi) e he
  obtain ⟨-, out', hout', hpk', hhash', -, hc'⟩ := (h.hold c').keys txMixins' (List.mem_of_getElem? hj) e' he'
  obtain rfl := List.inj_on_of_nodup_map hkeys hout' hout (hpk'.trans (hsame.trans hpk.symm))
  obtain rfl := hc'.symm.trans hc
  exact ⟨rfl, (h.hold c').position_inj hj hi (hhash'.symm.trans hhash)⟩

/-- One transaction of one container is replaced. -/
theorem getElem?_update_set {A : Type} (containers : TxMixinsContainerId → List A) (c c' : TxMixinsContainerId)
    {i : Nat} (txMixins : A) (hi : i < (containers c).length) (j : Nat) :
    (Function.update containers c ((containers c).set i txMixins) c')[j]? =
      if c' = c ∧ j = i then some txMixins else (containers c')[j]? := by
  by_cases hc : c' = c
  · subst hc
    rw [Function.update_self]
    by_cases hj : j = i
    · rw [if_pos ⟨rfl, hj⟩, hj, List.getElem?_set_self hi]
    · rw [if_neg fun h => hj h.2, List.getElem?_set_ne (Ne.symm hj)]
  · rw [Function.update_of_ne hc, if_neg fun h => hc h.1]

theorem mem_update_insert (sets : TxMixinsContainerId → Finset Nat) (c : TxMixinsContainerId) (i : Nat)
    (c' : TxMixinsContainerId) (j : Nat) :
    j ∈ Function.update sets c (insert i (sets c)) c' ↔ c' = c ∧ j = i ∨ j ∈ sets c' := by
  by_cases hc : c' = c
  · subst hc
    rw [Function.update_self, Finset.mem_insert]
    exact or_congr_left (and_iff_right rfl).symm
  · rw [Function.update_of_ne hc, or_iff_right fun h => hc h.1]

theorem card_update_insert (sets : TxMixinsContainerId → Finset Nat) {c : TxMixinsContainerId} {i : Nat}
    (hi : i ∉ sets c) :
    (Function.update sets c (insert i (sets c)) .old).card + (Function.update sets c (insert i (sets c)) .recent).card =
      (sets .old).card + (sets .recent).card + 1 := by
  cases c with
  | old =>
    rw [Function.update_self, Function.update_of_ne (by decide), Finset.card_insert_of_notMem hi]
    omega
  | recent =>
    rw [Function.update_self, Function.update_of_ne (by decide), Finset.card_insert_of_notMem hi]
    omega

/-- After a key is taken, the containers hold what they held without it. -/
theorem PickHolds.takeAnon_hold (hkeys : (outs.map MixinOutput.pkAo).Nodup)
    (h : PickHolds outs blockHeight nValue returned start sizes st chosen) {c : TxMixinsContainerId} {i a : Nat}
    {txMixins : CTxMixins Pk} {e : UInt32 × Pk} (hi : (st.containers c)[i]? = some txMixins)
    (he : txMixins.vOutPubKeys[a]? = some e) {containers' : TxMixinsContainerId → List (CTxMixins Pk)}
    (hentry : ∀ c' j, (containers' c')[j]? = if c' = c ∧ j = i then
      some { txMixins with vOutPubKeys := txMixins.vOutPubKeys.eraseIdx a } else (st.containers c')[j]?)
    (c' : TxMixinsContainerId) :
    MixinsHold outs blockHeight nValue c' (returned ++ chosen.map MixinOutput.pkAo ++ [e.2]) (containers' c') where
  keys := by
    intro txMixins₁ htx e₁ he₁
    obtain ⟨j, hj⟩ := List.mem_iff_getElem?.mp htx
    rw [hentry] at hj
    split at hj
    case isTrue hsame =>
      obtain ⟨rfl, rfl⟩ := hsame
      obtain rfl := Option.some.inj hj
      obtain ⟨hnot, hout⟩ := (h.hold c').keys txMixins (List.mem_of_getElem? hi) e₁ (List.mem_of_mem_eraseIdx he₁)
      have hne := key_ne_of_mem_eraseIdx ((h.hold c').distinct txMixins (List.mem_of_getElem? hi)) he he₁
      refine ⟨fun hin => ?_, hout⟩
      exact (List.mem_append.mp hin).elim hnot fun hlast => hne (List.mem_singleton.mp hlast)
    case isFalse hother =>
      obtain ⟨hnot, hout⟩ := (h.hold c').keys txMixins₁ (List.mem_of_getElem? hj) e₁ he₁
      refine ⟨fun hin => ?_, hout⟩
      refine (List.mem_append.mp hin).elim hnot fun hlast => hother ?_
      exact h.key_unique hkeys hi hj (List.mem_of_getElem? he) he₁ (List.mem_singleton.mp hlast)
  distinct := by
    intro txMixins₁ htx
    obtain ⟨j, hj⟩ := List.mem_iff_getElem?.mp htx
    rw [hentry] at hj
    split at hj
    case isTrue hsame =>
      obtain rfl := Option.some.inj hj
      exact ((List.eraseIdx_sublist _ _).map _).nodup ((h.hold c).distinct txMixins (List.mem_of_getElem? hi))
    case isFalse => exact (h.hold c').distinct txMixins₁ (List.mem_of_getElem? hj)
  hashes := by
    have hsame : (containers' c').map CTxMixins.txHash = (st.containers c').map CTxMixins.txHash := by
      apply List.ext_getElem?
      intro j
      rw [List.getElem?_map, List.getElem?_map, hentry]
      split
      case isTrue hboth =>
        rw [hboth.1, hboth.2, hi]
        rfl
      case isFalse => rfl
    rw [hsame]
    exact (h.hold c').hashes

/-- The outputs of a free transaction are not of a transaction that was chosen. -/
theorem PickHolds.hash_fresh
    (hblocks : ∀ out ∈ outs, ∀ out' ∈ outs, out.outpoint.hash = out'.outpoint.hash →
      out.nBlockHeight = out'.nBlockHeight)
    (h : PickHolds outs blockHeight nValue returned start sizes st chosen) {c : TxMixinsContainerId} {i : Nat}
    {txMixins : CTxMixins Pk} (hi : (st.containers c)[i]? = some txMixins) (hfree : i ∉ st.setPickedTxInd c)
    {out : MixinOutput Pk} (hout : out ∈ outs) (hc : containerOf blockHeight out = c)
    (hhash : out.outpoint.hash = txMixins.txHash) : ∀ o ∈ chosen, o.outpoint.hash ≠ out.outpoint.hash := by
  intro o ho hsame
  have hcontainer : containerOf blockHeight o = c := by
    rw [← hc, containerOf, containerOf, hblocks o (h.mem o ho).1 out hout hsame]
  obtain ⟨k, hk, txMixins₁, hget, hplace⟩ := h.placed o ho
  rw [hcontainer] at hk hget
  refine hfree ((h.hold c).position_inj hi hget ?_ ▸ hk)
  rw [hplace, hsame, hhash]

/-- A free transaction with keys gives one of them, and counts as picked from then on. -/
theorem takeAnon_spec (hkeys : (outs.map MixinOutput.pkAo).Nodup)
    (hblocks : ∀ out ∈ outs, ∀ out' ∈ outs, out.outpoint.hash = out'.outpoint.hash →
      out.nBlockHeight = out'.nBlockHeight)
    (h : PickHolds outs blockHeight nValue returned start sizes st chosen) {c : TxMixinsContainerId} {i a : Nat}
    {txMixins : CTxMixins Pk} (hi : (st.containers c)[i]? = some txMixins) (hfree : i ∉ st.setPickedTxInd c)
    (ha : a < txMixins.vOutPubKeys.length) :
    ∃ st' out, st.takeAnon c i a = some st' ∧ st'.vUsedTx = st.vUsedTx ∧
      PickHolds outs blockHeight nValue returned start sizes st' (chosen ++ [out]) := by
  have he : txMixins.vOutPubKeys[a]? = some txMixins.vOutPubKeys[a] := List.getElem?_eq_getElem ha
  generalize txMixins.vOutPubKeys[a] = e at he
  have hmem : e ∈ txMixins.vOutPubKeys := List.mem_of_getElem? he
  obtain ⟨hnot, out, hout, hpk, hhash, hvalue, hc⟩ := (h.hold c).keys txMixins (List.mem_of_getElem? hi) e hmem
  have hlt : i < (st.containers c).length := (List.getElem?_eq_some_iff.mp hi).1
  let txMixins' := { txMixins with vOutPubKeys := txMixins.vOutPubKeys.eraseIdx a }
  let containers' := Function.update st.containers c ((st.containers c).set i txMixins')
  let setPickedTxInd' := Function.update st.setPickedTxInd c (insert i (st.setPickedTxInd c))
  have hentry : ∀ c' j, (containers' c')[j]? = if c' = c ∧ j = i then some txMixins' else (st.containers c')[j]? :=
    fun c' j => getElem?_update_set st.containers c c' txMixins' hlt j
  have hpicked : ∀ c' j, j ∈ setPickedTxInd' c' ↔ c' = c ∧ j = i ∨ j ∈ st.setPickedTxInd c' :=
    fun c' j => mem_update_insert st.setPickedTxInd c i c' j
  have hlength : ∀ c', (containers' c').length = (st.containers c').length := by
    intro c'
    by_cases hsame : c' = c
    · subst hsame
      rw [show containers' c' = (st.containers c').set i txMixins' from Function.update_self .., List.length_set]
    · rw [show containers' c' = st.containers c' from Function.update_of_ne hsame ..]
  have hnew : st.takeAnon c i a = some ⟨st.vUsedTx, containers', setPickedTxInd', st.vPickedAnons ++ [e.2]⟩ := by
    rw [MixinPick.takeAnon, hi, Option.bind_eq_bind, Option.bind_some, he]
    rfl
  have hgone : returned ++ (chosen ++ [out]).map MixinOutput.pkAo =
      returned ++ chosen.map MixinOutput.pkAo ++ [e.2] := by
    rw [List.map_append, List.append_assoc, ← hpk]
    rfl
  refine ⟨_, out, hnew, rfl, ⟨fun c' => ?_, fun c' => (hlength c').trans (h.sizes c'), ?_, ?_, ?_, ?_, ?_, ?_, ?_⟩⟩
  · rw [hgone]
    exact h.takeAnon_hold hkeys hi he hentry c'
  · intro c' j txMixins₁ hj hunpicked
    rw [hpicked, not_or] at hunpicked
    rw [hentry, if_neg hunpicked.1] at hj
    exact h.nonempty c' j txMixins₁ hj hunpicked.2
  · intro c' j hj
    rw [hlength]
    cases (hpicked c' j).mp hj with
    | inl hsame => exact hsame.1 ▸ hsame.2 ▸ hlt
    | inr hold => exact h.range c' j hold
  · rw [h.anons, List.map_append, ← List.append_assoc, ← hpk]
    rfl
  · intro o ho
    cases List.mem_append.mp ho with
    | inl hold => exact h.mem o hold
    | inr hlast =>
      rw [List.mem_singleton.mp hlast]
      exact ⟨hout, hvalue, fun hin => hnot (List.mem_append_left _ (hpk ▸ hin))⟩
  · intro o ho
    cases List.mem_append.mp ho with
    | inl hold =>
      obtain ⟨k, hk, txMixins₁, hget, hsame⟩ := h.placed o hold
      have hother : ¬ (containerOf blockHeight o = c ∧ k = i) := fun hboth => hfree (hboth.1 ▸ hboth.2 ▸ hk)
      refine ⟨k, (hpicked _ k).mpr (Or.inr hk), txMixins₁, ?_, hsame⟩
      rw [hentry, if_neg hother]
      exact hget
    | inr hlast =>
      rw [List.mem_singleton.mp hlast, hc]
      refine ⟨i, (hpicked c i).mpr (Or.inl ⟨rfl, rfl⟩), txMixins', ?_, hhash.symm⟩
      rw [hentry, if_pos ⟨rfl, rfl⟩]
  · rw [List.map_append, List.nodup_append]
    refine ⟨h.distinct, List.nodup_singleton _, ?_⟩
    intro hash hold hash' hlast heq
    obtain ⟨o, ho, rfl⟩ := List.mem_map.mp hold
    rw [List.map_cons, List.map_nil, List.mem_singleton] at hlast
    exact h.hash_fresh hblocks hi hfree hout hc hhash o ho (heq.trans hlast)
  · rw [List.length_append, h.count]
    exact (card_update_insert st.setPickedTxInd hfree).symm

/-- A new pick, where the container has a free transaction. -/
theorem pick_spec (hkeys : (outs.map MixinOutput.pkAo).Nodup)
    (hblocks : ∀ out ∈ outs, ∀ out' ∈ outs, out.outpoint.hash = out'.outpoint.hash →
      out.nBlockHeight = out'.nBlockHeight)
    (h : PickHolds outs blockHeight nValue returned start sizes st chosen) (d : MixinDraws) {c : TxMixinsContainerId}
    (hfree : 0 < st.nAvailable c) :
    ∃ st' out, st.pick d c = some st' ∧
      PickHolds outs blockHeight nValue returned start sizes st' (chosen ++ [out]) := by
  have hdraw := d.getRandTx_lt _ hfree
  rw [MixinPick.nAvailable] at hdraw
  have hposition := skipPicked_spec (st.setPickedTxInd c).sortedLT_sort.pairwise (r := d.getRandTx (st.nAvailable c))
    (n := (st.containers c).length) (by rw [Finset.length_sort, MixinPick.nAvailable]; omega)
  rw [MixinPick.pick]
  dsimp only
  generalize skipPicked _ _ = iPickTx at hposition ⊢
  obtain ⟨hlt, hnot⟩ := hposition
  rw [Finset.mem_sort] at hnot
  have hget : (st.containers c)[iPickTx]? = some (st.containers c)[iPickTx] := List.getElem?_eq_getElem hlt
  generalize (st.containers c)[iPickTx] = txMixins at hget
  have hkeysLeft := List.length_pos_iff.mpr (h.nonempty c iPickTx txMixins hget hnot)
  obtain ⟨st', out, htake, -, hst'⟩ := takeAnon_spec hkeys hblocks h hget hnot (d.getRandAnon_lt _ hkeysLeft)
  rw [hget, Option.bind_eq_bind, Option.bind_some, htake, Option.bind_eq_bind, Option.bind_some]
  refine ⟨_, out, rfl, ?_⟩
  split
  · exact hst'
  · exact ⟨hst'.hold, hst'.sizes, hst'.nonempty, hst'.range, hst'.anons, hst'.mem, hst'.placed, hst'.distinct,
      hst'.count⟩

/-- The transactions that are used do not matter. -/
theorem PickHolds.withUsed (h : PickHolds outs blockHeight nValue returned start sizes st chosen)
    (vUsedTx : List (TxMixinsContainerId × UInt256)) :
    PickHolds outs blockHeight nValue returned start sizes { st with vUsedTx } chosen :=
  ⟨h.hold, h.sizes, h.nonempty, h.range, h.anons, h.mem, h.placed, h.distinct, h.count⟩

theorem usedTx_spec {e : TxMixinsContainerId × UInt256} {c : TxMixinsContainerId} {i : Nat}
    (h : st.usedTx e = some (c, i)) : i < (st.containers c).length ∧ i ∉ st.setPickedTxInd c := by
  obtain ⟨j, hfound, hj⟩ := Option.bind_eq_some_iff.mp h
  split at hj
  · cases hj
  case isFalse hnot =>
    obtain ⟨rfl, rfl⟩ := Prod.mk.inj (Option.some.inj hj)
    exact ⟨(List.findIdx?_eq_some_iff_findIdx_eq.mp hfound).1, hnot⟩

/-- One round of `Pick`, while fewer keys are chosen than there are transactions. -/
theorem round_spec (hkeys : (outs.map MixinOutput.pkAo).Nodup)
    (hblocks : ∀ out ∈ outs, ∀ out' ∈ outs, out.outpoint.hash = out'.outpoint.hash →
      out.nBlockHeight = out'.nBlockHeight)
    (h : PickHolds outs blockHeight nValue returned start sizes st chosen)
    (hleft : chosen.length < sizes .old + sizes .recent) (nUsedTx : Nat) (d : MixinDraws) :
    ∃ st' out, st.round nUsedTx d = some st' ∧
      PickHolds outs blockHeight nValue returned start sizes st' (chosen ++ [out]) := by
  have hshuffled : ∃ vUsedTx, (if d.mode < 33 ∧ nUsedTx > 0 then
      { st with vUsedTx := d.shuffle (st.vUsedTx.take nUsedTx) ++ st.vUsedTx.drop nUsedTx } else st) =
        { st with vUsedTx } := by
    split
    · exact ⟨_, rfl⟩
    · exact ⟨st.vUsedTx, rfl⟩
  obtain ⟨vUsedTx, hused⟩ := hshuffled
  rw [MixinPick.round]
  dsimp only
  rw [hused]
  have h := h.withUsed vUsedTx
  generalize { st with vUsedTx } = st at h ⊢
  split
  case h_1 c i hfound =>
    split at hfound
    case isTrue =>
      obtain ⟨e, -, he⟩ := List.exists_of_findSome?_eq_some hfound
      obtain ⟨hlt, hnot⟩ := usedTx_spec he
      have hget : (st.containers c)[i]? = some (st.containers c)[i] := List.getElem?_eq_getElem hlt
      generalize (st.containers c)[i] = txMixins at hget
      have hkeysLeft := List.length_pos_iff.mpr (h.nonempty c i txMixins hget hnot)
      obtain ⟨st', out, htake, -, hst'⟩ := takeAnon_spec hkeys hblocks h hget hnot (d.getRandAnon_lt _ hkeysLeft)
      refine ⟨st', out, ?_, hst'⟩
      rw [hget, Option.bind_eq_bind, Option.bind_some]
      exact htake
    case isFalse => cases hfound
  case h_2 =>
    refine pick_spec hkeys hblocks h d ?_
    have hcount := h.count
    have hold := h.sizes .old
    have hrecent := h.sizes .recent
    split
    case isTrue hchosen => exact hchosen.1
    case isFalse hchosen =>
      rw [MixinPick.nAvailable] at hchosen ⊢
      rw [MixinPick.nAvailable] at hchosen
      omega

theorem rounds_spec (hkeys : (outs.map MixinOutput.pkAo).Nodup)
    (hblocks : ∀ out ∈ outs, ∀ out' ∈ outs, out.outpoint.hash = out'.outpoint.hash →
      out.nBlockHeight = out'.nBlockHeight)
    (h : PickHolds outs blockHeight nValue returned start sizes st []) (nUsedTx : Nat) (draws : Nat → MixinDraws)
    (n : Nat) (hn : n ≤ sizes .old + sizes .recent) :
    ∃ st' chosen, st.rounds nUsedTx draws n = some st' ∧ chosen.length = n ∧
      PickHolds outs blockHeight nValue returned start sizes st' chosen := by
  induction n with
  | zero => exact ⟨st, [], rfl, rfl, h⟩
  | succ n ih =>
    obtain ⟨st₁, chosen, hbefore, hlength, hst₁⟩ := ih (by omega)
    obtain ⟨st', out, hround, hst'⟩ := round_spec hkeys hblocks hst₁ (by omega) nUsedTx (draws n)
    refine ⟨st', chosen ++ [out], ?_, ?_, hst'⟩
    · rw [MixinPick.rounds, hbefore, Option.bind_some, hround]
    · rw [List.length_append, hlength]
      rfl

end Picks

section Added

variable {Pk : Type} {outs : List (MixinOutput Pk)} {blockHeight : Int} {nValue : Int64}
  {containerId : TxMixinsContainerId} {container : List (CTxMixins Pk)} {out : MixinOutput Pk}

/-- What a transaction is after a key is added. -/
theorem mem_addAnonKey {txMixins : CTxMixins Pk} (h : txMixins ∈ addAnonKey out container) :
    txMixins ∈ container ∨
    (∃ txMixins₁ ∈ container, txMixins₁.txHash = out.outpoint.hash ∧
      txMixins = { txMixins₁ with vOutPubKeys := txMixins₁.vOutPubKeys ++ [(out.outpoint.n, out.pkAo)] }) ∨
    txMixins = ⟨out.outpoint.hash, [(out.outpoint.n, out.pkAo)]⟩ := by
  induction container with
  | nil => exact Or.inr (Or.inr (List.mem_singleton.mp h))
  | cons first container ih =>
    rw [addAnonKey] at h
    split at h
    case isTrue hsame =>
      cases List.mem_cons.mp h with
      | inl heq => exact Or.inr (Or.inl ⟨first, List.mem_cons_self, hsame, heq⟩)
      | inr hrest => exact Or.inl (List.mem_cons_of_mem _ hrest)
    case isFalse =>
      cases List.mem_cons.mp h with
      | inl heq => exact Or.inl (heq ▸ List.mem_cons_self)
      | inr hrest =>
        rcases ih hrest with hold | ⟨txMixins₁, hin, hboth⟩ | hnew
        · exact Or.inl (List.mem_cons_of_mem _ hold)
        · exact Or.inr (Or.inl ⟨txMixins₁, List.mem_cons_of_mem _ hin, hboth⟩)
        · exact Or.inr (Or.inr hnew)

theorem addAnonKey_hashes (out : MixinOutput Pk) (container : List (CTxMixins Pk)) :
    (addAnonKey out container).map CTxMixins.txHash =
      if out.outpoint.hash ∈ container.map CTxMixins.txHash then container.map CTxMixins.txHash
      else container.map CTxMixins.txHash ++ [out.outpoint.hash] := by
  induction container with
  | nil => rfl
  | cons first container ih =>
    rw [addAnonKey, List.map_cons]
    by_cases hsame : first.txHash = out.outpoint.hash
    · rw [if_pos hsame, if_pos (hsame ▸ List.mem_cons_self)]
      rfl
    · rw [if_neg hsame, List.map_cons, ih]
      by_cases hin : out.outpoint.hash ∈ container.map CTxMixins.txHash
      · rw [if_pos hin, if_pos (List.mem_cons_of_mem _ hin)]
      · rw [if_neg hin, if_neg fun hin' => (List.mem_cons.mp hin').elim (fun h => hsame h.symm) hin]
        rfl

theorem MixinsHold.mono (h : MixinsHold outs blockHeight nValue containerId [] container) (out : MixinOutput Pk) :
    MixinsHold (outs ++ [out]) blockHeight nValue containerId [] container where
  keys := by
    intro txMixins htx e he
    obtain ⟨hnot, o, ho, hboth⟩ := h.keys txMixins htx e he
    exact ⟨hnot, o, List.mem_append_left _ ho, hboth⟩
  distinct := h.distinct
  hashes := h.hashes

/-- A new key in the container of its output. -/
theorem MixinsHold.addAnonKey (h : MixinsHold outs blockHeight out.nValue (containerOf blockHeight out) [] container)
    (hnew : out.pkAo ∉ outs.map MixinOutput.pkAo) :
    MixinsHold (outs ++ [out]) blockHeight out.nValue (containerOf blockHeight out) [] (addAnonKey out container) where
  keys := by
    have hown : ∃ o ∈ outs ++ [out], o.pkAo = out.pkAo ∧ o.outpoint.hash = out.outpoint.hash ∧ o.nValue = out.nValue ∧
        containerOf blockHeight o = containerOf blockHeight out :=
      ⟨out, List.mem_append_right _ (List.mem_singleton_self _), rfl, rfl, rfl, rfl⟩
    intro txMixins htx e he
    refine ⟨List.not_mem_nil, ?_⟩
    rcases mem_addAnonKey htx with hold | ⟨txMixins₁, hin, hhash, rfl⟩ | rfl
    · exact ((h.mono out).keys txMixins hold e he).2
    · cases List.mem_append.mp he with
      | inl hbefore => exact ((h.mono out).keys txMixins₁ hin e hbefore).2
      | inr hlast =>
        rw [List.mem_singleton.mp hlast, hhash]
        exact hown
    · rw [List.mem_singleton.mp he]
      exact hown
  distinct := by
    intro txMixins htx
    rcases mem_addAnonKey htx with hold | ⟨txMixins₁, hin, -, rfl⟩ | rfl
    · exact h.distinct txMixins hold
    · rw [List.map_append, List.nodup_append]
      refine ⟨h.distinct txMixins₁ hin, List.nodup_singleton _, ?_⟩
      intro pk hpk pk' hpk' heq
      obtain ⟨e, he, rfl⟩ := List.mem_map.mp hpk
      obtain ⟨-, o, ho, hkey, -⟩ := h.keys txMixins₁ hin e he
      refine hnew (List.mem_map.mpr ⟨o, ho, ?_⟩)
      rw [hkey, heq]
      exact List.mem_singleton.mp hpk'
    · exact List.nodup_singleton _
  hashes := by
    rw [addAnonKey_hashes]
    split
    · exact h.hashes
    case isFalse hnot =>
      refine List.nodup_append.mpr ⟨h.hashes, List.nodup_singleton _, fun hash hin hash' hlast heq => hnot ?_⟩
      rwa [← List.mem_singleton.mp hlast, ← heq]

/-- All containers hold what they should, and every transaction in them has a key. -/
structure CMixinsHold (outs : List (MixinOutput Pk)) (blockHeight : Int) (returned : List Pk) (m : CMixins Pk) : Prop
    where
  hold : ∀ nValue c, MixinsHold outs blockHeight nValue c returned (m.mapMixins nValue c)
  nonempty : ∀ nValue c, ∀ txMixins ∈ m.mapMixins nValue c, txMixins.vOutPubKeys ≠ []

theorem CMixinsHold.addAnonOutput {m : CMixins Pk} (h : CMixinsHold outs blockHeight [] m)
    (hnew : out.pkAo ∉ outs.map MixinOutput.pkAo) :
    CMixinsHold (outs ++ [out]) blockHeight [] (m.addAnonOutput blockHeight out) := by
  have hentry : ∀ nValue c, (m.addAnonOutput blockHeight out).mapMixins nValue c =
      if nValue = out.nValue ∧ c = containerOf blockHeight out then AliasWallet.addAnonKey out (m.mapMixins nValue c)
      else m.mapMixins nValue c := by
    intro nValue c
    show Function.update m.mapMixins out.nValue (Function.update (m.mapMixins out.nValue) (containerOf blockHeight out)
      (AliasWallet.addAnonKey out (m.mapMixins out.nValue (containerOf blockHeight out)))) nValue c = _
    by_cases hvalue : nValue = out.nValue
    · subst hvalue
      rw [Function.update_self]
      by_cases hc : c = containerOf blockHeight out
      · subst hc
        rw [Function.update_self, if_pos ⟨rfl, rfl⟩]
      · rw [Function.update_of_ne hc, if_neg fun hboth => hc hboth.2]
    · rw [Function.update_of_ne hvalue, if_neg fun hboth => hvalue hboth.1]
  constructor
  · intro nValue c
    rw [hentry]
    split
    case isTrue hsame =>
      obtain ⟨rfl, rfl⟩ := hsame
      exact (h.hold _ _).addAnonKey hnew
    case isFalse => exact (h.hold nValue c).mono out
  · intro nValue c txMixins htx
    rw [hentry] at htx
    split at htx
    case isTrue =>
      rcases mem_addAnonKey htx with hold | ⟨txMixins₁, -, -, rfl⟩ | rfl
      · exact h.nonempty nValue c txMixins hold
      · exact List.append_ne_nil_of_right_ne_nil _ (List.cons_ne_nil _ _)
      · exact List.cons_ne_nil _ _
    case isFalse => exact h.nonempty nValue c txMixins htx

theorem ofOutputs_hold (hkeys : (outs.map MixinOutput.pkAo).Nodup) :
    CMixinsHold outs blockHeight [] (CMixins.ofOutputs blockHeight outs) := by
  have hfold : ∀ (l before : List (MixinOutput Pk)) (m : CMixins Pk), ((before ++ l).map MixinOutput.pkAo).Nodup →
      CMixinsHold before blockHeight [] m →
      CMixinsHold (before ++ l) blockHeight [] (l.foldl (fun m out => m.addAnonOutput blockHeight out) m) := by
    intro l
    induction l with
    | nil => exact fun before m _ hm => (List.append_nil before).symm ▸ hm
    | cons out l ih =>
      intro before m hnodup hm
      rw [List.append_cons] at hnodup ⊢
      refine ih (before ++ [out]) _ hnodup (hm.addAnonOutput ?_)
      rw [List.map_append, List.map_append] at hnodup
      intro hin
      exact (List.nodup_append.mp (List.nodup_append.mp hnodup).1).2.2 _ hin _ (List.mem_singleton_self _) rfl
  refine hfold outs [] _ hkeys ⟨fun nValue c => ⟨?_, ?_, List.nodup_nil⟩, ?_⟩
  · exact fun txMixins h => absurd h List.not_mem_nil
  · exact fun txMixins h => absurd h List.not_mem_nil
  · exact fun nValue c txMixins h => absurd h List.not_mem_nil

end Added

section Pick

variable {Pk : Type} {outs : List (MixinOutput Pk)} {blockHeight : Int} {returned : List Pk} {m : CMixins Pk}

theorem CMixinsHold.startPick (h : CMixinsHold outs blockHeight returned m) (nValue : Int64)
    (vPickedAnons : List Pk) :
    PickHolds outs blockHeight nValue returned vPickedAnons (fun c => (m.mapMixins nValue c).length)
      ⟨m.vUsedTx, m.mapMixins nValue, fun _ => ∅, vPickedAnons⟩ [] := by
  refine ⟨fun c => ?_, fun c => rfl, ?_, ?_, ?_, ?_, ?_, List.nodup_nil, rfl⟩
  · rw [List.map_nil, List.append_nil]
    exact h.hold nValue c
  · exact fun c i txMixins hi _ => h.nonempty nValue c txMixins (List.mem_of_getElem? hi)
  · exact fun c i hi => absurd hi (Finset.notMem_empty i)
  · rw [List.map_nil, List.append_nil]
  · exact fun out hout => absurd hout List.not_mem_nil
  · exact fun out hout => absurd hout List.not_mem_nil

/-- The picked transactions without keys are removed from a container. -/
theorem PickHolds.removeEmpty {nValue : Int64} {start : List Pk} {sizes : TxMixinsContainerId → Nat}
    {st : MixinPick Pk} {chosen : List (MixinOutput Pk)}
    (h : PickHolds outs blockHeight nValue returned start sizes st chosen) (c : TxMixinsContainerId) :
    ∃ container, removeEmptyTx ((st.setPickedTxInd c).sort (· ≥ ·)) (st.containers c) = some container ∧
      List.Sublist container (st.containers c) ∧ ∀ txMixins ∈ container, txMixins.vOutPubKeys ≠ [] := by
  refine removeEmptyTx_spec (st.setPickedTxInd c).sortedGT_sort.pairwise ?_ ?_
  · exact fun i hi => h.range c i ((Finset.mem_sort _).mp hi)
  · intro i txMixins hi hnil
    rw [Finset.mem_sort]
    by_contra hnot
    exact h.nonempty c i txMixins hi hnot hnil

/-- What one `Pick` does: no access is out of range, and the chosen outputs are of different transactions. -/
theorem pickMixins_spec (hkeys : (outs.map MixinOutput.pkAo).Nodup)
    (hblocks : ∀ out ∈ outs, ∀ out' ∈ outs, out.outpoint.hash = out'.outpoint.hash →
      out.nBlockHeight = out'.nBlockHeight)
    (h : CMixinsHold outs blockHeight returned m) (nValue : Int64) (nMixins : UInt8) (draws : Nat → MixinDraws)
    (vPickedAnons : List Pk) :
    ∃ m' chosen fPicked, m.pickMixins nValue nMixins draws vPickedAnons =
        some (m', vPickedAnons ++ chosen.map MixinOutput.pkAo, fPicked) ∧
      CMixinsHold outs blockHeight (returned ++ chosen.map MixinOutput.pkAo) m' ∧
      (fPicked = true → chosen.length = nMixins.toNat ∧
        (∀ out ∈ chosen, out ∈ outs ∧ out.nValue = nValue ∧ out.pkAo ∉ returned) ∧
        (chosen.map fun out => out.outpoint.hash).Nodup) ∧
      (fPicked = false → m' = m ∧ chosen = []) := by
  rw [CMixins.pickMixins]
  split
  case isTrue =>
    refine ⟨m, [], false, ?_, ?_, fun h => absurd h (by decide), fun _ => ⟨rfl, rfl⟩⟩
    · rw [List.map_nil, List.append_nil]
      rfl
    · rwa [List.map_nil, List.append_nil]
  case isFalse henough =>
    obtain ⟨st, chosen, hrounds, hlength, hst⟩ := rounds_spec hkeys hblocks (h.startPick nValue vPickedAnons)
      m.vUsedTx.length draws nMixins.toNat (not_lt.mp henough)
    obtain ⟨recent, hrecent, hsubRecent, hleftRecent⟩ := hst.removeEmpty .recent
    obtain ⟨old, hold, hsubOld, hleftOld⟩ := hst.removeEmpty .old
    let left : TxMixinsContainerId → List (CTxMixins Pk) := fun
      | .recent => recent
      | .old => old
    have hleft : ∀ c, List.Sublist (left c) (st.containers c) ∧ ∀ txMixins ∈ left c, txMixins.vOutPubKeys ≠ [] := by
      intro c
      cases c with
      | old => exact ⟨hsubOld, hleftOld⟩
      | recent => exact ⟨hsubRecent, hleftRecent⟩
    let m' : CMixins Pk := ⟨st.vUsedTx, Function.update m.mapMixins nValue left⟩
    have hentry : ∀ v c, m'.mapMixins v c = if v = nValue then left c else m.mapMixins v c := by
      intro v c
      show Function.update m.mapMixins nValue left v c = _
      split
      case isTrue hvalue => rw [hvalue, Function.update_self]
      case isFalse hother => rw [Function.update_of_ne hother]
    refine ⟨m', chosen, true, ?_, ⟨fun v c => ?_, fun v c => ?_⟩, fun _ => ⟨hlength, hst.mem, hst.distinct⟩,
      fun hfalse => absurd hfalse (by decide)⟩
    · rw [hrounds, Option.bind_eq_bind, Option.bind_some, hrecent, Option.bind_eq_bind, Option.bind_some, hold,
        ← hst.anons]
      rfl
    · rw [hentry]
      split
      case isTrue hvalue => exact hvalue ▸ (hst.hold c).sublist (hleft c).1
      case isFalse hother =>
        refine (h.hold v c).forget fun txMixins htx e he hin => hother ?_
        obtain ⟨out, hout, hpk⟩ := List.mem_map.mp hin
        obtain ⟨-, out', hout', hpk', -, rfl, -⟩ := (h.hold v c).keys txMixins htx e he
        rw [← List.inj_on_of_nodup_map hkeys (hst.mem out hout).1 hout' (hpk.trans hpk'.symm)]
        exact (hst.mem out hout).2.1
    · rw [hentry]
      split
      case isTrue => exact (hleft c).2
      case isFalse => exact h.nonempty v c

theorem MixinRun.hold (hkeys : (outs.map MixinOutput.pkAo).Nodup)
    (hblocks : ∀ out ∈ outs, ∀ out' ∈ outs, out.outpoint.hash = out'.outpoint.hash →
      out.nBlockHeight = out'.nBlockHeight)
    (hrun : MixinRun blockHeight outs m returned) : CMixinsHold outs blockHeight returned m := by
  induction hrun with
  | start => exact ofOutputs_hold hkeys
  | @pick m m' returned vPicked vPicked' fPicked nValue nMixins draws _ hpick ih =>
    obtain ⟨m₁, chosen, fPicked₁, hspec, hhold, -, -⟩ := pickMixins_spec hkeys hblocks ih nValue nMixins draws vPicked
    obtain ⟨rfl, hrest⟩ := Prod.mk.inj (Option.some.inj (hspec.symm.trans hpick))
    rw [← (Prod.mk.inj hrest).1, List.drop_left]
    exact hhold

/-- After any run of `Pick` every transaction that is left has a key. The next `Pick` makes no access out of range;
where it returns true it appends as many keys as it should, of different transactions and none that was returned
before; and otherwise it changes nothing. -/
theorem mixins_never_repeat {Pk : Type} (outs : List (MixinOutput Pk)) (hkeys : (outs.map MixinOutput.pkAo).Nodup)
    (hblocks : ∀ out ∈ outs, ∀ out' ∈ outs, out.outpoint.hash = out'.outpoint.hash →
      out.nBlockHeight = out'.nBlockHeight)
    (blockHeight : Int) (m : CMixins Pk) (returned : List Pk) (hrun : MixinRun blockHeight outs m returned)
    (nValue : Int64) (nMixins : UInt8) (draws : Nat → MixinDraws) (vPickedAnons : List Pk) :
    (∀ nValue c, ∀ txMixins ∈ m.mapMixins nValue c, txMixins.vOutPubKeys ≠ []) ∧
    ∃ m' chosen fPicked, m.pickMixins nValue nMixins draws vPickedAnons =
        some (m', vPickedAnons ++ chosen.map MixinOutput.pkAo, fPicked) ∧
      (fPicked = true → chosen.length = nMixins.toNat ∧
        (∀ out ∈ chosen, out ∈ outs ∧ out.nValue = nValue ∧ out.pkAo ∉ returned) ∧
        (chosen.map fun out => out.outpoint.hash).Nodup) ∧
      (fPicked = false → m' = m ∧ chosen = []) := by
  have hhold := hrun.hold hkeys hblocks
  obtain ⟨m', chosen, fPicked, hpick, -, htrue, hfalse⟩ := pickMixins_spec hkeys hblocks hhold nValue nMixins draws
    vPickedAnons
  exact ⟨hhold.nonempty, m', chosen, fPicked, hpick, htrue, hfalse⟩

/-- Always the first mode, transaction and key. -/
def firstDraws (_ : Nat) : MixinDraws := ⟨0, id, List.Perm.refl, fun _ => 0, fun _ h => h, fun _ => 0, fun _ h => h⟩

/-- Two outputs of different transactions. -/
def twoMixins : List (MixinOutput Nat) := [⟨1, ⟨1, 0⟩, 5, 0⟩, ⟨2, ⟨2, 0⟩, 5, 0⟩]

theorem mixins_never_repeat_two :
    ∃ m', ∃ chosen : List (MixinOutput Nat), ∃ fPicked, (CMixins.ofOutputs 10 twoMixins).pickMixins 5 2 firstDraws [] =
        some (m', [] ++ chosen.map MixinOutput.pkAo, fPicked) ∧
      (fPicked = true → chosen.length = 2) := by
  obtain ⟨-, m', chosen, fPicked, hpick, htrue, -⟩ := mixins_never_repeat twoMixins (by decide) (by decide) 10 _ []
    MixinRun.start 5 2 firstDraws []
  exact ⟨m', chosen, fPicked, hpick, fun h => (htrue h).1⟩

end Pick

end AliasWallet
