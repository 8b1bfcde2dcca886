import AliasWallet.Script.Destinations
import Mathlib.Data.Finset.Union
import Mathlib.Logic.Relation
import Mathlib.Logic.Function.Basic

/-!
# Groups of addresses (`wallet.cpp`)

`GetAddressGroupings` collects sets of addresses that were used together and merges those that overlap. The merged
sets are held by pointers, which a map from addresses leads to; a set that is merged into another one is deleted. What
comes out are the classes of addresses that are linked by a chain of common uses.
-/

namespace AliasWallet
open Lib

section Merge

variable {α : Type}

/-- The sets that are left, under their pointers, the pointer that each address leads to, and the next new pointer. -/
structure Merging (α : Type) where
  uniqueGroupings : List (Nat × Finset α)
  setmap : α → Option Nat
  next : Nat

def Merging.new : Merging α := ⟨[], fun _ => none, 0⟩

/-- The set behind a pointer; none where it was deleted. -/
def Merging.at (s : Merging α) (p : Nat) : Option (Finset α) := s.uniqueGroupings.lookup p

/-- The pointers that the addresses of a set lead to. -/
def Merging.hits (s : Merging α) (grouping : Finset α) : Finset Nat :=
  grouping.biUnion fun address => (s.setmap address).toFinset

section Step

variable [DecidableEq α]

/-- One round of the second loop; none where it would follow a pointer to a deleted set. -/
def mergeGrouping (s : Merging α) (grouping : Finset α) : Option (Merging α) :=
  let hits := s.hits grouping
  if ∀ p ∈ hits, (s.at p).isSome = true then
    let merged := grouping ∪ hits.biUnion fun p => (s.at p).getD ∅
    some {
      uniqueGroupings := (s.uniqueGroupings.filter fun g => decide (g.1 ∉ hits)) ++ [(s.next, merged)]
      setmap := fun address => if address ∈ merged then some s.next else s.setmap address
      next := s.next + 1 }
  else none

end Step

/-- Two addresses that stand in one set. -/
def Together (groupings : List (Finset α)) (a b : α) : Prop := ∃ g ∈ groupings, a ∈ g ∧ b ∈ g

/-- Addresses linked by a chain of sets. -/
def LinkedAddresses (groupings : List (Finset α)) : α → α → Prop := Relation.ReflTransGen (Together groupings)

/-- The sets that are left after some groupings. -/
structure Merging.Ok (groupings : List (Finset α)) (s : Merging α) : Prop where
  fresh : ∀ g ∈ s.uniqueGroupings, g.1 < s.next
  pointers : (s.uniqueGroupings.map Prod.fst).Nodup
  owner : ∀ a p, s.setmap a = some p ↔ ∃ S, (p, S) ∈ s.uniqueGroupings ∧ a ∈ S
  covers : ∀ a, (∃ g ∈ s.uniqueGroupings, a ∈ g.2) ↔ ∃ G ∈ groupings, a ∈ G
  classes : ∀ g ∈ s.uniqueGroupings, ∀ a ∈ g.2, ∀ b, b ∈ g.2 ↔ LinkedAddresses groupings a b

theorem new_ok : (Merging.new : Merging α).Ok [] where
  fresh := by simp [Merging.new]
  pointers := List.nodup_nil
  owner := by simp [Merging.new]
  covers := by simp [Merging.new]
  classes := by simp [Merging.new]

theorem LinkedAddresses.mono {groupings groupings' : List (Finset α)} (hsub : ∀ g ∈ groupings, g ∈ groupings')
    {a b : α} (h : LinkedAddresses groupings a b) : LinkedAddresses groupings' a b := by
  induction h with
  | refl => exact Relation.ReflTransGen.refl
  | tail _ hlast ih =>
    obtain ⟨g, hg, hab⟩ := hlast
    exact ih.tail ⟨g, hsub g hg, hab⟩

theorem LinkedAddresses.symm {groupings : List (Finset α)} {a b : α} (h : LinkedAddresses groupings a b) :
    LinkedAddresses groupings b a := by
  induction h with
  | refl => exact Relation.ReflTransGen.refl
  | tail _ hlast ih =>
    obtain ⟨g, hg, ha, hb⟩ := hlast
    exact Relation.ReflTransGen.head ⟨g, hg, hb, ha⟩ ih

variable {groupings : List (Finset α)} {s : Merging α}

theorem lookup_of_mem {l : List (Nat × Finset α)} (hnodup : (l.map Prod.fst).Nodup) {p : Nat} {S : Finset α}
    (h : (p, S) ∈ l) : l.lookup p = some S := by
  induction l with
  | nil => cases h
  | cons g l ih =>
    rw [List.map_cons, List.nodup_cons] at hnodup
    rw [List.lookup_cons]
    cases List.mem_cons.mp h with
    | inl heq => simp [← heq]
    | inr hmem =>
      have hne : p ≠ g.1 := by
        intro heq
        apply hnodup.1
        rw [← heq]
        exact List.mem_map_of_mem hmem
      rw [beq_false_of_ne hne]
      exact ih hnodup.2 hmem

/-- Addresses used together with one of a set that is left are in it. -/
theorem Merging.Ok.together (h : s.Ok groupings) {p : Nat} {S : Finset α} (hS : (p, S) ∈ s.uniqueGroupings) {a b : α}
    (ha : a ∈ S) (hab : Together groupings a b) : b ∈ S :=
  (h.classes (p, S) hS a ha b).mpr (Relation.ReflTransGen.single hab)

theorem Together.append {G : Finset α} {a b : α} :
    Together (groupings ++ [G]) a b ↔ Together groupings a b ∨ a ∈ G ∧ b ∈ G := by
  simp [Together, or_and_right, exists_or]

theorem Merging.mem_hits (s : Merging α) (G : Finset α) (p : Nat) : p ∈ s.hits G ↔ ∃ a ∈ G, s.setmap a = some p := by
  simp [Merging.hits]

/-- A set that is hit is there, and holds an address of the new one. -/
theorem Merging.Ok.hit (h : s.Ok groupings) {G : Finset α} {p : Nat} (hp : p ∈ s.hits G) :
    ∃ S, (p, S) ∈ s.uniqueGroupings ∧ s.at p = some S ∧ ∃ a ∈ G, a ∈ S := by
  obtain ⟨a, ha, hmap⟩ := (s.mem_hits G p).mp hp
  obtain ⟨S, hS, haS⟩ := (h.owner a p).mp hmap
  exact ⟨S, hS, lookup_of_mem h.pointers hS, a, ha, haS⟩

/-- A set that holds an address of one in the new grouping is hit. -/
theorem Merging.Ok.hit_of_mem (h : s.Ok groupings) {G S : Finset α} {p : Nat} (hS : (p, S) ∈ s.uniqueGroupings) {a : α}
    (ha : a ∈ G) (haS : a ∈ S) : p ∈ s.hits G :=
  (s.mem_hits G p).mpr ⟨a, ha, (h.owner a p).mpr ⟨S, hS, haS⟩⟩

/-- The merged set is closed under common uses, the new one included. -/
theorem Merging.Ok.merged_closed (h : s.Ok groupings) {G M : Finset α}
    (hM : ∀ b, b ∈ M ↔ b ∈ G ∨ ∃ p S, p ∈ s.hits G ∧ (p, S) ∈ s.uniqueGroupings ∧ b ∈ S) {a b : α} (ha : a ∈ M)
    (hab : Together (groupings ++ [G]) a b) : b ∈ M := by
  cases Together.append.mp hab with
  | inr hnew => exact (hM b).mpr (.inl hnew.2)
  | inl hold =>
    cases (hM a).mp ha with
    | inr hhit =>
      obtain ⟨p, S, hp, hS, haS⟩ := hhit
      exact (hM b).mpr (.inr ⟨p, S, hp, hS, h.together hS haS hold⟩)
    | inl haG =>
      have hmem : ∃ H ∈ groupings, a ∈ H := by
        obtain ⟨H, hH, haH, -⟩ := hold
        exact ⟨H, hH, haH⟩
      obtain ⟨⟨p, S⟩, hS, haS⟩ := (h.covers a).mpr hmem
      exact (hM b).mpr (.inr ⟨p, S, h.hit_of_mem hS haG haS, hS, h.together hS haS hold⟩)

/-- Every address of the merged set is linked to one of the new grouping. -/
theorem Merging.Ok.merged_linked (h : s.Ok groupings) {G M : Finset α}
    (hM : ∀ b, b ∈ M ↔ b ∈ G ∨ ∃ p S, p ∈ s.hits G ∧ (p, S) ∈ s.uniqueGroupings ∧ b ∈ S) {a : α} (ha : a ∈ M) :
    ∃ c ∈ G, LinkedAddresses (groupings ++ [G]) a c := by
  cases (hM a).mp ha with
  | inl haG => exact ⟨a, haG, Relation.ReflTransGen.refl⟩
  | inr hhit =>
    obtain ⟨p, S, hp, hS, haS⟩ := hhit
    obtain ⟨c, hc, hmap⟩ := (s.mem_hits G p).mp hp
    obtain ⟨S', hS', hcS'⟩ := (h.owner c p).mp hmap
    have hsame : S = S' := by
      have hlookup := lookup_of_mem h.pointers hS
      rw [lookup_of_mem h.pointers hS'] at hlookup
      exact (Option.some.inj hlookup).symm
    rw [hsame] at haS
    exact ⟨c, hc, ((h.classes _ hS' a haS c).mp hcS').mono fun g hg => List.mem_append_left _ hg⟩

variable [DecidableEq α]

/-- What the new set holds. -/
theorem Merging.Ok.mem_merged (h : s.Ok groupings) (G : Finset α) (b : α) :
    (b ∈ G ∪ (s.hits G).biUnion fun p => (s.at p).getD ∅) ↔
      b ∈ G ∨ ∃ p S, p ∈ s.hits G ∧ (p, S) ∈ s.uniqueGroupings ∧ b ∈ S := by
  rw [Finset.mem_union, Finset.mem_biUnion]
  apply or_congr Iff.rfl
  constructor
  · rintro ⟨p, hp, hb⟩
    obtain ⟨S, hS, hat, -⟩ := h.hit hp
    rw [hat] at hb
    exact ⟨p, S, hp, hS, hb⟩
  · rintro ⟨p, S, hp, hS, hb⟩
    refine ⟨p, hp, ?_⟩
    rw [Merging.at, lookup_of_mem h.pointers hS]
    exact hb

/-- One round: no deleted set is reached, and the sets that are left are again the classes. -/
theorem mergeGrouping_ok (h : s.Ok groupings) (G : Finset α) :
    ∃ s', mergeGrouping s G = some s' ∧ s'.Ok (groupings ++ [G]) := by
  have hlive : ∀ p ∈ s.hits G, (s.at p).isSome = true := by
    intro p hp
    obtain ⟨S, -, hat, -⟩ := h.hit hp
    rw [hat]
    rfl
  have hM := h.mem_merged G
  rw [mergeGrouping]
  dsimp only
  rw [if_pos hlive]
  generalize G ∪ (s.hits G).biUnion (fun p => (s.at p).getD ∅) = M at hM
  refine ⟨_, rfl, ?_⟩
  -- a set that is left is one that was not hit, or the merged one
  have hleft : ∀ g, g ∈ (s.uniqueGroupings.filter fun g => decide (g.1 ∉ s.hits G)) ++ [(s.next, M)] ↔
      (g ∈ s.uniqueGroupings ∧ g.1 ∉ s.hits G) ∨ g = (s.next, M) := by
    intro g
    rw [List.mem_append, List.mem_filter, List.mem_singleton, decide_eq_true_iff]
  have hapart : ∀ p S, (p, S) ∈ s.uniqueGroupings → p ∉ s.hits G → ∀ a ∈ S, a ∉ M := by
    intro p S hS hp a haS haM
    cases (hM a).mp haM with
    | inl haG => exact hp (h.hit_of_mem hS haG haS)
    | inr hhit =>
      obtain ⟨p', S', hp', hS', haS'⟩ := hhit
      have hmap := (h.owner a p).mpr ⟨S, hS, haS⟩
      rw [(h.owner a p').mpr ⟨S', hS', haS'⟩] at hmap
      rw [Option.some.inj hmap] at hp'
      exact hp hp'
  constructor
  · intro g hg
    cases (hleft g).mp hg with
    | inl hold => exact Nat.lt_succ_of_lt (h.fresh g hold.1)
    | inr hnew =>
      rw [hnew]
      exact Nat.lt_succ_self _
  · dsimp only
    rw [List.map_append, List.nodup_append]
    refine ⟨h.pointers.sublist (List.Sublist.map _ List.filter_sublist), List.nodup_singleton _, ?_⟩
    intro p hp q hq
    obtain ⟨g, hg, rfl⟩ := List.mem_map.mp hp
    obtain rfl := List.mem_singleton.mp hq
    exact (h.fresh g (List.mem_filter.mp hg).1).ne
  · intro a p
    dsimp only
    split_ifs with haM
    · constructor
      · intro heq
        obtain rfl := Option.some.inj heq
        exact ⟨M, (hleft _).mpr (.inr rfl), haM⟩
      · rintro ⟨S, hS, haS⟩
        cases (hleft (p, S)).mp hS with
        | inl hold => exact absurd haM (hapart p S hold.1 hold.2 a haS)
        | inr hnew => rw [(Prod.mk.inj hnew).1]
    · rw [h.owner]
      constructor
      · rintro ⟨S, hS, haS⟩
        have hp : p ∉ s.hits G := fun hp => haM ((hM a).mpr (.inr ⟨p, S, hp, hS, haS⟩))
        exact ⟨S, (hleft (p, S)).mpr (.inl ⟨hS, hp⟩), haS⟩
      · rintro ⟨S, hS, haS⟩
        cases (hleft (p, S)).mp hS with
        | inl hold => exact ⟨S, hold.1, haS⟩
        | inr hnew =>
          rw [(Prod.mk.inj hnew).2] at haS
          exact absurd haS haM
  · intro a
    have hcovers := h.covers a
    constructor
    · rintro ⟨g, hg, hag⟩
      cases (hleft g).mp hg with
      | inl hold =>
        obtain ⟨H, hH, haH⟩ := hcovers.mp ⟨g, hold.1, hag⟩
        exact ⟨H, List.mem_append_left _ hH, haH⟩
      | inr hnew =>
        rw [hnew] at hag
        cases (hM a).mp hag with
        | inl haG => exact ⟨G, by simp, haG⟩
        | inr hhit =>
          obtain ⟨p, S, -, hS, haS⟩ := hhit
          obtain ⟨H, hH, haH⟩ := hcovers.mp ⟨(p, S), hS, haS⟩
          exact ⟨H, List.mem_append_left _ hH, haH⟩
    · rintro ⟨H, hH, haH⟩
      by_cases haM : a ∈ M
      · exact ⟨(s.next, M), (hleft _).mpr (.inr rfl), haM⟩
      · cases List.mem_append.mp hH with
        | inl hold =>
          obtain ⟨⟨p, S⟩, hS, haS⟩ := hcovers.mpr ⟨H, hold, haH⟩
          have hp : p ∉ s.hits G := fun hp => haM ((hM a).mpr (.inr ⟨p, S, hp, hS, haS⟩))
          exact ⟨(p, S), (hleft _).mpr (.inl ⟨hS, hp⟩), haS⟩
        | inr hnew =>
          rw [List.mem_singleton.mp hnew] at haH
          exact absurd ((hM a).mpr (.inl haH)) haM
  · intro g hg a ha b
    cases (hleft g).mp hg with
    | inr hnew =>
      rw [hnew] at ha ⊢
      constructor
      · intro hb
        obtain ⟨c, hc, hac⟩ := h.merged_linked hM ha
        obtain ⟨d, hd, hbd⟩ := h.merged_linked hM hb
        have hcd : LinkedAddresses (groupings ++ [G]) c d := Relation.ReflTransGen.single ⟨G, by simp, hc, hd⟩
        exact (hac.trans hcd).trans hbd.symm
      · intro hab
        induction hab with
        | refl => exact ha
        | tail _ hlast ih => exact h.merged_closed hM ih hlast
    | inl hold =>
      constructor
      · intro hb
        exact ((h.classes g hold.1 a ha b).mp hb).mono fun H hH => List.mem_append_left _ hH
      · intro hab
        induction hab with
        | refl => exact ha
        | tail _ hlast ih =>
          cases Together.append.mp hlast with
          | inl htogether => exact h.together hold.1 ih htogether
          | inr hnew => exact absurd (h.hit_of_mem hold.1 hnew.1 ih) hold.2

theorem mergeGroupings_ok (more : List (Finset α)) (h : s.Ok groupings) :
    ∃ s', more.foldlM mergeGrouping s = some s' ∧ s'.Ok (groupings ++ more) := by
  induction more generalizing s groupings with
  | nil => exact ⟨s, rfl, by rwa [List.append_nil]⟩
  | cons G more ih =>
    obtain ⟨s₁, hstep, hok⟩ := mergeGrouping_ok h G
    obtain ⟨s', hrun, hok'⟩ := ih hok
    refine ⟨s', ?_, by rwa [List.append_assoc] at hok'⟩
    rw [List.foldlM_cons, hstep]
    exact hrun

end Merge

section Wallet

/-- The transactions of a wallet, its keys, scripts and address book, and the order of a set of sets. -/
structure GroupingWallet where
  mapWallet : List (UInt256 × CTransaction)
  getID : CPubKey → CKeyID
  haveKey : CKeyID → Bool
  isMine : CScript → Bool
  isDestMine : CTxDestination → Bool
  mapAddressBook : CTxDestination → Bool
  ordered : List (Finset CTxDestination) → List (Finset CTxDestination)
  mem_ordered : ∀ l G, G ∈ ordered l ↔ G ∈ l

namespace GroupingWallet

variable (w : GroupingWallet)

/-- The output that an input spends; none where it is not in the wallet. -/
def previous (txin : CTxIn) : Option CTxOut := do
  let tx ← w.mapWallet.lookup txin.prevout.hash
  tx.vout[txin.prevout.n.toNat]?

/-- `CWallet::IsMine(CTxIn)`. -/
def isMineIn (txin : CTxIn) : Bool := (w.previous txin).any fun txout => w.isMine txout.scriptPubKey

/-- What the wallet pays to itself without an entry in the address book is taken for change. -/
def isChange (txout : CTxOut) : Bool :=
  if txout.isAnonOutput then
    let ckidD := w.getID (CPubKey.set txout.extractAnonPk)
    w.haveKey ckidD && !w.mapAddressBook (.keyID ckidD)
  else (extractDestination w.getID txout.scriptPubKey).any fun address =>
    w.isDestMine address && !w.mapAddressBook address

/-- The addresses of the inputs and of the change; none where an output that is spent is not in the wallet. -/
def spentGrouping (pcoin : CTransaction) : Option (Finset CTxDestination) := do
  let prevouts ← pcoin.vin.mapM w.previous
  let change := pcoin.vout.filter w.isChange
  return ((prevouts ++ change).filterMap fun txout => extractDestination w.getID txout.scriptPubKey).toFinset

/-- The sets that a transaction adds: inputs and change together, and every own output alone. -/
def collect (pcoin : CTransaction) : Option (List (Finset CTxDestination)) := do
  let spent ← if pcoin.vin.head?.any w.isMineIn then (w.spentGrouping pcoin).map fun grouping => [grouping] else some []
  let own := pcoin.vout.filter fun txout => w.isMine txout.scriptPubKey
  let lone := own.filterMap fun txout => extractDestination w.getID txout.scriptPubKey
  return spent ++ lone.map fun address => {address}

/-- The groupings of all transactions. -/
def groupings : Option (List (Finset CTxDestination)) := do
  let sets ← w.mapWallet.mapM fun walletEntry => w.collect walletEntry.2
  return w.ordered sets.flatten

/-- `GetAddressGroupings`; none where it reads an output that is not there or a set that was deleted. -/
def getAddressGroupings : Option (List (Finset CTxDestination)) := do
  let groupings ← w.groupings
  let merged ← groupings.foldlM mergeGrouping Merging.new
  return merged.uniqueGroupings.map Prod.snd

/-- If all outputs are found, no deleted set is read, and the result is made of the classes of linked addresses: every
address that was collected is in one of them, an address is in the same set as those linked to it and no others, and so
different sets have no address in common. -/
theorem getAddressGroupings_classes {groupings : List (Finset CTxDestination)} (h : w.groupings = some groupings) :
    ∃ ret, w.getAddressGroupings = some ret ∧ (∀ a, (∃ S ∈ ret, a ∈ S) ↔ ∃ G ∈ groupings, a ∈ G) ∧
      (∀ S ∈ ret, ∀ a ∈ S, ∀ b, b ∈ S ↔ LinkedAddresses groupings a b) ∧
      ∀ S ∈ ret, ∀ T ∈ ret, ∀ a ∈ S, a ∈ T → S = T := by
  obtain ⟨s, hrun, hok⟩ := mergeGroupings_ok groupings new_ok
  rw [List.nil_append] at hok
  have hclasses : ∀ S ∈ s.uniqueGroupings.map Prod.snd, ∀ a ∈ S, ∀ b, b ∈ S ↔ LinkedAddresses groupings a b := by
    intro S hS
    obtain ⟨g, hg, rfl⟩ := List.mem_map.mp hS
    exact hok.classes g hg
  refine ⟨s.uniqueGroupings.map Prod.snd, ?_, ?_, hclasses, ?_⟩
  · rw [getAddressGroupings, h, Option.bind_eq_bind, Option.bind_some, hrun]
    rfl
  · intro a
    rw [← hok.covers]
    constructor
    · rintro ⟨S, hS, ha⟩
      obtain ⟨g, hg, rfl⟩ := List.mem_map.mp hS
      exact ⟨g, hg, ha⟩
    · rintro ⟨g, hg, ha⟩
      exact ⟨g.2, List.mem_map_of_mem hg, ha⟩
  · intro S hS T hT a haS haT
    ext b
    rw [hclasses S hS a haS b, hclasses T hT a haT b]

def payThree : CTransaction := ⟨1, 0, [], [1, 2, 3].map fun id => ⟨5, CScript.setDestination (.scriptID id)⟩, 0⟩

def spendTwo : CTransaction := ⟨1, 0, [⟨⟨7, 0⟩, [], 0⟩, ⟨⟨7, 2⟩, [], 0⟩], [], 0⟩

/-- The first and the third output are spent together. -/
def twoSpent : GroupingWallet where
  mapWallet := [(7, payThree), (8, spendTwo)]
  getID _ := 0
  haveKey _ := false
  isMine _ := true
  isDestMine _ := true
  mapAddressBook _ := true
  ordered := id
  mem_ordered _ _ := Iff.rfl

theorem getAddressGroupings_classes_twoSpent : ∃ groupings, twoSpent.groupings = some groupings ∧
    ∃ ret, twoSpent.getAddressGroupings = some ret ∧ (∀ a, (∃ S ∈ ret, a ∈ S) ↔ ∃ G ∈ groupings, a ∈ G) ∧
      (∀ S ∈ ret, ∀ a ∈ S, ∀ b, b ∈ S ↔ LinkedAddresses groupings a b) ∧
      ∀ S ∈ ret, ∀ T ∈ ret, ∀ a ∈ S, a ∈ T → S = T := by
  have h : twoSpent.groupings = some [{.scriptID 1}, {.scriptID 2}, {.scriptID 3},
      {.scriptID 1, .scriptID 3}] := by decide +kernel
  exact ⟨_, h, getAddressGroupings_classes twoSpent h⟩

end GroupingWallet

end Wallet

end AliasWallet
