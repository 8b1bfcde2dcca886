import AliasWallet.Crypto.RingSigAB
import AliasWallet.Lib.LinkableRing
import Mathlib.Algebra.BigOperators.Group.Finset.Basic

/-!
# What an accepted ring signature says, and that key images bind

Both verifiers are read as equations in the group: every round commits to the two points of a
linkable ring. Two accepted signatures with the same points and different challenges reveal one
secret behind a ring key and the key image.
-/

namespace AliasWallet
open Lib

theorem orFail_eq_ok_iff {α : Type} (o : Option α) (a : α) : orFail o = .ok a ↔ o = some a := by
  cases o with
  | none => simp [orFail]
  | some b => simp [orFail]

section Rounds

variable {G : Type} [AddCommGroup G] (E : Curve G) (hash : HashFn) (hp : Bytes → Option G)

/-- The points `(L_i, R_i)` of round `i` of `verifyRingSignature`. -/
def plainRoundPoints (keyImage pPubkeys pSigc pSigr : Bytes) (i : Nat) : RingSigM (G × G) := do
  let ptKi ← orFail (E.oct2point keyImage)
  let bnC := beNat (slot EC_SECRET_SIZE pSigc i)
  let bnR := beNat (slot EC_SECRET_SIZE pSigr i)
  let ptPk ← orFail (E.bn2point (beNat (slot EC_COMPRESSED_SIZE pPubkeys i)))
  let ptHp ← orFail (hp (slot EC_COMPRESSED_SIZE pPubkeys i))
  return (plainL E ptPk bnC bnR, plainR E ptKi ptHp bnC bnR)

/-- The challenge with which `verifyRingSignatureAB` enters round `i`. -/
def abChallengeAt (keyImage : Bytes) (nRingSize : Nat) (pPubkeys sigC pSigS : Bytes) (i : Nat) :
    RingSigM Nat := do
  let ptKi ← orFail (E.oct2point keyImage)
  forRange i (verifyRingSignatureABStep E hash hp (abPkHash hash nRingSize pPubkeys) ptKi
    pPubkeys pSigS) (beNat sigC)

/-- The points `(e_i, E_i)` of round `i` of `verifyRingSignatureAB`. -/
def abRoundPoints (keyImage : Bytes) (nRingSize : Nat) (pPubkeys sigC pSigS : Bytes) (i : Nat) :
    RingSigM (G × G) := do
  let bnC ← abChallengeAt E hash hp keyImage nRingSize pPubkeys sigC pSigS i
  let ptKi ← orFail (E.oct2point keyImage)
  let bnS := beNat (slot EC_SECRET_SIZE pSigS i)
  let ptPk ← orFail (E.oct2point (slot EC_COMPRESSED_SIZE pPubkeys i))
  let ptHp ← orFail (hp (slot EC_COMPRESSED_SIZE pPubkeys i))
  return (abKeyPoint E ptPk bnC bnS, abImagePoint E ptKi ptHp bnC bnS)

variable {E} (hE : PrimeOrder E)
include hE

theorem tempData_eq_ok_iff (P Q : G) (data : Bytes) :
    tempData E P Q = .ok data ↔ P ≠ 0 ∧ Q ≠ 0 ∧ data = E.point2oct P ++ E.point2oct Q := by
  have hP := hE.point2oct_length_iff P
  have hQ := hE.point2oct_length_iff Q
  unfold tempData
  split
  · rename_i h
    simp [hP.mp h.1, hQ.mp h.2, eq_comm]
  · rename_i h
    simp only [reduceCtorEq, false_iff]
    tauto

theorem verifyRingSignatureStep_eq_ok_iff (ptKi : G) (pPubkeys pSigc pSigr : Bytes) (i : Nat)
    (st st' : Nat × Bytes) :
    verifyRingSignatureStep E hp ptKi pPubkeys pSigc pSigr i st = .ok st' ↔
      ∃ P H, E.bn2point (beNat (slot EC_COMPRESSED_SIZE pPubkeys i)) = some P ∧
        hp (slot EC_COMPRESSED_SIZE pPubkeys i) = some H ∧
        let c := beNat (slot EC_SECRET_SIZE pSigc i)
        let r := beNat (slot EC_SECRET_SIZE pSigr i)
        plainL E P c r ≠ 0 ∧ plainR E ptKi H c r ≠ 0 ∧
          st' = ((st.1 + c) % E.order,
            st.2 ++ (E.point2oct (plainL E P c r) ++ E.point2oct (plainR E ptKi H c r))) := by
  simp only [verifyRingSignatureStep, bind_eq_ok_iff, orFail_eq_ok_iff, tempData_eq_ok_iff hE,
    pure, Except.pure, Except.ok.injEq]
  constructor
  · rintro ⟨P, hP, H, hH, data, ⟨hL, hR, rfl⟩, rfl⟩
    exact ⟨P, H, hP, hH, hL, hR, rfl⟩
  · rintro ⟨P, H, hP, hH, hL, hR, rfl⟩
    exact ⟨P, hP, H, hH, _, ⟨hL, hR, rfl⟩, rfl⟩

/-- Acceptance of a plain ring signature, as equations: the key image and every ring key decode,
no round meets the point at infinity, and the challenges sum up to the commitment's hash. -/
theorem verifyRingSignature_eq_ok_iff (keyImage : Bytes) (txnHash : UInt256) (n : Nat)
    (pPubkeys pSigc pSigr : Bytes) :
    verifyRingSignature E hash hp keyImage txnHash n pPubkeys pSigc pSigr = .ok () ↔
      ∃ ptKi bnSum ssCommitHash, E.oct2point keyImage = some ptKi ∧
        forRange n (verifyRingSignatureStep E hp ptKi pPubkeys pSigc pSigr)
          (0, uint256Bytes txnHash) = .ok (bnSum, ssCommitHash) ∧
        bnOfHash (hash ssCommitHash) % E.order = bnSum % E.order := by
  have hq : 0 < E.order := hE.prime.pos
  have hfinal : ∀ bnSum ssCommitHash,
      (if modSub (bnOfHash (hash ssCommitHash) % E.order) bnSum E.order ≠ 0
        then (throw .notVerified : RingSigM Unit) else pure ()) = .ok () ↔
      bnOfHash (hash ssCommitHash) % E.order = bnSum % E.order := by
    intro bnSum ssCommitHash
    have hzero := modSub_eq_zero_iff (bnOfHash (hash ssCommitHash) % E.order) bnSum E.order hq
    rw [Nat.mod_mod] at hzero
    rw [← hzero]
    by_cases h : modSub (bnOfHash (hash ssCommitHash) % E.order) bnSum E.order = 0
    · simp [h, pure, Except.pure]
    · simp [h, throw, throwThe, MonadExceptOf.throw]
  simp only [verifyRingSignature, bind_eq_ok_iff, orFail_eq_ok_iff]
  constructor
  · rintro ⟨ptKi, hKi, ⟨bnSum, ssCommitHash⟩, hloop, hend⟩
    exact ⟨ptKi, bnSum, ssCommitHash, hKi, hloop, (hfinal _ _).mp hend⟩
  · rintro ⟨ptKi, bnSum, ssCommitHash, hKi, hloop, hend⟩
    exact ⟨ptKi, hKi, (bnSum, ssCommitHash), hloop, (hfinal _ _).mpr hend⟩

theorem abNextChallenge_eq_ok_iff (pkHash : UInt256) (ptKi : G) (pk : Bytes) (c s c' : Nat) :
    abNextChallenge E hash hp pkHash ptKi pk c s = .ok c' ↔
      ∃ P H, E.oct2point pk = some P ∧ hp pk = some H ∧
        abKeyPoint E P c s ≠ 0 ∧ abImagePoint E ptKi H c s ≠ 0 ∧
          c' = abHash E hash pkHash
            (E.point2oct (abKeyPoint E P c s) ++ E.point2oct (abImagePoint E ptKi H c s)) := by
  simp only [abNextChallenge, bind_eq_ok_iff, orFail_eq_ok_iff, tempData_eq_ok_iff hE,
    pure, Except.pure, Except.ok.injEq]
  constructor
  · rintro ⟨P, hP, H, hH, data, ⟨he, hI, rfl⟩, rfl⟩
    exact ⟨P, H, hP, hH, he, hI, rfl⟩
  · rintro ⟨P, H, hP, hH, he, hI, rfl⟩
    exact ⟨P, hP, H, hH, _, ⟨he, hI, rfl⟩, rfl⟩

/-- Acceptance of an AB ring signature: the challenges, started at `sigC`, come back to it. -/
theorem verifyRingSignatureAB_eq_ok_iff (keyImage : Bytes) (n : Nat)
    (pPubkeys sigC pSigS : Bytes) :
    verifyRingSignatureAB E hash hp keyImage n pPubkeys sigC pSigS = .ok () ↔
      sigC.length = EC_SECRET_SIZE ∧ keyImage.length = EC_COMPRESSED_SIZE ∧
        ∃ ptKi bnC, E.oct2point keyImage = some ptKi ∧
          forRange n (verifyRingSignatureABStep E hash hp (abPkHash hash n pPubkeys) ptKi
            pPubkeys pSigS) (beNat sigC) = .ok bnC ∧
          bnC % E.order = beNat sigC % E.order := by
  have hq : 0 < E.order := hE.prime.pos
  have hinf : ∀ P : G, E.isAtInfinity (E.mul P E.order) = true := by
    intro P
    rw [hE.isAtInfinity_iff, hE.mul_eq, order_nsmul E.order hE.card]
  have hfinal : ∀ bnC, (if modSub bnC (beNat sigC) E.order ≠ 0
      then (throw .notVerified : RingSigM Unit) else pure ()) = .ok () ↔
      bnC % E.order = beNat sigC % E.order := by
    intro bnC
    rw [← modSub_eq_zero_iff bnC (beNat sigC) E.order hq]
    by_cases h : modSub bnC (beNat sigC) E.order = 0
    · simp [h, pure, Except.pure]
    · simp [h, throw, throwThe, MonadExceptOf.throw]
  by_cases hC : sigC.length = EC_SECRET_SIZE
  swap
  · simp [verifyRingSignatureAB, hC, throw, throwThe, MonadExceptOf.throw, bind, Except.bind]
  by_cases hK : keyImage.length = EC_COMPRESSED_SIZE
  swap
  · simp [verifyRingSignatureAB, hC, hK, throw, throwThe, MonadExceptOf.throw, bind, Except.bind]
  simp only [verifyRingSignatureAB, hC, hK, ne_eq, not_true_eq_false, if_false, hinf, true_and]
  simp only [bind_eq_ok_iff, orFail_eq_ok_iff]
  constructor
  · rintro ⟨ptKi, hKi, bnC, hloop, hend⟩
    exact ⟨ptKi, bnC, hKi, hloop, (hfinal bnC).mp hend⟩
  · rintro ⟨ptKi, bnC, hKi, hloop, hend⟩
    exact ⟨ptKi, hKi, bnC, hloop, (hfinal bnC).mpr hend⟩

theorem plain_points (ring : LinkRing G) (hg : ring.g = E.generator) (i c r : Nat) :
    plainL E (ring.key i) c r = ring.keyPoint i c r ∧
      plainR E ring.tag (ring.base i) c r = ring.tagPoint i c r := by
  simp only [plainL, plainR, LinkRing.keyPoint, LinkRing.tagPoint, hE.mul_eq, hE.add_eq, hg]
  exact ⟨add_comm _ _, add_comm _ _⟩

theorem ab_points (ring : LinkRing G) (hg : ring.g = E.generator) (i c s : Nat) :
    abKeyPoint E (ring.key i) c s = ring.keyPoint i c s ∧
      abImagePoint E ring.tag (ring.base i) c s = ring.tagPoint i c s := by
  simp only [abKeyPoint, abImagePoint, LinkRing.keyPoint, LinkRing.tagPoint, hE.mul_eq, hE.add_eq,
    hg, and_self]

/-- The members of an accepted plain ring decode, and `bnSum` is the sum of the challenges. -/
private theorem plain_ring (ptKi : G) (n : Nat) (pPubkeys pSigc pSigr : Bytes)
    (st st' : Nat × Bytes)
    (hloop : forRange n (verifyRingSignatureStep E hp ptKi pPubkeys pSigc pSigr) st = .ok st') :
    ∃ P H : Nat → G, ∀ i < n,
      E.bn2point (beNat (slot EC_COMPRESSED_SIZE pPubkeys i)) = some (P i) ∧
        hp (slot EC_COMPRESSED_SIZE pPubkeys i) = some (H i) := by
  obtain ⟨f, -, -, hstep⟩ := (forRange_eq_ok_iff _ _ _ _).mp hloop
  have hround : ∀ i, ∃ P H : G, i < n →
      E.bn2point (beNat (slot EC_COMPRESSED_SIZE pPubkeys i)) = some P ∧
        hp (slot EC_COMPRESSED_SIZE pPubkeys i) = some H := by
    intro i
    by_cases hi : i < n
    · obtain ⟨P, H, hP, hH, -⟩ :=
        (verifyRingSignatureStep_eq_ok_iff hp hE _ _ _ _ _ _ _).mp (hstep i hi)
      exact ⟨P, H, fun _ => ⟨hP, hH⟩⟩
    · exact ⟨0, 0, fun h => absurd h hi⟩
  choose P H hPH using hround
  exact ⟨P, H, hPH⟩

/-- Two accepted plain signatures: the challenge sums differ, so one challenge does, and its
round reveals the secret. -/
private theorem plain_special_sound (keyImage : Bytes) (txnHash : UInt256) (n : Nat)
    (pPubkeys pSigc pSigr pSigc' pSigr' : Bytes)
    (hacc : verifyRingSignature E hash hp keyImage txnHash n pPubkeys pSigc pSigr = .ok ())
    (hpts : ∀ i < n, plainRoundPoints E hp keyImage pPubkeys pSigc pSigr i =
      plainRoundPoints E hp keyImage pPubkeys pSigc' pSigr' i)
    (hsum : (∑ i ∈ Finset.range n, beNat (slot EC_SECRET_SIZE pSigc i)) % E.order ≠
      (∑ i ∈ Finset.range n, beNat (slot EC_SECRET_SIZE pSigc' i)) % E.order) :
    ∃ j < n, ∃ P H I : G,
      E.bn2point (beNat (slot EC_COMPRESSED_SIZE pPubkeys j)) = some P ∧
      hp (slot EC_COMPRESSED_SIZE pPubkeys j) = some H ∧ E.oct2point keyImage = some I ∧
      let x := extractLog E.order (beNat (slot EC_SECRET_SIZE pSigc j))
        (beNat (slot EC_SECRET_SIZE pSigr j)) (beNat (slot EC_SECRET_SIZE pSigc' j))
        (beNat (slot EC_SECRET_SIZE pSigr' j))
      P = x • E.generator ∧ I = x • H := by
  have : Fact E.order.Prime := ⟨hE.prime⟩
  obtain ⟨ptKi, bnSum, commit, hKi, hloop, -⟩ :=
    (verifyRingSignature_eq_ok_iff hash hp hE _ _ _ _ _ _).mp hacc
  obtain ⟨P, H, hring⟩ := plain_ring hp hE ptKi n pPubkeys pSigc pSigr _ _ hloop
  -- some single challenge differs, otherwise the sums would agree
  obtain ⟨j, hj, hne⟩ : ∃ j < n, beNat (slot EC_SECRET_SIZE pSigc j) % E.order ≠
      beNat (slot EC_SECRET_SIZE pSigc' j) % E.order := by
    by_contra hall
    push Not at hall
    apply hsum
    rw [Finset.sum_nat_mod, Finset.sum_nat_mod (Finset.range n) E.order
      (fun i => beNat (slot EC_SECRET_SIZE pSigc' i))]
    congr 1
    exact Finset.sum_congr rfl (fun i hi => hall i (Finset.mem_range.mp hi))
  obtain ⟨hPj, hHj⟩ := hring j hj
  let ring : LinkRing G := ⟨E.generator, P, H, ptKi⟩
  have hround := hpts j hj
  simp only [plainRoundPoints, hKi, hPj, hHj, orFail, bind, Except.bind, pure, Except.pure,
    Except.ok.injEq, Prod.mk.injEq] at hround
  have hp1 := plain_points hE ring rfl j (beNat (slot EC_SECRET_SIZE pSigc j))
    (beNat (slot EC_SECRET_SIZE pSigr j))
  have hp2 := plain_points hE ring rfl j (beNat (slot EC_SECRET_SIZE pSigc' j))
    (beNat (slot EC_SECRET_SIZE pSigr' j))
  have hx := ring.extract E.order hE.card j _ _ _ _ (hp1.1.symm.trans (hround.1.trans hp2.1))
    (hp1.2.symm.trans (hround.2.trans hp2.2)) hne
  exact ⟨j, hj, P j, H j, ptKi, hPj, hHj, hKi, hx.1, hx.2⟩

private theorem ab_special_sound (hash' : HashFn) (keyImage : Bytes) (n : Nat)
    (pPubkeys sigC pSigS sigC' pSigS' : Bytes)
    (hacc : verifyRingSignatureAB E hash hp keyImage n pPubkeys sigC pSigS = .ok ())
    (j c c' : Nat) (hj : j < n)
    (hpts : abRoundPoints E hash hp keyImage n pPubkeys sigC pSigS j =
      abRoundPoints E hash' hp keyImage n pPubkeys sigC' pSigS' j)
    (hc : abChallengeAt E hash hp keyImage n pPubkeys sigC pSigS j = .ok c)
    (hc' : abChallengeAt E hash' hp keyImage n pPubkeys sigC' pSigS' j = .ok c')
    (hne : c % E.order ≠ c' % E.order) :
    ∃ P H I : G, E.oct2point (slot EC_COMPRESSED_SIZE pPubkeys j) = some P ∧
      hp (slot EC_COMPRESSED_SIZE pPubkeys j) = some H ∧ E.oct2point keyImage = some I ∧
      let x := extractLog E.order c (beNat (slot EC_SECRET_SIZE pSigS j)) c'
        (beNat (slot EC_SECRET_SIZE pSigS' j))
      P = x • E.generator ∧ I = x • H := by
  have : Fact E.order.Prime := ⟨hE.prime⟩
  obtain ⟨-, -, ptKi, bnC, hKi, hloop, -⟩ :=
    (verifyRingSignatureAB_eq_ok_iff hash hp hE _ _ _ _ _).mp hacc
  obtain ⟨f, -, -, hstep⟩ := (forRange_eq_ok_iff _ _ _ _).mp hloop
  obtain ⟨P, H, hP, hH, -⟩ := (abNextChallenge_eq_ok_iff hash hp hE _ _ _ _ _ _).mp (hstep j hj)
  let ring : LinkRing G := ⟨E.generator, fun _ => P, fun _ => H, ptKi⟩
  simp only [abRoundPoints, hc, hc', hKi, hP, hH, orFail, bind, Except.bind, pure, Except.pure,
    Except.ok.injEq, Prod.mk.injEq] at hpts
  have hp1 := ab_points hE ring rfl j c (beNat (slot EC_SECRET_SIZE pSigS j))
  have hp2 := ab_points hE ring rfl j c' (beNat (slot EC_SECRET_SIZE pSigS' j))
  have hx := ring.extract E.order hE.card j _ _ _ _ (hp1.1.symm.trans (hpts.1.trans hp2.1))
    (hp1.2.symm.trans (hpts.2.trans hp2.2)) hne
  exact ⟨P, H, ptKi, hP, hH, hKi, hx.1, hx.2⟩

/-- Key images are binding. Two signatures accepted for one ring and one key image under two hash
functions, with equal points in every round and different challenges, yield a ring key `P = x • G`
and the key image `x • Hp(P)` for one `x` computed from the signatures. -/
theorem keyImage_special_sound (hash' : HashFn) (keyImage : Bytes) (n : Nat) (pPubkeys : Bytes) :
    (∀ txnHash txnHash' pSigc pSigr pSigc' pSigr',
      verifyRingSignature E hash hp keyImage txnHash n pPubkeys pSigc pSigr = .ok () →
      verifyRingSignature E hash' hp keyImage txnHash' n pPubkeys pSigc' pSigr' = .ok () →
      (∀ i < n, plainRoundPoints E hp keyImage pPubkeys pSigc pSigr i =
        plainRoundPoints E hp keyImage pPubkeys pSigc' pSigr' i) →
      (∑ i ∈ Finset.range n, beNat (slot EC_SECRET_SIZE pSigc i)) % E.order ≠
        (∑ i ∈ Finset.range n, beNat (slot EC_SECRET_SIZE pSigc' i)) % E.order →
      ∃ j < n, ∃ P H I : G,
        E.bn2point (beNat (slot EC_COMPRESSED_SIZE pPubkeys j)) = some P ∧
        hp (slot EC_COMPRESSED_SIZE pPubkeys j) = some H ∧ E.oct2point keyImage = some I ∧
        let x := extractLog E.order (beNat (slot EC_SECRET_SIZE pSigc j))
          (beNat (slot EC_SECRET_SIZE pSigr j)) (beNat (slot EC_SECRET_SIZE pSigc' j))
          (beNat (slot EC_SECRET_SIZE pSigr' j))
        P = x • E.generator ∧ I = x • H) ∧
    (∀ sigC pSigS sigC' pSigS',
      verifyRingSignatureAB E hash hp keyImage n pPubkeys sigC pSigS = .ok () →
      verifyRingSignatureAB E hash' hp keyImage n pPubkeys sigC' pSigS' = .ok () →
      (∀ i < n, abRoundPoints E hash hp keyImage n pPubkeys sigC pSigS i =
        abRoundPoints E hash' hp keyImage n pPubkeys sigC' pSigS' i) →
      (∃ i < n, ∃ c c', abChallengeAt E hash hp keyImage n pPubkeys sigC pSigS i = .ok c ∧
        abChallengeAt E hash' hp keyImage n pPubkeys sigC' pSigS' i = .ok c' ∧
        c % E.order ≠ c' % E.order) →
      ∃ j < n, ∃ c c', ∃ P H I : G,
        abChallengeAt E hash hp keyImage n pPubkeys sigC pSigS j = .ok c ∧
        abChallengeAt E hash' hp keyImage n pPubkeys sigC' pSigS' j = .ok c' ∧
        E.oct2point (slot EC_COMPRESSED_SIZE pPubkeys j) = some P ∧
        hp (slot EC_COMPRESSED_SIZE pPubkeys j) = some H ∧ E.oct2point keyImage = some I ∧
        let x := extractLog E.order c (beNat (slot EC_SECRET_SIZE pSigS j)) c'
          (beNat (slot EC_SECRET_SIZE pSigS' j))
        P = x • E.generator ∧ I = x • H) := by
  constructor
  · intro txnHash txnHash' pSigc pSigr pSigc' pSigr' hacc _ hpts hsum
    exact plain_special_sound hash hp hE keyImage txnHash n pPubkeys pSigc pSigr pSigc' pSigr'
      hacc hpts hsum
  · intro sigC pSigS sigC' pSigS' hacc _ hpts hdiff
    obtain ⟨j, hj, c, c', hc, hc', hne⟩ := hdiff
    obtain ⟨P, H, I, hx⟩ := ab_special_sound hash hp hE hash' keyImage n pPubkeys sigC pSigS sigC'
      pSigS' hacc j c c' hj (hpts j hj) hc hc' hne
    exact ⟨j, hj, c, c', P, H, I, hc, hc', hx⟩

end Rounds

section Example

/-- A hash that answers every question with the scalar `n`. -/
private def constantHash (n : Nat) : HashFn := fun _ => uint256OfBytes (beBytes EC_SECRET_SIZE n)

private def ring5 : Bytes := (residueCurve 5).point2oct (3 : ℕ)

private def image5 : Bytes := (residueCurve 5).point2oct 1

private instance factPrimeFive : Fact (Nat.Prime 5) := ⟨by decide⟩

theorem keyImage_special_sound_residues :
    (∃ j < 1, ∃ P H I : ZMod 5,
      (residueCurve 5).bn2point (beNat (slot EC_COMPRESSED_SIZE ring5 j)) = some P ∧
      some 2 = some H ∧ (residueCurve 5).oct2point image5 = some I ∧
      let x := extractLog 5 (beNat (slot EC_SECRET_SIZE (beBytes 32 1) j))
        (beNat (slot EC_SECRET_SIZE (beBytes 32 3) j))
        (beNat (slot EC_SECRET_SIZE (beBytes 32 2) j))
        (beNat (slot EC_SECRET_SIZE (beBytes 32 0) j))
      P = x • (residueCurve 5).generator ∧ I = x • H) ∧
    (∃ j < 1, ∃ c c', ∃ P H I : ZMod 5,
      abChallengeAt (residueCurve 5) (constantHash 1) (fun _ => some 2) image5 1 ring5
        (beBytes 32 1) (beBytes 32 3) j = .ok c ∧
      abChallengeAt (residueCurve 5) (constantHash 2) (fun _ => some 2) image5 1 ring5
        (beBytes 32 2) (beBytes 32 0) j = .ok c' ∧
      (residueCurve 5).oct2point (slot EC_COMPRESSED_SIZE ring5 j) = some P ∧
      some 2 = some H ∧ (residueCurve 5).oct2point image5 = some I ∧
      let x := extractLog 5 c (beNat (slot EC_SECRET_SIZE (beBytes 32 3) j)) c'
        (beNat (slot EC_SECRET_SIZE (beBytes 32 0) j))
      P = x • (residueCurve 5).generator ∧ I = x • H) := by
  have h := keyImage_special_sound (constantHash 1) (fun _ => some 2)
    (residueCurve_primeOrder 5 (by norm_num [EC_SECRET_SIZE])) (constantHash 2) image5 1 ring5
  constructor
  · exact h.1 0 0 (beBytes 32 1) (beBytes 32 3) (beBytes 32 2) (beBytes 32 0) (by decide +kernel)
      (by decide +kernel) (by decide +kernel) (by decide +kernel)
  · exact h.2 (beBytes 32 1) (beBytes 32 3) (beBytes 32 2) (beBytes 32 0) (by decide +kernel)
      (by decide +kernel) (by decide +kernel) ⟨0, by decide, 1, 2, by decide +kernel⟩

end Example

end AliasWallet
