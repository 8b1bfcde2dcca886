import AliasWallet.Crypto.Completeness

/-!
# Completeness of the AB ring signature

The challenges form a closed chain around the ring. The generator walks it from the member behind
the secret position, the verifier from position 0.
-/

namespace AliasWallet
open Lib

/-- The place of member `i`'s response among the draws of an AB signature. -/
def abNonce (j i : Nat) : Nat := if i < j then i + 1 else i

section KeyImage

variable {G : Type} [AddCommGroup G] {E : Curve G} (hash : HashFn)

/-- A key image is the encoding of the secret times the hash point, which is not at infinity. -/
theorem generateKeyImage_eq_ok_iff (hE : PrimeOrder E) (publicKey secret keyImage : Bytes) (H : G)
    (hlen : publicKey.length = EC_COMPRESSED_SIZE) (hH : hashToEC E hash true publicKey = some H) :
    generateKeyImage E hash publicKey secret = .ok keyImage ↔
      beNat secret • H ≠ 0 ∧ keyImage = E.point2oct (beNat secret • H) := by
  simp only [generateKeyImage, hlen, ne_eq, not_true_eq_false, if_false, hH, orFail, bind,
    Except.bind, hE.mul_eq, keyImageBytes]
  by_cases h0 : beNat secret • H = 0
  · have hnum : numBytes (beNat [0]) = 0 := rfl
    simp [h0, hE.point2oct_zero, hnum, EC_COMPRESSED_SIZE]
  · have hoct := hE.point2oct_length _ h0
    have hmin := minBytes_beNat (E.point2oct (beNat secret • H))
      (by intro hnil; simp [hnil, EC_COMPRESSED_SIZE] at hoct) (hE.point2oct_head _ h0)
    have hnum : numBytes (beNat (E.point2oct (beNat secret • H))) = EC_COMPRESSED_SIZE := by
      rw [← minBytes_length, hmin, hoct]
    simp [h0, hnum, hmin, eq_comm]

end KeyImage

section AB

variable {G : Type} [AddCommGroup G] (E : Curve G) (hash : HashFn) (hp : Bytes → Option G)
  (tape : RandTape) (ring : LinkRing G) (pkHash : UInt256) (n j : Nat)

/-- The challenge that a pair of commitments hashes to. -/
def pairChallenge (P : G × G) : Nat :=
  abHash E hash pkHash (E.point2oct P.1 ++ E.point2oct P.2)

/-- The commitments of the AB signer, counted from the secret position `j` on: first its own, then
those of the members behind it. -/
def abCommit : Nat → G × G
  | 0 => (nonce tape 0 • ring.g, nonce tape 0 • ring.base j)
  | t + 1 =>
    let c := pairChallenge E hash pkHash (abCommit t)
    let p := (j + 1 + t) % n
    (ring.keyPoint p c (nonce tape (abNonce j p)), ring.tagPoint p c (nonce tape (abNonce j p)))

private abbrev chal (t : Nat) : Nat :=
  pairChallenge E hash pkHash (abCommit E hash tape ring pkHash n j t)

variable {E}

private theorem next_eq (hE : PrimeOrder E) (hg : ring.g = E.generator)
    (hkeys : ∀ i < n, ring.key i ≠ 0)
    (hbase : ∀ i < n, hp (E.point2oct (ring.key i)) = some (ring.base i)) (p c s : Nat) (hpn : p < n)
    (h1 : ring.keyPoint p c s ≠ 0) (h2 : ring.tagPoint p c s ≠ 0) :
    abNextChallenge E hash hp pkHash ring.tag (slot EC_COMPRESSED_SIZE (ringBytes E ring n) p) c s =
      .ok (pairChallenge E hash pkHash (ring.keyPoint p c s, ring.tagPoint p c s)) := by
  have hpts := ab_points hE ring hg p c s
  apply (abNextChallenge_eq_ok_iff hash hp hE _ _ _ _ _ _).mpr
  refine ⟨ring.key p, ring.base p, ?_, ?_, ?_, ?_, ?_⟩
  · rw [slot_ringBytes ring n hE hkeys p hpn, hE.oct2point_point2oct _ (hkeys p hpn)]
  · rw [slot_ringBytes ring n hE hkeys p hpn, hbase p hpn]
  · rw [hpts.1]
    exact h1
  · rw [hpts.2]
    exact h2
  · rw [hpts.1, hpts.2, pairChallenge]

/-- The draws fill every slot but the secret one. -/
private theorem ab_draws (hdraw : ∀ m < n, ∃ d, secretAt tape m = .ok d) (hj : j < n) :
    ∃ pos pSigS, forRange n (abDrawResponses tape j)
      (noncePos tape 1, List.replicate (EC_SECRET_SIZE * n) 0) = .ok (pos, pSigS) ∧
      Filled n j n (fun t => nonceBytes tape (abNonce j t)) pSigS := by
  obtain ⟨st, hst, -, hfilled⟩ := forRange_total n (abDrawResponses tape j)
    (fun i st => st.1 = noncePos tape (if i ≤ j then i + 1 else i) ∧
      Filled n j i (fun t => nonceBytes tape (abNonce j t)) st.2)
    (noncePos tape 1, List.replicate (EC_SECRET_SIZE * n) 0)
    ⟨by simp, filled_zero n j _⟩ (by
      intro i hi st hst
      obtain ⟨hpos, hfilled⟩ := hst
      by_cases hij : i = j
      · refine ⟨st, by simp [abDrawResponses, hij, pure, Except.pure], ?_, ?_⟩
        · rw [hpos, if_pos (by omega), if_neg (by omega)]
        · exact filled_skip n j i _ _ hij hfilled
      · have hm : abNonce j i < n := by
          unfold abNonce
          split <;> omega
        obtain ⟨d, hd⟩ := hdraw _ hm
        have hpos' : st.1 = noncePos tape (abNonce j i) := by
          rw [hpos, abNonce]
          split <;> split <;> congr 1 <;> omega
        have hdrawn : drawSecret tape 32 (noncePos tape (abNonce j i)) =
            .ok (nonceBytes tape (abNonce j i), noncePos tape (abNonce j i + 1)) :=
          draw_ok tape _ d hd
        refine ⟨(noncePos tape (abNonce j i + 1),
          writeAt st.2 (i * EC_SECRET_SIZE) (nonceBytes tape (abNonce j i))), ?_, ?_, ?_⟩
        · simp only [abDrawResponses, if_neg hij, hpos', hdrawn, bind, Except.bind, pure, Except.pure]
        · change noncePos tape (abNonce j i + 1) = _
          rw [abNonce]
          split <;> split <;> congr 1 <;> omega
        · exact filled_write n j i (fun t => nonceBytes tape (abNonce j t)) _ hij hi
            (nonceBytes_length tape _ d hd) hfilled)
  exact ⟨st.1, st.2, hst, hfilled⟩

section Chain

variable (hE : PrimeOrder E) (hg : ring.g = E.generator) (hkeys : ∀ i < n, ring.key i ≠ 0)
  (hbase : ∀ i < n, hp (E.point2oct (ring.key i)) = some (ring.base i)) (hj : j < n)
  (hfin : ∀ t < n, (abCommit E hash tape ring pkHash n j t).1 ≠ 0 ∧
    (abCommit E hash tape ring pkHash n j t).2 ≠ 0)
  (pSigS : Bytes)
include hE hg hkeys hbase hj hfin

/-- A round of another member leads from one challenge of the chain to the next. -/
private theorem chain_step_other
    (hothers : ∀ t < n, t ≠ j → slot EC_SECRET_SIZE pSigS t = nonceBytes tape (abNonce j t))
    (t : Nat) (ht : t + 1 < n) :
    verifyRingSignatureABStep E hash hp pkHash ring.tag (ringBytes E ring n) pSigS ((j + 1 + t) % n)
      (chal E hash tape ring pkHash n j t) = .ok (chal E hash tape ring pkHash n j (t + 1)) := by
  have hpn : (j + 1 + t) % n < n := Nat.mod_lt _ (by omega)
  have hpos : (j + 1 + t) % n ≠ j := by
    rcases Nat.lt_or_ge (j + 1 + t) n with hlt | hge
    · rw [Nat.mod_eq_of_lt hlt]
      omega
    · rw [Nat.mod_eq_sub_mod hge, Nat.mod_eq_of_lt (by omega)]
      omega
  obtain ⟨h1, h2⟩ := hfin (t + 1) ht
  have hnext := next_eq hash hp ring pkHash n hE hg hkeys hbase _ _ _ hpn h1 h2
  rw [verifyRingSignatureABStep, hothers _ hpn hpos]
  exact hnext

/-- The closing response leads the round of the secret position back to the first challenge. -/
private theorem chain_step_last (x : Nat) (hkey : ring.key j = x • ring.g)
    (htag : ring.tag = x • ring.base j)
    (hclose : beNat (slot EC_SECRET_SIZE pSigS j) =
      modSub (nonce tape 0) (chal E hash tape ring pkHash n j (n - 1) * x) E.order) :
    verifyRingSignatureABStep E hash hp pkHash ring.tag (ringBytes E ring n) pSigS j
      (chal E hash tape ring pkHash n j (n - 1)) = .ok (chal E hash tape ring pkHash n j 0) := by
  have hclosed := ring.close E.order hE.card hE.prime.pos j (nonce tape 0)
    (chal E hash tape ring pkHash n j (n - 1)) x hkey htag
  obtain ⟨h1, h2⟩ := hfin 0 (by omega)
  have hnext := next_eq hash hp ring pkHash n hE hg hkeys hbase j _ _ hj
    (by rw [hclosed.1]; exact h1) (by rw [hclosed.2]; exact h2)
  rw [hclosed.1, hclosed.2] at hnext
  rw [verifyRingSignatureABStep, hclose]
  exact hnext

/-- The verifier accepts arrays that close the chain and a `sigC` on it. -/
private theorem verify_chain (x : Nat) (hkey : ring.key j = x • ring.g)
    (htag : ring.tag = x • ring.base j) (htag0 : ring.tag ≠ 0)
    (hpk : pkHash = abPkHash hash n (ringBytes E ring n))
    (hothers : ∀ t < n, t ≠ j → slot EC_SECRET_SIZE pSigS t = nonceBytes tape (abNonce j t))
    (hclose : beNat (slot EC_SECRET_SIZE pSigS j) =
      modSub (nonce tape 0) (chal E hash tape ring pkHash n j (n - 1) * x) E.order)
    (sigC : Bytes) (hlen : sigC.length = EC_SECRET_SIZE)
    (hsigC : beNat sigC = chal E hash tape ring pkHash n j (n - 1 - j)) :
    verifyRingSignatureAB E hash hp (E.point2oct ring.tag) n (ringBytes E ring n) sigC pSigS =
      .ok () := by
  have hchain : ∀ t < n, verifyRingSignatureABStep E hash hp pkHash ring.tag (ringBytes E ring n)
      pSigS ((j + 1 + t) % n) (chal E hash tape ring pkHash n j t) =
      .ok (chal E hash tape ring pkHash n j ((t + 1) % n)) := by
    intro t ht
    by_cases hlast : t = n - 1
    · rw [hlast, show j + 1 + (n - 1) = j + n by omega, Nat.add_mod_right, Nat.mod_eq_of_lt hj,
        show n - 1 + 1 = n by omega, Nat.mod_self]
      exact chain_step_last hash hp tape ring pkHash n j hE hg hkeys hbase hj hfin pSigS x hkey htag
        hclose
    · rw [Nat.mod_eq_of_lt (by omega : t + 1 < n)]
      exact chain_step_other hash hp tape ring pkHash n j hE hg hkeys hbase hj hfin pSigS hothers t
        (by omega)
  let D : Nat → Nat := fun p => chal E hash tape ring pkHash n j ((p + (n - 1 - j)) % n)
  have hloop : forRange n (verifyRingSignatureABStep E hash hp pkHash ring.tag (ringBytes E ring n)
      pSigS) (beNat sigC) = .ok (D n) := by
    apply (forRange_eq_ok_iff _ _ _ _).mpr
    refine ⟨D, ?_, rfl, ?_⟩
    · rw [hsigC]
      simp only [D, Nat.zero_add, Nat.mod_eq_of_lt (by omega : n - 1 - j < n)]
    · intro p hpn
      exact rotate_chain _ n j hj _ hchain p hpn
  apply (verifyRingSignatureAB_eq_ok_iff hash hp hE _ _ _ _ _).mpr
  refine ⟨hlen, hE.point2oct_length _ htag0, ring.tag, D n, hE.oct2point_point2oct _ htag0, ?_, ?_⟩
  · rw [← hpk]
    exact hloop
  · rw [hsigC]
    simp only [D, Nat.add_mod_left, Nat.mod_eq_of_lt (by omega : n - 1 - j < n)]

omit hg hkeys hbase hj hfin in
private theorem chal_lt (t : Nat) : chal E hash tape ring pkHash n j t < 256 ^ EC_SECRET_SIZE :=
  lt_of_lt_of_le (Nat.mod_lt _ hE.prime.pos) hE.order_le

omit [AddCommGroup G] hE hg hkeys hbase hj hfin in
/-- A round that computes the challenge `c` emits it as `sigC` in front of position 0 only. -/
private theorem abAdvance_ok (ptKi : G) (pPubkeys : Bytes) (st : ABGen) (c : Nat)
    (hc : c < 256 ^ EC_SECRET_SIZE)
    (hnext : verifyRingSignatureABStep E hash hp pkHash ptKi pPubkeys st.pSigS st.ib st.bnC = .ok c) :
    ∃ sigC, abAdvance E hash hp pkHash ptKi n j pPubkeys st =
        .ok { st with ib := st.i, i := (st.i + 1) % n, bnC := c,
                      bnCj := if st.i = j then c else st.bnCj, sigC } ∧
      (st.i = 0 → sigC.length = EC_SECRET_SIZE ∧ beNat sigC = c) ∧
      (st.i ≠ 0 → sigC = st.sigC) := by
  rw [verifyRingSignatureABStep] at hnext
  by_cases h0 : st.i = 0
  · have hzero : Filled 1 0 1 (fun _ => []) (List.replicate (EC_SECRET_SIZE * 1) 0) :=
      filled_skip 1 0 0 _ _ rfl (filled_zero 1 0 _)
    obtain ⟨sigC, hsigC, hval, -⟩ := filled_close 1 0 _ _ c (by omega) hc hzero
    have hlen : sigC.length = EC_SECRET_SIZE := by
      have hle := numBytes_le c EC_SECRET_SIZE hc
      rw [writePadded, if_neg (by omega), Except.ok.injEq] at hsigC
      rw [← hsigC, writeAt_length]
      · simp
      · rw [minBytes_length, List.length_replicate]
        omega
    have hslot : slot EC_SECRET_SIZE sigC 0 = sigC := by
      rw [slot, slice, Nat.zero_mul, List.drop_zero, ← hlen, List.take_length]
    rw [hslot] at hval
    rw [Nat.mul_one] at hsigC
    refine ⟨sigC, ?_, fun _ => ⟨hlen, hval⟩, fun h => absurd h0 h⟩
    simp only [abAdvance, hnext, h0, if_true, hsigC, bind, Except.bind, pure, Except.pure]
  · refine ⟨st.sigC, ?_, fun h => absurd h h0, fun _ => rfl⟩
    simp only [abAdvance, hnext, h0, if_false, bind, Except.bind, pure, Except.pure]

/-- The loop invariant of `generateRingSignatureAB` before its last round. -/
private structure ABInv (E : Curve G) (k : Nat) (st : ABGen) : Prop where
  ib : st.ib = (j + 1 + k) % n
  i : st.i = (j + 2 + k) % n
  bnC : st.bnC = chal E hash tape ring pkHash n j k
  bnCj : 0 < k → k = n - 1 → st.bnCj = chal E hash tape ring pkHash n j (n - 1)
  sigC : j < n - 1 → n - 1 - j ≤ k →
    st.sigC.length = EC_SECRET_SIZE ∧ beNat st.sigC = chal E hash tape ring pkHash n j (n - 1 - j)
  pSigS : st.pSigS = pSigS

private theorem generateAB_step
    (hothers : ∀ t < n, t ≠ j → slot EC_SECRET_SIZE pSigS t = nonceBytes tape (abNonce j t))
    (secret : Bytes) (k : Nat) (hk : k < n - 1) (st : ABGen)
    (hinv : ABInv hash tape ring pkHash n j pSigS E k st) :
    ∃ st', generateRingSignatureABStep E hash hp pkHash ring.tag (nonce tape 0) n j secret
        (ringBytes E ring n) k st = .ok st' ∧
      ABInv hash tape ring pkHash n j pSigS E (k + 1) st' := by
  have hnext := chain_step_other hash hp tape ring pkHash n j hE hg hkeys hbase hj hfin pSigS hothers k
    (by omega)
  rw [← hinv.ib, ← hinv.bnC, ← hinv.pSigS] at hnext
  obtain ⟨sigC, hadv, hemit, hkeep⟩ := abAdvance_ok hash hp pkHash n j ring.tag _ st _
    (chal_lt hash tape ring pkHash n j hE (k + 1)) hnext
  refine ⟨_, by rw [generateRingSignatureABStep, if_neg (by omega), hadv], ?_⟩
  have hi := hinv.i
  refine ⟨?_, ?_, rfl, ?_, ?_, hinv.pSigS⟩
  · rw [hi, show j + 2 + k = j + 1 + (k + 1) by omega]
  · change (st.i + 1) % n = (j + 2 + (k + 1)) % n
    rw [hi, Nat.mod_add_mod]
    congr 1
  · -- the challenge of the secret position is kept in the round before the last
    intro _ hlast
    have hsecret : st.i = j := by
      rw [hi, show j + 2 + k = j + n by omega, Nat.add_mod_right, Nat.mod_eq_of_lt hj]
    change (if st.i = j then _ else _) = _
    rw [if_pos hsecret, hlast]
  · intro hjn hpast
    rcases Nat.lt_or_ge k (n - 1 - j) with hlt | hge
    · have hzero : st.i = 0 := by
        rw [hi, show j + 2 + k = n by omega, Nat.mod_self]
      obtain ⟨hlen, hval⟩ := hemit hzero
      refine ⟨hlen, ?_⟩
      rw [hval, show k + 1 = n - 1 - j by omega]
    · have hne : st.i ≠ 0 := by
        rw [hi, Nat.mod_eq_sub_mod (by omega), Nat.mod_eq_of_lt (by omega)]
        omega
      change sigC.length = _ ∧ beNat sigC = _
      rw [hkeep hne]
      exact hinv.sigC hjn hge

/-- The last round closes the ring; for a secret at the end of the ring it also emits `sigC`. -/
private theorem generateAB_last (secret : Bytes) (hn : 2 ≤ n)
    (hkey : ring.key j = beNat secret • ring.g) (htag : ring.tag = beNat secret • ring.base j)
    (hfilled : Filled n j n (fun t => nonceBytes tape (abNonce j t)) pSigS) (st : ABGen)
    (hinv : ABInv hash tape ring pkHash n j pSigS E (n - 1) st) :
    ∃ st', generateRingSignatureABStep E hash hp pkHash ring.tag (nonce tape 0) n j secret
        (ringBytes E ring n) (n - 1) st = .ok st' ∧
      st'.sigC.length = EC_SECRET_SIZE ∧
      beNat st'.sigC = chal E hash tape ring pkHash n j (n - 1 - j) ∧
      (∀ t < n, t ≠ j → slot EC_SECRET_SIZE st'.pSigS t = nonceBytes tape (abNonce j t)) ∧
      beNat (slot EC_SECRET_SIZE st'.pSigS j) = modSub (nonce tape 0)
        (chal E hash tape ring pkHash n j (n - 1) * beNat secret) E.order := by
  obtain ⟨pSigS', hwrite, hsj, hothers⟩ := filled_close n j _ _ (modSub (nonce tape 0)
    (chal E hash tape ring pkHash n j (n - 1) * beNat secret) E.order) hj
    (lt_of_lt_of_le (modSub_lt _ _ _ hE.prime.pos) hE.order_le) hfilled
  have hclose : abClose E (nonce tape 0) j secret st = .ok { st with pSigS := pSigS' } := by
    rw [abClose, hinv.bnCj (by omega) rfl, hinv.pSigS, hwrite]
    rfl
  by_cases hend : j = n - 1
  · have hib : st.ib = j := by
      rw [hinv.ib, show j + 1 + (n - 1) = j + n by omega, Nat.add_mod_right, Nat.mod_eq_of_lt hj]
    have hi : st.i = 0 := by
      rw [hinv.i, show j + 2 + (n - 1) = n + n by omega, Nat.add_mod_right, Nat.mod_self]
    have hnext := chain_step_last hash hp tape ring pkHash n j hE hg hkeys hbase hj hfin pSigS'
      (beNat secret) hkey htag hsj
    obtain ⟨sigC, hadv, hemit, -⟩ := abAdvance_ok hash hp pkHash n j ring.tag (ringBytes E ring n)
      { st with pSigS := pSigS' } _ (chal_lt hash tape ring pkHash n j hE 0)
      (by simp only [hib, hinv.bnC]; exact hnext)
    obtain ⟨hlen, hval⟩ := hemit hi
    have hstep : generateRingSignatureABStep E hash hp pkHash ring.tag (nonce tape 0) n j secret
        (ringBytes E ring n) (n - 1) st =
        abAdvance E hash hp pkHash ring.tag n j (ringBytes E ring n) { st with pSigS := pSigS' } := by
      rw [generateRingSignatureABStep, if_pos rfl, hclose]
      exact if_neg (not_not.mpr hend)
    refine ⟨_, hstep.trans hadv, hlen, ?_, hothers, hsj⟩
    rw [hval, hend, Nat.sub_self]
  · obtain ⟨hlen, hval⟩ := hinv.sigC (by omega) (by omega)
    refine ⟨{ st with pSigS := pSigS' }, ?_, hlen, hval, hothers, hsj⟩
    simp only [generateRingSignatureABStep, if_true, hclose, hend, ne_eq, not_false_eq_true, bind,
      Except.bind, pure, Except.pure]

end Chain

/-- Completeness of the AB ring signature. At protocol V3, with the nonces drawn from the tape and
no point at infinity, `generateRingSignatureAB` returns 0 for every secret position, and
`verifyRingSignatureAB` accepts what it writes. -/
theorem generateRingSignatureAB_complete (hE : PrimeOrder E) (hg : ring.g = E.generator)
    (hkeys : ∀ i < n, ring.key i ≠ 0)
    (hbase : ∀ i < n, hashToEC E hash true (E.point2oct (ring.key i)) = some (ring.base i))
    (hn : 2 ≤ n) (hn200 : n < 200) (hj : j < n) (secret : Bytes)
    (hkey : ring.key j = beNat secret • ring.g) (htag : ring.tag = beNat secret • ring.base j)
    (keyImage : Bytes)
    (hKi : generateKeyImage E hash (E.point2oct (ring.key j)) secret = .ok keyImage)
    (hdraw : ∀ m < n, (secretAt tape m).isOk)
    (hfin : ∀ t < n,
      (abCommit E hash tape ring (abPkHash hash n (ringBytes E ring n)) n j t).1 ≠ 0 ∧
        (abCommit E hash tape ring (abPkHash hash n (ringBytes E ring n)) n j t).2 ≠ 0)
    (sigC₀ : Bytes) :
    ∃ sigC pSigS,
      generateRingSignatureAB E hash (hashToEC E hash true) tape keyImage n j secret
        (ringBytes E ring n) sigC₀ = .ok (sigC, pSigS) ∧
      verifyRingSignatureAB E hash (hashToEC E hash true) keyImage n (ringBytes E ring n)
        sigC pSigS = .ok () := by
  obtain ⟨htag0, rfl⟩ : ring.tag ≠ 0 ∧ keyImage = E.point2oct ring.tag := by
    rw [htag]
    exact (generateKeyImage_eq_ok_iff hash hE _ _ _ _ (hE.point2oct_length _ (hkeys j hj))
      (hbase j hj)).mp hKi
  have hdraw' : ∀ m < n, ∃ d, secretAt tape m = .ok d :=
    fun m hm => exists_ok_of_isOk _ (hdraw m hm)
  obtain ⟨d0, hd0⟩ := hdraw' 0 (by omega)
  have hdraw0 : generateRandomSecret tape 0 = .ok (nonceBytes tape 0, noncePos tape 1) :=
    draw_ok tape 0 d0 hd0
  obtain ⟨pos, pSigS₀, hdraws, hfilled⟩ := ab_draws tape n j hdraw' hj
  let pk := abPkHash hash n (ringBytes E ring n)
  have hothers₀ : ∀ t < n, t ≠ j →
      slot EC_SECRET_SIZE pSigS₀ t = nonceBytes tape (abNonce j t) := by
    intro t ht htj
    rw [hfilled.slots t ht, if_pos ⟨ht, htj⟩]
  obtain ⟨st, hloop, hinv⟩ := forRange_total (n - 1)
    (generateRingSignatureABStep E hash (hashToEC E hash true) pk ring.tag (nonce tape 0) n j secret
      (ringBytes E ring n))
    (ABInv hash tape ring pk n j pSigS₀ E)
    { ib := (j + 1) % n
      i := (j + 2) % n
      bnC := chal E hash tape ring pk n j 0
      bnCj := 0
      sigC := sigC₀
      pSigS := pSigS₀ }
    ⟨rfl, rfl, rfl, by simp, by intro h1 h2; omega, rfl⟩
    (fun k hk st hst => generateAB_step hash _ tape ring pk n j hE hg hkeys hbase hj hfin pSigS₀
      hothers₀ secret k hk st hst)
  obtain ⟨st', hlast, hlen, hval, hothers, hsj⟩ := generateAB_last hash _ tape ring pk n j hE hg hkeys
    hbase hj hfin pSigS₀ secret hn hkey htag hfilled st hinv
  refine ⟨st'.sigC, st'.pSigS, ?_, ?_⟩
  · have hfull : forRange n (generateRingSignatureABStep E hash (hashToEC E hash true) pk ring.tag
        (nonce tape 0) n j secret (ringBytes E ring n))
        { ib := (j + 1) % n
          i := (j + 2) % n
          bnC := abHash E hash pk (E.point2oct (nonce tape 0 • ring.g) ++
            E.point2oct (nonce tape 0 • ring.base j))
          bnCj := 0
          sigC := sigC₀
          pSigS := pSigS₀ } = .ok st' := by
      rw [forRange_pred n (by omega)]
      exact (bind_eq_ok_iff _ _ _).mpr ⟨st, hloop, hlast⟩
    have htemp : tempData E (nonce tape 0 • ring.g) (nonce tape 0 • ring.base j) =
        .ok (E.point2oct (nonce tape 0 • ring.g) ++ E.point2oct (nonce tape 0 • ring.base j)) :=
      tempData_ok hE _ _ (hfin 0 (by omega)).1 (hfin 0 (by omega)).2
    simp only [generateRingSignatureAB, if_neg (by omega : ¬ n ≥ 200), hdraw0, hdraws,
      hE.oct2point_point2oct _ htag0, slot_ringBytes ring n hE hkeys j hj, hbase j hj, orFail, bind,
      Except.bind, hE.mul_eq, ← hg]
    simp only [show beNat (nonceBytes tape 0) = nonce tape 0 from rfl, htemp]
    rw [hfull]
    rfl
  · exact verify_chain hash _ tape ring pk n j hE hg hkeys hbase hj hfin st'.pSigS (beNat secret) hkey
      htag htag0 rfl hothers hsj st'.sigC hlen hval

end AB

/-- The ring of the plain example with the hash points that `hashToEC` gives it. -/
private def ring101AB : LinkRing (ZMod 101) where
  g := 1
  key := ring101.key
  base i := (bnOfHash (uint256OfBytes ((residueCurve 101).point2oct (ring101.key i)).reverse) : ZMod 101)
  tag := (5 * bnOfHash (uint256OfBytes ((residueCurve 101).point2oct (ring101.key 2)).reverse) : ℕ)

theorem generateRingSignatureAB_complete_residues : ∃ sigC pSigS,
    generateRingSignatureAB (residueCurve 101) (fun m => uint256OfBytes m.reverse)
      (hashToEC (residueCurve 101) (fun m => uint256OfBytes m.reverse) true) tape101
      ((residueCurve 101).point2oct ring101AB.tag) 4 2 (beBytes 32 5)
      (ringBytes (residueCurve 101) ring101AB 4) [] = .ok (sigC, pSigS) ∧
    verifyRingSignatureAB (residueCurve 101) (fun m => uint256OfBytes m.reverse)
      (hashToEC (residueCurve 101) (fun m => uint256OfBytes m.reverse) true)
      ((residueCurve 101).point2oct ring101AB.tag) 4
      (ringBytes (residueCurve 101) ring101AB 4) sigC pSigS = .ok () :=
  generateRingSignatureAB_complete (fun m => uint256OfBytes m.reverse) tape101 ring101AB 4 2
    (residueCurve_primeOrder 101 (by norm_num [EC_SECRET_SIZE])) rfl (by decide +kernel)
    (by decide +kernel) (by decide) (by decide) (by decide) (beBytes 32 5) (by decide +kernel)
    (by decide +kernel) _ (by decide +kernel) (by decide +kernel) (by decide +kernel) []

end AliasWallet
