import AliasWallet.Crypto.Binding

/-!
# Completeness of both ring signatures

The nonces are those that the generator draws from its tape, in the order of its calls. Whatever
they are, a ring that meets no point at infinity is signed, and the verifier accepts.
-/

namespace AliasWallet
open Lib

theorem exists_ok_of_isOk {α : Type} (x : RingSigM α) (h : x.isOk) : ∃ a, x = .ok a := by
  cases x with
  | error e => simp [Except.isOk, Except.toBool] at h
  | ok a => exact ⟨a, rfl⟩

section Draws

variable (tape : RandTape)

/-- The `m`-th secret drawn from a fresh tape and the position behind it. -/
def secretAt : Nat → RingSigM (Bytes × Nat)
  | 0 => generateRandomSecret tape 0
  | m + 1 => secretAt m >>= fun d => generateRandomSecret tape d.2

def nonceBytes (m : Nat) : Bytes := match secretAt tape m with
  | .ok d => d.1
  | .error _ => []

def nonce (m : Nat) : Nat := beNat (nonceBytes tape m)

def noncePos (m : Nat) : Nat := match m with
  | 0 => 0
  | m + 1 => match secretAt tape m with
    | .ok d => d.2
    | .error _ => 0

private theorem drawSecret_length (tries pos : Nat) (d : Bytes × Nat)
    (h : drawSecret tape tries pos = .ok d) : d.1.length = EC_SECRET_SIZE := by
  induction tries generalizing pos with
  | zero => simp [drawSecret] at h
  | succ tries ih =>
    unfold drawSecret at h
    split at h
    · simp at h
    · split at h
      · simp only [Except.ok.injEq] at h
        subst h
        simp [EC_SECRET_SIZE]
      · exact ih _ h

theorem draw_ok (m : Nat) (d : Bytes × Nat) (h : secretAt tape m = .ok d) :
    generateRandomSecret tape (noncePos tape m) = .ok (nonceBytes tape m, noncePos tape (m + 1)) := by
  cases m with
  | zero =>
    have h0 : generateRandomSecret tape 0 = .ok d := h
    simp [nonceBytes, noncePos, secretAt, h0]
  | succ m =>
    obtain ⟨d', hd', hdraw⟩ := (bind_eq_ok_iff _ _ _).mp h
    simpa [nonceBytes, noncePos, h, hd'] using hdraw

theorem nonceBytes_length (m : Nat) (d : Bytes × Nat) (h : secretAt tape m = .ok d) :
    (nonceBytes tape m).length = EC_SECRET_SIZE :=
  drawSecret_length tape 32 _ _ (draw_ok tape m d h)

end Draws

section Slots

variable (n j i : Nat) (f : Nat → Bytes) (buf : Bytes)

/-- A signature array of `n` slots after `i` rounds: the slot of the secret position `j` and those
of later members are still zero. -/
structure Filled : Prop where
  length : buf.length = EC_SECRET_SIZE * n
  slots : ∀ t < n, slot EC_SECRET_SIZE buf t =
    if t < i ∧ t ≠ j then f t else List.replicate EC_SECRET_SIZE 0

theorem filled_zero : Filled n j 0 f (List.replicate (EC_SECRET_SIZE * n) 0) := by
  constructor
  · simp
  · intro t ht
    rw [slot_replicate _ _ _ _ ht, if_neg (by omega)]

theorem filled_skip (hij : i = j) (h : Filled n j i f buf) : Filled n j (i + 1) f buf := by
  constructor
  · exact h.length
  · intro t ht
    rw [h.slots t ht]
    congr 1
    simp only [eq_iff_iff]
    omega

theorem filled_write (hij : i ≠ j) (hi : i < n) (hlen : (f i).length = EC_SECRET_SIZE)
    (h : Filled n j i f buf) : Filled n j (i + 1) f (writeAt buf (i * EC_SECRET_SIZE) (f i)) := by
  have hroom : (i + 1) * EC_SECRET_SIZE ≤ buf.length := by
    rw [h.length, Nat.mul_comm EC_SECRET_SIZE]
    exact Nat.mul_le_mul_right _ hi
  constructor
  · rw [writeAt_length, h.length]
    rw [hlen]
    rw [Nat.add_mul] at hroom
    omega
  · intro t ht
    rw [slot_writeAt _ _ _ _ _ hlen hroom, h.slots t ht]
    by_cases hti : t = i
    · simp [hti, hij]
    · rw [if_neg hti]
      congr 1
      simp only [eq_iff_iff]
      omega

/-- Closing the ring: a scalar written right-aligned into the secret slot. -/
theorem filled_close (bn : Nat) (hj : j < n) (hbn : bn < 256 ^ EC_SECRET_SIZE)
    (h : Filled n j n f buf) : ∃ buf', writePadded buf j bn = .ok buf' ∧
      beNat (slot EC_SECRET_SIZE buf' j) = bn ∧
      ∀ t < n, t ≠ j → slot EC_SECRET_SIZE buf' t = f t := by
  have hle := numBytes_le bn EC_SECRET_SIZE hbn
  have hroom : (j + 1) * EC_SECRET_SIZE ≤ buf.length := by
    rw [h.length, Nat.mul_comm EC_SECRET_SIZE]
    exact Nat.mul_le_mul_right _ hj
  refine ⟨writeAt buf (j * EC_SECRET_SIZE + (EC_SECRET_SIZE - numBytes bn)) (minBytes bn), ?_, ?_, ?_⟩
  · rw [writePadded, if_neg (by omega)]
  · apply beNat_slot_writeAt_minBytes buf EC_SECRET_SIZE j bn hbn _ hroom
    rw [h.slots j hj, if_neg (by simp)]
  · intro t ht htj
    rw [slot_writeAt_ne _ _ _ _ _ _ htj (by rw [minBytes_length]; omega) hroom, h.slots t ht,
      if_pos ⟨ht, htj⟩]

end Slots

/-- The place of member `i`'s first nonce in a plain signature with secret position `j`. -/
def plainNonce (j i : Nat) : Nat := if i < j then 2 * i + 1 else 2 * i - 1

section Plain

variable {G : Type} [AddCommGroup G] {E : Curve G} (hash : HashFn) (hp : Bytes → Option G)
  (tape : RandTape) (ring : LinkRing G)

/-- The key bytes of the first `n` members. -/
def ringBytes (E : Curve G) (ring : LinkRing G) (n : Nat) : Bytes :=
  (List.range n).flatMap fun i => E.point2oct (ring.key i)

/-- The commitments of the plain signer at position `j`. -/
def plainCommit (j i : Nat) : G × G :=
  if i = j then (nonce tape 0 • ring.g, nonce tape 0 • ring.base j)
  else (ring.keyPoint i (nonce tape (plainNonce j i)) (nonce tape (plainNonce j i + 1)),
    ring.tagPoint i (nonce tape (plainNonce j i)) (nonce tape (plainNonce j i + 1)))

private def commitBytes (E : Curve G) (txnHash : UInt256) (j i : Nat) : Bytes :=
  uint256Bytes txnHash ++ (List.range i).flatMap fun t =>
    E.point2oct (plainCommit tape ring j t).1 ++ E.point2oct (plainCommit tape ring j t).2

private def othersSum (j i : Nat) : Nat :=
  ∑ t ∈ Finset.range i, if t = j then 0 else nonce tape (plainNonce j t)

/-- The loop invariant of `generateRingSignature`. -/
private structure PlainInv (E : Curve G) (txnHash : UInt256) (n j i : Nat) (st : PlainGen) : Prop where
  pos : st.pos = noncePos tape (if i ≤ j then 2 * i + 1 else 2 * i - 1)
  sum : st.bnSum = othersSum tape j i % E.order
  commit : st.ssCommitHash = commitBytes tape ring E txnHash j i
  sigc : Filled n j i (fun t => nonceBytes tape (plainNonce j t)) st.pSigc
  sigr : Filled n j i (fun t => nonceBytes tape (plainNonce j t + 1)) st.pSigr

variable (n j : Nat)

theorem slot_ringBytes (hE : PrimeOrder E) (hkeys : ∀ i < n, ring.key i ≠ 0) (i : Nat)
    (hi : i < n) : slot EC_COMPRESSED_SIZE (ringBytes E ring n) i = E.point2oct (ring.key i) := by
  apply slot_flatMap (fun i => E.point2oct (ring.key i)) EC_COMPRESSED_SIZE (List.range n) i i
  · intro t ht
    exact hE.point2oct_length _ (hkeys t (List.mem_range.mp ht))
  · rw [List.getElem?_range hi]

private theorem commitBytes_succ (txnHash : UInt256) (i : Nat) :
    commitBytes tape ring E txnHash j (i + 1) = commitBytes tape ring E txnHash j i ++
      (E.point2oct (plainCommit tape ring j i).1 ++ E.point2oct (plainCommit tape ring j i).2) := by
  simp [commitBytes, List.range_succ]

theorem tempData_ok (hE : PrimeOrder E) (P Q : G) (hP : P ≠ 0) (hQ : Q ≠ 0) :
    tempData E P Q = .ok (E.point2oct P ++ E.point2oct Q) :=
  (tempData_eq_ok_iff hE P Q _).mpr ⟨hP, hQ, rfl⟩

private theorem generate_step (hE : PrimeOrder E) (hg : ring.g = E.generator)
    (hkeys : ∀ i < n, ring.key i ≠ 0)
    (hbase : ∀ i < n, hp (E.point2oct (ring.key i)) = some (ring.base i))
    (hdraw : ∀ m < 2 * n - 1, ∃ d, secretAt tape m = .ok d)
    (hfin : ∀ i < n, (plainCommit tape ring j i).1 ≠ 0 ∧ (plainCommit tape ring j i).2 ≠ 0)
    (txnHash : UInt256) (hj : j < n) (i : Nat) (hi : i < n) (st : PlainGen)
    (hinv : PlainInv tape ring E txnHash n j i st) :
    ∃ st', generateRingSignatureStep E hp tape (nonce tape 0) ring.tag j (ringBytes E ring n) i st =
      .ok st' ∧ PlainInv tape ring E txnHash n j (i + 1) st' := by
  have hslot := slot_ringBytes ring n hE hkeys i hi
  have hcommit := commitBytes_succ (E := E) tape ring j txnHash i
  obtain ⟨hL, hR⟩ := hfin i hi
  by_cases hij : i = j
  · -- the secret position draws nothing and leaves both arrays alone
    subst hij
    simp only [plainCommit, if_true] at hL hR
    refine ⟨{ st with ssCommitHash := st.ssCommitHash ++ (E.point2oct (nonce tape 0 • ring.g) ++
      E.point2oct (nonce tape 0 • ring.base i)) }, ?_, ?_⟩
    · simp only [generateRingSignatureStep, hslot, if_true, hbase i hi, orFail, bind, Except.bind,
        hE.mul_eq, ← hg, tempData_ok hE _ _ hL hR, pure, Except.pure]
    · refine ⟨?_, ?_, ?_, filled_skip n i i _ _ rfl hinv.sigc, filled_skip n i i _ _ rfl hinv.sigr⟩
      · rw [hinv.pos, if_pos (le_refl i), if_neg (by omega)]
        congr 1
      · simp [hinv.sum, othersSum, Finset.sum_range_succ]
      · simp [hinv.commit, hcommit, plainCommit]
  · have hm1 : plainNonce j i < 2 * n - 1 := by
      unfold plainNonce
      split <;> omega
    have hm2 : plainNonce j i + 1 < 2 * n - 1 := by
      unfold plainNonce
      split <;> omega
    obtain ⟨d1, hd1⟩ := hdraw _ hm1
    obtain ⟨d2, hd2⟩ := hdraw _ hm2
    have hpos : st.pos = noncePos tape (plainNonce j i) := by
      rw [hinv.pos, plainNonce]
      split <;> split <;> congr 1 <;> omega
    have hdraw1 := draw_ok tape _ d1 hd1
    have hdraw2 := draw_ok tape _ d2 hd2
    have hlen1 := nonceBytes_length tape _ d1 hd1
    have hlen2 := nonceBytes_length tape _ d2 hd2
    have hpts := plain_points hE ring hg i (nonce tape (plainNonce j i))
      (nonce tape (plainNonce j i + 1))
    simp only [plainCommit, if_neg hij] at hL hR
    refine ⟨{ pos := noncePos tape (plainNonce j i + 2)
              bnSum := (st.bnSum + nonce tape (plainNonce j i)) % E.order
              ssCommitHash := st.ssCommitHash ++ (E.point2oct (plainCommit tape ring j i).1 ++
                E.point2oct (plainCommit tape ring j i).2)
              pSigc := writeAt st.pSigc (i * EC_SECRET_SIZE) (nonceBytes tape (plainNonce j i))
              pSigr := writeAt st.pSigr (i * EC_SECRET_SIZE)
                (nonceBytes tape (plainNonce j i + 1)) }, ?_, ?_⟩
    · simp only [nonce] at hL hR hpts
      simp only [generateRingSignatureStep, hslot, if_neg hij, hpos, hdraw1, hdraw2, hbase i hi,
        hE.bn2point_point2oct _ (hkeys i hi), orFail, bind, Except.bind, hpts.1, hpts.2,
        tempData_ok hE _ _ hL hR, pure, Except.pure, plainCommit, nonce]
    · refine ⟨?_, ?_, ?_, filled_write n j i _ _ hij hi hlen1 hinv.sigc,
        filled_write n j i (fun t => nonceBytes tape (plainNonce j t + 1)) _ hij hi hlen2 hinv.sigr⟩
      · change noncePos tape (plainNonce j i + 2) = _
        rw [plainNonce]
        split <;> split <;> congr 1 <;> omega
      · simp [hinv.sum, othersSum, Finset.sum_range_succ, hij]
      · simp [hinv.commit, hcommit]

/-- In every round the verifier recomputes the signer's commitments. -/
private theorem verify_commit (hE : PrimeOrder E) (hg : ring.g = E.generator) (x i : Nat)
    (hkey : ring.key j = x • ring.g) (htag : ring.tag = x • ring.base j) (pSigc pSigr : Bytes)
    (hothers : i ≠ j → slot EC_SECRET_SIZE pSigc i = nonceBytes tape (plainNonce j i) ∧
      slot EC_SECRET_SIZE pSigr i = nonceBytes tape (plainNonce j i + 1))
    (hclose : beNat (slot EC_SECRET_SIZE pSigr j) =
      modSub (nonce tape 0) (beNat (slot EC_SECRET_SIZE pSigc j) * x) E.order) :
    plainL E (ring.key i) (beNat (slot EC_SECRET_SIZE pSigc i)) (beNat (slot EC_SECRET_SIZE pSigr i)) =
        (plainCommit tape ring j i).1 ∧
      plainR E ring.tag (ring.base i) (beNat (slot EC_SECRET_SIZE pSigc i))
        (beNat (slot EC_SECRET_SIZE pSigr i)) = (plainCommit tape ring j i).2 := by
  have hpts := plain_points hE ring hg i (beNat (slot EC_SECRET_SIZE pSigc i))
    (beNat (slot EC_SECRET_SIZE pSigr i))
  rw [hpts.1, hpts.2]
  by_cases hij : i = j
  · subst hij
    have hclosed := ring.close E.order hE.card hE.prime.pos i (nonce tape 0)
      (beNat (slot EC_SECRET_SIZE pSigc i)) x hkey htag
    rw [hclose, hclosed.1, hclosed.2]
    simp [plainCommit]
  · rw [(hothers hij).1, (hothers hij).2]
    simp [plainCommit, hij, nonce]

/-- The challenge at the secret position completes the sum to the commitment's hash. -/
private theorem closing_sum (q bnH : Nat) (hq : 0 < q) (hj : j < n) (C : Nat → Nat)
    (hothers : ∀ t < n, t ≠ j → C t = nonce tape (plainNonce j t))
    (hclose : C j = modSub bnH (othersSum tape j n % q) q) :
    (∑ t ∈ Finset.range n, C t) % q = bnH % q := by
  have hsplit : ∑ t ∈ Finset.range n, C t = othersSum tape j n + C j := by
    have hpoint : ∀ t ∈ Finset.range n,
        C t = (if t = j then 0 else nonce tape (plainNonce j t)) + (if t = j then C j else 0) := by
      intro t ht
      by_cases htj : t = j
      · simp [htj]
      · simp [htj, hothers t (Finset.mem_range.mp ht) htj]
    rw [Finset.sum_congr rfl hpoint, Finset.sum_add_distrib, othersSum,
      Finset.sum_ite_eq' (Finset.range n) j (fun _ => C j), if_pos (Finset.mem_range.mpr hj)]
  rw [hsplit, ← ZMod.natCast_eq_natCast_iff', Nat.cast_add, hclose, modSub_cast _ _ _ hq,
    ZMod.natCast_mod]
  abel

/-- The verifier's loop over arrays that open the signer's commitments. -/
private theorem verify_loop (hE : PrimeOrder E) (hkeys : ∀ i < n, ring.key i ≠ 0)
    (hbase : ∀ i < n, hp (E.point2oct (ring.key i)) = some (ring.base i))
    (hfin : ∀ i < n, (plainCommit tape ring j i).1 ≠ 0 ∧ (plainCommit tape ring j i).2 ≠ 0)
    (txnHash : UInt256) (pSigc pSigr : Bytes)
    (hround : ∀ i < n, plainL E (ring.key i) (beNat (slot EC_SECRET_SIZE pSigc i))
        (beNat (slot EC_SECRET_SIZE pSigr i)) = (plainCommit tape ring j i).1 ∧
      plainR E ring.tag (ring.base i) (beNat (slot EC_SECRET_SIZE pSigc i))
        (beNat (slot EC_SECRET_SIZE pSigr i)) = (plainCommit tape ring j i).2) :
    forRange n (verifyRingSignatureStep E hp ring.tag (ringBytes E ring n) pSigc pSigr)
      (0, uint256Bytes txnHash) =
      .ok ((∑ t ∈ Finset.range n, beNat (slot EC_SECRET_SIZE pSigc t)) % E.order,
        commitBytes tape ring E txnHash j n) := by
  obtain ⟨st, hst, hinv⟩ := forRange_total n
    (verifyRingSignatureStep E hp ring.tag (ringBytes E ring n) pSigc pSigr)
    (fun i st => st = ((∑ t ∈ Finset.range i, beNat (slot EC_SECRET_SIZE pSigc t)) % E.order,
      commitBytes tape ring E txnHash j i)) (0, uint256Bytes txnHash) (by simp [commitBytes]) (by
      intro i hi st hst
      refine ⟨_, (verifyRingSignatureStep_eq_ok_iff hp hE _ _ _ _ _ _ _).mpr
        ⟨ring.key i, ring.base i, ?_, ?_, ?_, ?_, rfl⟩, ?_⟩
      · rw [slot_ringBytes ring n hE hkeys i hi, hE.bn2point_point2oct _ (hkeys i hi)]
      · rw [slot_ringBytes ring n hE hkeys i hi, hbase i hi]
      · rw [(hround i hi).1]
        exact (hfin i hi).1
      · rw [(hround i hi).2]
        exact (hfin i hi).2
      · rw [hst, (hround i hi).1, (hround i hi).2, commitBytes_succ]
        simp [Finset.sum_range_succ])
  rw [hst, hinv]

/-- Completeness of the plain ring signature. With the nonces drawn from the tape and no point at
infinity, `generateRingSignature` returns 0 and `verifyRingSignature` accepts its arrays. -/
theorem generateRingSignature_complete (hE : PrimeOrder E) (hg : ring.g = E.generator)
    (hkeys : ∀ i < n, ring.key i ≠ 0)
    (hbase : ∀ i < n, hp (E.point2oct (ring.key i)) = some (ring.base i)) (hj : j < n)
    (secret : Bytes) (hkey : ring.key j = beNat secret • ring.g)
    (htag : ring.tag = beNat secret • ring.base j) (htag0 : ring.tag ≠ 0) (txnHash : UInt256)
    (hdraw : ∀ m < 2 * n - 1, (secretAt tape m).isOk)
    (hfin : ∀ i < n, (plainCommit tape ring j i).1 ≠ 0 ∧ (plainCommit tape ring j i).2 ≠ 0) :
    ∃ pSigc pSigr,
      generateRingSignature E hash hp tape (E.point2oct ring.tag) txnHash n j secret
        (ringBytes E ring n) = .ok (pSigc, pSigr) ∧
      verifyRingSignature E hash hp (E.point2oct ring.tag) txnHash n (ringBytes E ring n)
        pSigc pSigr = .ok () := by
  have hq : 0 < E.order := hE.prime.pos
  have hdraw' : ∀ m < 2 * n - 1, ∃ d, secretAt tape m = .ok d :=
    fun m hm => exists_ok_of_isOk _ (hdraw m hm)
  obtain ⟨d0, hd0⟩ := hdraw' 0 (by omega)
  have hdraw0 : generateRandomSecret tape 0 = .ok (nonceBytes tape 0, noncePos tape 1) :=
    draw_ok tape 0 d0 hd0
  have hKi := hE.oct2point_point2oct ring.tag htag0
  obtain ⟨st, hloop, hinv⟩ := forRange_total n
    (generateRingSignatureStep E hp tape (nonce tape 0) ring.tag j (ringBytes E ring n))
    (PlainInv tape ring E txnHash n j)
    { pos := noncePos tape 1
      bnSum := 0
      ssCommitHash := uint256Bytes txnHash
      pSigc := List.replicate (EC_SECRET_SIZE * n) 0
      pSigr := List.replicate (EC_SECRET_SIZE * n) 0 }
    ⟨by simp, by simp [othersSum], by simp [commitBytes], filled_zero n j _, filled_zero n j _⟩
    (generate_step hp tape ring n j hE hg hkeys hbase hdraw' hfin txnHash hj)
  let bnT := modSub (bnOfHash (hash st.ssCommitHash) % E.order) st.bnSum E.order
  let bnR := modSub (nonce tape 0) (bnT * beNat secret) E.order
  obtain ⟨pSigc, hsigc, hcj, hci⟩ := filled_close n j _ _ bnT hj
    (lt_of_lt_of_le (modSub_lt _ _ _ hq) hE.order_le) hinv.sigc
  obtain ⟨pSigr, hsigr, hrj, hri⟩ := filled_close n j _ _ bnR hj
    (lt_of_lt_of_le (modSub_lt _ _ _ hq) hE.order_le) hinv.sigr
  refine ⟨pSigc, pSigr, ?_, ?_⟩
  · simp only [generateRingSignature, hdraw0, hKi, orFail, bind, Except.bind]
    rw [show beNat (nonceBytes tape 0) = nonce tape 0 from rfl, hloop]
    simp only [show modSub (bnOfHash (hash st.ssCommitHash) % E.order) st.bnSum E.order = bnT from rfl,
      hsigc, show modSub (nonce tape 0) (bnT * beNat secret) E.order = bnR from rfl, hsigr,
      pure, Except.pure]
  · have hround : ∀ i < n, _ := fun i hi => verify_commit tape ring j hE hg (beNat secret) i hkey htag
      pSigc pSigr (fun hij => ⟨hci i hi hij, hri i hi hij⟩) (by rw [hrj, hcj])
    refine (verifyRingSignature_eq_ok_iff hash hp hE _ _ _ _ _ _).mpr
      ⟨ring.tag, _, _, hKi, verify_loop hp tape ring n j hE hkeys hbase hfin txnHash pSigc pSigr hround, ?_⟩
    have hsum := closing_sum tape n j E.order (bnOfHash (hash st.ssCommitHash) % E.order) hq hj
      (fun t => beNat (slot EC_SECRET_SIZE pSigc t)) (fun t ht htj => by rw [hci t ht htj, nonce])
      (by rw [hcj, ← hinv.sum])
    rw [Nat.mod_mod, hsum, Nat.mod_mod, hinv.commit]

end Plain

instance factPrimeHundredOne : Fact (Nat.Prime 101) := ⟨by decide⟩

/-- Four keys in the residues modulo 101; the one at position 2 has the secret 5. -/
def ring101 : LinkRing (ZMod 101) where
  g := 1
  key i := if i = 2 then 5 else (i : ZMod 101) + 7
  base i := (i : ZMod 101) + 3
  tag := 25

def base101 (pk : Bytes) : Option (ZMod 101) :=
  (List.range 4).findSome? fun i =>
    if pk = (residueCurve 101).point2oct (ring101.key i) then some (ring101.base i) else none

/-- Draws that are the scalars 1, 2, 3, … -/
def tape101 : RandTape := fun i => some (uint256OfBytes (beBytes EC_SECRET_SIZE (i + 1)))

theorem generateRingSignature_complete_residues : ∃ pSigc pSigr,
    generateRingSignature (residueCurve 101) uint256OfBytes base101 tape101
      ((residueCurve 101).point2oct 25) 7 4 2 (beBytes 32 5) (ringBytes (residueCurve 101) ring101 4) =
      .ok (pSigc, pSigr) ∧
    verifyRingSignature (residueCurve 101) uint256OfBytes base101
      ((residueCurve 101).point2oct 25) 7 4 (ringBytes (residueCurve 101) ring101 4) pSigc pSigr =
      .ok () :=
  generateRingSignature_complete uint256OfBytes base101 tape101 ring101
    4 2 (residueCurve_primeOrder 101 (by norm_num [EC_SECRET_SIZE])) rfl (by decide +kernel)
    (by decide +kernel) (by decide) (beBytes 32 5) (by decide +kernel) (by decide +kernel)
    (by decide +kernel) 7 (by decide +kernel) (by decide +kernel)

end AliasWallet
