import AliasWallet.Lib.PrimeGroup

/-!
# Linkable rings

A ring of keys in a commutative group, each with its own second base, and one tag. A round at
position `i` with challenge `c` and response `s` commits to the pair
`(s • g + c • key i, s • base i + c • tag)`.
-/

namespace Lib

/-- The public data of a linkable ring. -/
structure LinkRing (G : Type*) where
  g : G
  key : Nat → G
  base : Nat → G
  tag : G

namespace LinkRing

variable {G : Type*} [AddCommGroup G] (R : LinkRing G)

def keyPoint (i c s : Nat) : G := s • R.g + c • R.key i

def tagPoint (i c s : Nat) : G := s • R.base i + c • R.tag

/-- The signer at position `j` closes the round: the response `a - c * x` opens the commitment
`(a • g, a • base j)` under any challenge `c`. -/
theorem close (q : Nat) (hcard : Nat.card G = q) (hq : 0 < q) (j a c x : Nat)
    (hkey : R.key j = x • R.g) (htag : R.tag = x • R.base j) :
    R.keyPoint j c (modSub a (c * x) q) = a • R.g ∧
      R.tagPoint j c (modSub a (c * x) q) = a • R.base j := by
  constructor
  · rw [keyPoint, hkey, add_comm, opening_close q hcard hq]
  · rw [tagPoint, htag, add_comm, opening_close q hcard hq]

/-- Two rounds at one position with the same commitments and different challenges reveal one
scalar that is the logarithm of the key and of the tag. -/
theorem extract (q : Nat) [Fact q.Prime] (hcard : Nat.card G = q) (i c s c' s' : Nat)
    (hkey : R.keyPoint i c s = R.keyPoint i c' s') (htag : R.tagPoint i c s = R.tagPoint i c' s')
    (hne : c % q ≠ c' % q) :
    R.key i = extractLog q c s c' s' • R.g ∧ R.tag = extractLog q c s c' s' • R.base i := by
  rw [keyPoint, keyPoint, add_comm, add_comm (s' • R.g)] at hkey
  rw [tagPoint, tagPoint, add_comm, add_comm (s' • R.base i)] at htag
  exact ⟨extractLog_spec q hcard c s c' s' _ _ hkey hne,
    extractLog_spec q hcard c s c' s' _ _ htag hne⟩

end LinkRing

end Lib
