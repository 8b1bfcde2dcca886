import Mathlib.Logic.Function.Basic

/-!
# Maps and pending changes over them

Maps as functions to `Option`, and a batch of writes and erasures that is read through before the map
below, and applied or dropped as a whole.
-/

namespace Lib

variable {K V : Type}

/-- Every entry of the map has the property. -/
def AllEntries (P : K → V → Prop) (m : K → Option V) : Prop := ∀ k v, m k = some v → P k v

theorem AllEntries.update [DecidableEq K] {P : K → V → Prop} {m : K → Option V} (hm : AllEntries P m)
    (k : K) {v : V} (hv : P k v) : AllEntries P (Function.update m k (some v)) := by
  intro k' v' h
  by_cases hk : k' = k
  · subst hk
    rw [Function.update_self, Option.some.injEq] at h
    rwa [← h]
  · rw [Function.update_of_ne hk] at h
    exact hm k' v' h

theorem AllEntries.none {P : K → V → Prop} : AllEntries P (fun _ => none) := by
  intro k v h
  cases h

/-- What a batch says of a key: nothing, an erasure, or a value. -/
abbrev Patch (K V : Type) := K → Option (Option V)

namespace Patch

def empty : Patch K V := fun _ => none

/-- Reading a key through the batch. -/
def read (b : Patch K V) (m : K → Option V) (k : K) : Option V := (b k).getD (m k)

@[simp] theorem read_empty (m : K → Option V) : read empty m = m := rfl

variable [DecidableEq K]

def write (b : Patch K V) (k : K) (v : V) : Patch K V := Function.update b k (some (some v))

def erase (b : Patch K V) (k : K) : Patch K V := Function.update b k (some none)

/-- All values of `q` written at once. -/
def writeAll (b : Patch K V) (q : K → Option V) : Patch K V := fun k =>
  match q k with
  | some v => some (some v)
  | none => b k

theorem read_write (b : Patch K V) (m : K → Option V) (k : K) (v : V) :
    read (b.write k v) m = Function.update (read b m) k (some v) := by
  funext k'
  by_cases hk : k' = k
  · subst hk
    simp [read, write]
  · simp [read, write, hk]

theorem read_erase (b : Patch K V) (m : K → Option V) (k : K) :
    read (b.erase k) m = Function.update (read b m) k none := by
  funext k'
  by_cases hk : k' = k
  · subst hk
    simp [read, erase]
  · simp [read, erase, hk]

omit [DecidableEq K] in
theorem read_writeAll (b : Patch K V) (m q : K → Option V) (k : K) :
    read (b.writeAll q) m k = (q k).or (read b m k) := by
  cases hq : q k with
  | none => simp [read, writeAll, hq]
  | some v => simp [read, writeAll, hq]

end Patch

end Lib
