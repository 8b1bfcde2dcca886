import AliasWallet.Lib.Bytes
import Mathlib.Data.List.Induction

/-!
# Readers of byte strings and the encodings that they invert

A reader takes a value from the front of the bytes. It is exact for an encoding if it reads back what is written and
accepts nothing else: then values and accepted byte strings correspond to each other.
-/

namespace Lib

/-- A reader that may fail; the state is what is left to read. -/
abbrev Reader (α : Type) := StateT Bytes Option α

section Exact

variable {α β : Type}

/-- The reader reads back the encoding of every value in range and accepts nothing else. -/
structure Exact (read : Reader α) (write : α → Bytes) (inRange : α → Prop) : Prop where
  read_write : ∀ a, inRange a → ∀ rest, read.run (write a ++ rest) = some (a, rest)
  write_read : ∀ bs a rest, read.run bs = some (a, rest) → inRange a ∧ bs = write a ++ rest

theorem run_bind_eq_some {read : Reader α} {next : α → Reader β} {bs rest : Bytes} {b : β} :
    (read >>= next).run bs = some (b, rest) ↔
      ∃ a left, read.run bs = some (a, left) ∧ (next a).run left = some (b, rest) := by
  rw [StateT.run_bind, Option.bind_eq_bind, Option.bind_eq_some_iff]
  constructor
  · rintro ⟨⟨a, left⟩, ha, hb⟩
    exact ⟨a, left, ha, hb⟩
  · rintro ⟨a, left, ha, hb⟩
    exact ⟨(a, left), ha, hb⟩

theorem run_bind_of_some {read : Reader α} {next : α → Reader β} {bs left : Bytes} {a : α}
    (h : read.run bs = some (a, left)) : (read >>= next).run bs = (next a).run left := by
  rw [StateT.run_bind, h]
  rfl

theorem run_pure_eq_some {a b : α} {bs rest : Bytes} :
    (pure a : Reader α).run bs = some (b, rest) ↔ a = b ∧ bs = rest := by
  rw [StateT.run_pure, Option.pure_def, Option.some.injEq, Prod.mk.injEq]

/-- Two values one after the other. -/
theorem Exact.pair {read : Reader α} {write : α → Bytes} {inRange : α → Prop} {read' : Reader β} {write' : β → Bytes}
    {inRange' : β → Prop} (h : Exact read write inRange) (h' : Exact read' write' inRange') :
    Exact (do let a ← read; let b ← read'; return (a, b)) (fun p => write p.1 ++ write' p.2)
      (fun p => inRange p.1 ∧ inRange' p.2) where
  read_write := by
    rintro ⟨a, b⟩ ⟨ha, hb⟩ rest
    rw [List.append_assoc, run_bind_of_some (h.read_write a ha _), run_bind_of_some (h'.read_write b hb _)]
    rfl
  write_read := by
    rintro bs ⟨a, b⟩ rest hrun
    obtain ⟨a', left, ha, hrun⟩ := run_bind_eq_some.mp hrun
    obtain ⟨b', left', hb, hrun⟩ := run_bind_eq_some.mp hrun
    obtain ⟨heq, rfl⟩ := run_pure_eq_some.mp hrun
    obtain ⟨rfl, rfl⟩ := Prod.mk.inj heq
    obtain ⟨hrange, rfl⟩ := h.write_read bs a' left ha
    obtain ⟨hrange', rfl⟩ := h'.write_read left b' left' hb
    exact ⟨⟨hrange, hrange'⟩, (List.append_assoc _ _ _).symm⟩

/-- Values in another form. -/
theorem Exact.map {read : Reader α} {write : α → Bytes} {inRange : α → Prop} (h : Exact read write inRange)
    (f : α → β) (g : β → α) (hfg : ∀ b, f (g b) = b) (hgf : ∀ a, inRange a → g (f a) = a) :
    Exact (do let a ← read; return f a) (fun b => write (g b)) (fun b => inRange (g b)) where
  read_write := by
    intro b hb rest
    rw [run_bind_of_some (h.read_write (g b) hb rest), hfg]
    rfl
  write_read := by
    intro bs b rest hrun
    obtain ⟨a, left, ha, hrun⟩ := run_bind_eq_some.mp hrun
    obtain ⟨rfl, rfl⟩ := run_pure_eq_some.mp hrun
    obtain ⟨hrange, rfl⟩ := h.write_read bs a left ha
    rw [hgf a hrange]
    exact ⟨hrange, rfl⟩

/-- A value whose encoding starts with that of another one. -/
theorem Exact.bind {read : Reader α} {write : α → Bytes} {inRange : α → Prop} (h : Exact read write inRange)
    {next : α → Reader β} {write' : β → Bytes} {inRange' : β → Prop} (key : β → α)
    (h' : ∀ a, inRange a → Exact (next a) write' (fun b => inRange' b ∧ key b = a)) :
    Exact (read >>= next) (fun b => write (key b) ++ write' b) (fun b => inRange (key b) ∧ inRange' b) where
  read_write := by
    rintro b ⟨hkey, hb⟩ rest
    rw [List.append_assoc, run_bind_of_some (h.read_write (key b) hkey _)]
    exact (h' (key b) hkey).read_write b ⟨hb, rfl⟩ rest
  write_read := by
    intro bs b rest hrun
    obtain ⟨a, left, ha, hnext⟩ := run_bind_eq_some.mp hrun
    obtain ⟨hrange, rfl⟩ := h.write_read bs a left ha
    obtain ⟨⟨hrange', rfl⟩, rfl⟩ := (h' a hrange).write_read left b rest hnext
    exact ⟨⟨hrange, hrange'⟩, (List.append_assoc _ _ _).symm⟩

/-- The same reader for an encoding and a range that agree with the first. -/
theorem Exact.congr {read : Reader α} {write write' : α → Bytes} {inRange inRange' : α → Prop}
    (h : Exact read write inRange) (hrange : ∀ a, inRange' a ↔ inRange a)
    (hwrite : ∀ a, inRange a → write' a = write a) :
    Exact read write' inRange' where
  read_write := by
    intro a ha rest
    have ha' := (hrange a).mp ha
    rw [hwrite a ha']
    exact h.read_write a ha' rest
  write_read := by
    intro bs a rest hrun
    have hread := h.write_read bs a rest hrun
    rw [hwrite a hread.1]
    exact ⟨(hrange a).mpr hread.1, hread.2⟩

theorem exact_pure (c : α) : Exact (pure c) (fun _ => []) (fun a => a = c) where
  read_write := by
    intro a ha rest
    rw [ha]
    rfl
  write_read := by
    intro bs a rest hrun
    obtain ⟨rfl, rfl⟩ := run_pure_eq_some.mp hrun
    exact ⟨rfl, rfl⟩

/-- Values that a check lets through. -/
theorem Exact.guarded {read : Reader α} {write : α → Bytes} {inRange : α → Prop} (h : Exact read write inRange)
    (p : α → Prop) [DecidablePred p] :
    Exact (do let a ← read; if p a then failure else pure a) write (fun a => inRange a ∧ ¬ p a) where
  read_write := by
    rintro a ⟨ha, hp⟩ rest
    rw [run_bind_of_some (h.read_write a ha rest), if_neg hp]
    rfl
  write_read := by
    intro bs b rest hrun
    obtain ⟨a, left, ha, hrun⟩ := run_bind_eq_some.mp hrun
    by_cases hp : p a
    · rw [if_pos hp] at hrun
      exact absurd hrun (by simp)
    · rw [if_neg hp] at hrun
      obtain ⟨rfl, rfl⟩ := run_pure_eq_some.mp hrun
      obtain ⟨hrange, rfl⟩ := h.write_read bs a left ha
      exact ⟨⟨hrange, hp⟩, rfl⟩

end Exact

section Bytes

/-- A number of bytes, where there are as many. -/
def readBytes (n : Nat) : Reader Bytes := fun bs => if n ≤ bs.length then some (bs.take n, bs.drop n) else none

theorem readBytes_exact (n : Nat) : Exact (readBytes n) (fun bs => bs) (fun bs => bs.length = n) where
  read_write := by
    rintro bs rfl rest
    rw [StateT.run, readBytes, if_pos (by rw [List.length_append]; omega), List.take_left, List.drop_left]
  write_read := by
    intro bs a rest hrun
    rw [StateT.run, readBytes] at hrun
    split at hrun
    · obtain ⟨rfl, rfl⟩ := Prod.mk.inj (Option.some.inj hrun)
      exact ⟨by rw [List.length_take]; omega, (List.take_append_drop n bs).symm⟩
    · exact absurd hrun (by simp)

theorem readBytes_add (a b : Nat) : readBytes (a + b) = do
    let x ← readBytes a
    let y ← readBytes b
    return x ++ y := by
  funext bs
  change readBytes (a + b) bs = (readBytes a bs).bind fun p => (readBytes b p.2).bind fun q => some (p.1 ++ q.1, q.2)
  rw [readBytes, readBytes]
  by_cases ha : a ≤ bs.length
  · rw [if_pos ha, Option.bind_some, readBytes, List.length_drop]
    by_cases hb : b ≤ bs.length - a
    · rw [if_pos hb, if_pos (by omega), Option.bind_some, List.take_add, List.drop_drop]
    · rw [if_neg hb, if_neg (by omega), Option.bind_none]
  · rw [if_neg ha, if_neg (by omega), Option.bind_none]

variable {α : Type}

/-- A number of `w` bytes, the low byte first. -/
def readNat (w : Nat) : Reader Nat := do
  let bs ← readBytes w
  return leNat bs

theorem readNat_exact (w : Nat) : Exact (readNat w) (leBytes w) (fun n => n < 256 ^ w) := by
  constructor
  · intro n hn rest
    rw [readNat, run_bind_of_some ((readBytes_exact w).read_write (leBytes w n) (leBytes_length w n) rest),
      leNat_leBytes_of_lt w n hn]
    rfl
  · intro bs n rest hrun
    obtain ⟨x, left, hx, hrun⟩ := run_bind_eq_some.mp hrun
    obtain ⟨rfl, rfl⟩ := run_pure_eq_some.mp hrun
    obtain ⟨hlen, rfl⟩ := (readBytes_exact w).write_read bs x left hx
    rw [← hlen, leBytes_leNat]
    exact ⟨leNat_lt x, rfl⟩

/-- A value that is written as such a number. -/
def readFixed (w : Nat) (ofNat : Nat → α) : Reader α := do
  let n ← readNat w
  return ofNat n

theorem readFixed_exact (w : Nat) (ofNat : Nat → α) (toNat : α → Nat) (hlt : ∀ a, toNat a < 256 ^ w)
    (hof : ∀ a, ofNat (toNat a) = a) (hto : ∀ n, n < 256 ^ w → toNat (ofNat n) = n) :
    Exact (readFixed w ofNat) (fun a => leBytes w (toNat a)) (fun _ => True) :=
  ((readNat_exact w).map ofNat toNat hof hto).congr (fun a => (true_iff _).mpr (hlt a)) (fun _ _ => rfl)

end Bytes

section Lists

variable {α : Type}

/-- A number of values one after the other. -/
def readMany (read : Reader α) : Nat → Reader (List α)
  | 0 => return []
  | n + 1 => do
    let a ← read
    let l ← readMany read n
    return a :: l

theorem readMany_exact {read : Reader α} {write : α → Bytes} {inRange : α → Prop} (h : Exact read write inRange)
    (n : Nat) : Exact (readMany read n) (fun l => l.flatMap write) (fun l => (∀ a ∈ l, inRange a) ∧ l.length = n) := by
  induction n with
  | zero =>
    constructor
    · rintro l ⟨-, hlen⟩ rest
      rw [List.length_eq_zero_iff.mp hlen]
      rfl
    · intro bs l rest hrun
      obtain ⟨rfl, rfl⟩ := run_pure_eq_some.mp hrun
      exact ⟨⟨by simp, rfl⟩, rfl⟩
  | succ n ih =>
    constructor
    · rintro l ⟨hl, hlen⟩ rest
      cases l with
      | nil => exact absurd hlen (by simp)
      | cons a l =>
        rw [List.flatMap_cons, List.append_assoc, readMany,
          run_bind_of_some (h.read_write a (hl a List.mem_cons_self) _),
          run_bind_of_some (ih.read_write l ⟨fun b hb => hl b (List.mem_cons_of_mem _ hb), by simpa using hlen⟩ rest)]
        rfl
    · intro bs l rest hrun
      obtain ⟨a, left, ha, hrun⟩ := run_bind_eq_some.mp hrun
      obtain ⟨l', left', hl', hrun⟩ := run_bind_eq_some.mp hrun
      obtain ⟨rfl, rfl⟩ := run_pure_eq_some.mp hrun
      obtain ⟨hrange, rfl⟩ := h.write_read bs a left ha
      obtain ⟨⟨hall, hlen⟩, rfl⟩ := ih.write_read left l' left' hl'
      refine ⟨⟨?_, by rw [List.length_cons, hlen]⟩, by rw [List.flatMap_cons, List.append_assoc]⟩
      intro b hb
      rcases List.mem_cons.mp hb with rfl | hb
      · exact hrange
      · exact hall b hb

theorem readMany_add (read : Reader α) (a b : Nat) : readMany read (a + b) = do
    let x ← readMany read a
    let y ← readMany read b
    return x ++ y := by
  induction a with
  | zero => simp [readMany]
  | succ a ih =>
    rw [Nat.succ_add, readMany, readMany, ih]
    simp

/-- A loop that reads up to `blk` values at a time. -/
def readBlocks (readN : Nat → Reader (List α)) (blk nSize : Nat) : Nat → Nat → Reader (List α)
  | 0, _ => return []
  | rounds + 1, i =>
    if i < nSize then do
      let nMid := min (i + blk) nSize
      let v ← readN (nMid - i)
      let rest ← readBlocks readN blk nSize rounds nMid
      return v ++ rest
    else return []

/-- Blocks are read as the values are read at once. -/
theorem readBlocks_eq {readN : Nat → Reader (List α)} (hzero : readN 0 = pure [])
    (hadd : ∀ a b, readN (a + b) = do
      let x ← readN a
      let y ← readN b
      return x ++ y)
    {blk nSize : Nat} (hblk : 0 < blk) (rounds i : Nat) (hi : i ≤ nSize) (hrounds : nSize ≤ i + rounds) :
    readBlocks readN blk nSize rounds i = readN (nSize - i) := by
  induction rounds generalizing i with
  | zero =>
    have hdone : nSize - i = 0 := by omega
    rw [hdone, hzero]
    rfl
  | succ rounds ih =>
    rw [readBlocks]
    by_cases hlt : i < nSize
    · have hsum : nSize - i = (min (i + blk) nSize - i) + (nSize - min (i + blk) nSize) := by omega
      rw [if_pos hlt, hsum, hadd]
      dsimp only
      rw [ih (min (i + blk) nSize) (min_le_right _ _) (by omega)]
    · have hdone : nSize - i = 0 := by omega
      rw [if_neg hlt, hdone, hzero]

/-- A loop that reads a value in each round runs over the values that were written. -/
theorem foldlM_range_run {σ : Type} {step : σ → Nat → Reader σ} {write : α → Bytes} {next : σ → Nat → α → σ}
    {l : List α} (h : ∀ n a, l[n]? = some a → ∀ s rest, (step s n).run (write a ++ rest) = some (next s n a, rest))
    (s : σ) (rest : Bytes) :
    ((List.range l.length).foldlM step s).run (l.flatMap write ++ rest) =
      some (l.zipIdx.foldl (fun s a => next s a.2 a.1) s, rest) := by
  induction l using List.reverseRecOn generalizing rest with
  | nil => rfl
  | append_singleton l a ih =>
    have hbefore : ∀ n x, l[n]? = some x →
        ∀ s rest, (step s n).run (write x ++ rest) = some (next s n x, rest) := by
      intro n x hx
      exact h n x ((List.getElem?_append_left (List.getElem?_eq_some_iff.mp hx).1).trans hx)
    have hlast := h l.length a (by simp)
    rw [List.length_append, List.length_singleton, List.range_succ, List.foldlM_append, List.flatMap_append,
      List.append_assoc, run_bind_of_some (ih hbefore _), List.foldlM_cons, List.flatMap_singleton,
      run_bind_of_some (hlast _ rest), List.zipIdx_append, List.foldl_append]
    simp

end Lists

end Lib
