import Mathlib.Tactic.Basic
import Mathlib.Order.Basic

/-!
# Counted loops that may fail

`for (i = 0; i < n; ++i)` over a state, leaving at the first failure, and the trace of states of
a loop that runs to its end.
-/

namespace Lib

universe u v

variable {ε : Type v} {σ α β : Type u}

/-- The state after `n` rounds, or the first failure. -/
def forRange (n : Nat) (body : Nat → σ → Except ε σ) (s : σ) : Except ε σ :=
  match n with
  | 0 => .ok s
  | n + 1 => forRange n body s >>= body n

theorem ok_bind (a : α) (f : α → Except ε β) : Except.ok a >>= f = f a := rfl

theorem error_bind (e : ε) (f : α → Except ε β) : Except.error e >>= f = Except.error e := rfl

theorem bind_eq_ok_iff (x : Except ε α) (f : α → Except ε β) (b : β) :
    x >>= f = .ok b ↔ ∃ a, x = .ok a ∧ f a = .ok b := by
  cases x with
  | error e => simp [bind, Except.bind]
  | ok a => simp [bind, Except.bind]

theorem toOption_bind (x : Except ε α) (f : α → Except ε β) :
    (x >>= f).toOption = x.toOption.bind fun a => (f a).toOption := by
  cases x with
  | error e => rfl
  | ok a => rfl

theorem mapM_ok {f : α → Except ε β} {g : α → β} {l : List α} (h : ∀ a ∈ l, f a = .ok (g a)) :
    l.mapM f = .ok (l.map g) := by
  induction l with
  | nil => rfl
  | cons a l ih =>
    rw [List.mapM_cons, h a List.mem_cons_self, ih fun a ha => h a (List.mem_cons_of_mem _ ha)]
    rfl

/-- A loop whose rounds can stop in one way only stops in that way, if one of them does. -/
theorem mapM_error {f : α → Except ε β} {l : List α} {e : ε} (h : ∀ a ∈ l, f a = .error e ∨ ∃ b, f a = .ok b)
    (hbad : ∃ a ∈ l, f a = .error e) : l.mapM f = .error e := by
  induction l with
  | nil => exact absurd hbad (by simp)
  | cons a l ih =>
    rw [List.mapM_cons]
    cases h a List.mem_cons_self with
    | inl herror => rw [herror]; rfl
    | inr hok =>
      obtain ⟨b, hb⟩ := hok
      obtain ⟨x, hx, hxe⟩ := hbad
      have hxl : x ∈ l := by
        rw [List.mem_cons] at hx
        exact hx.resolve_left fun heq => by simp [heq, hb] at hxe
      rw [hb, ih (fun a ha => h a (List.mem_cons_of_mem _ ha)) ⟨x, hxl, hxe⟩]
      rfl

theorem forRange_pred (n : Nat) (hn : 0 < n) (body : Nat → σ → Except ε σ) (s : σ) :
    forRange n body s = forRange (n - 1) body s >>= body (n - 1) := by
  cases n with
  | zero => omega
  | succ n => rfl

/-- A loop ends well exactly when its states form a trace of successful rounds. -/
theorem forRange_eq_ok_iff (n : Nat) (body : Nat → σ → Except ε σ) (s s' : σ) :
    forRange n body s = .ok s' ↔
      ∃ f : Nat → σ, f 0 = s ∧ f n = s' ∧ ∀ i < n, body i (f i) = .ok (f (i + 1)) := by
  induction n generalizing s' with
  | zero =>
    constructor
    · intro h
      have hs : s = s' := by simpa [forRange] using h
      exact ⟨fun _ => s, rfl, hs, by simp⟩
    · rintro ⟨f, h0, hn, -⟩
      rw [forRange, ← h0, hn]
  | succ n ih =>
    rw [forRange, bind_eq_ok_iff]
    constructor
    · rintro ⟨a, ha, hb⟩
      obtain ⟨f, h0, hn, hstep⟩ := (ih a).mp ha
      have hout : ¬ n + 1 ≤ n := by omega
      refine ⟨fun i => if i ≤ n then f i else s', by simp [h0], by simp [hout], ?_⟩
      intro i hi
      rcases Nat.lt_or_ge i n with hlt | hge
      · have hle : i ≤ n := Nat.le_of_lt hlt
        have hle' : i + 1 ≤ n := hlt
        simpa [hle, hle'] using hstep i hlt
      · obtain rfl : i = n := by omega
        simpa [hn, hout] using hb
    · rintro ⟨f, h0, hn, hstep⟩
      refine ⟨f n, (ih (f n)).mpr ⟨f, h0, rfl, fun i hi => hstep i (by omega)⟩, ?_⟩
      rw [← hn]
      exact hstep n (by omega)

/-- Total correctness: a loop whose rounds keep an invariant ends well in it. -/
theorem forRange_total (n : Nat) (body : Nat → σ → Except ε σ) (Inv : Nat → σ → Prop) (s : σ)
    (hinit : Inv 0 s) (hstep : ∀ i < n, ∀ t, Inv i t → ∃ t', body i t = .ok t' ∧ Inv (i + 1) t') :
    ∃ s', forRange n body s = .ok s' ∧ Inv n s' := by
  induction n with
  | zero => exact ⟨s, rfl, hinit⟩
  | succ n ih =>
    obtain ⟨t, ht, hinv⟩ := ih (fun i hi => hstep i (by omega))
    obtain ⟨t', hbody, hinv'⟩ := hstep n (by omega) t hinv
    refine ⟨t', ?_, hinv'⟩
    rw [forRange, ht]
    exact hbody

/-- Rotating a closed chain of `n` steps: started at position `j + 1` it is closed at `0` too. -/
theorem rotate_chain (step : Nat → α → Except ε α) (n j : Nat) (hj : j < n) (C : Nat → α)
    (hC : ∀ t < n, step ((j + 1 + t) % n) (C t) = .ok (C ((t + 1) % n))) (p : Nat) (hp : p < n) :
    step p (C ((p + (n - 1 - j)) % n)) = .ok (C ((p + 1 + (n - 1 - j)) % n)) := by
  have hlt : (p + (n - 1 - j)) % n < n := Nat.mod_lt _ (by omega)
  have hpos : (j + 1 + (p + (n - 1 - j)) % n) % n = p := by
    rw [Nat.add_mod_mod, show j + 1 + (p + (n - 1 - j)) = p + n by omega, Nat.add_mod_right,
      Nat.mod_eq_of_lt hp]
  have hnext : ((p + (n - 1 - j)) % n + 1) % n = (p + 1 + (n - 1 - j)) % n := by
    rw [Nat.mod_add_mod]
    congr 1
    omega
  have h := hC _ hlt
  rwa [hpos, hnext] at h

end Lib
