import AliasWallet.Core.BaseText

/-!
# Base 64 and base 32: round trips

Encoder and decoder keep one relation between what came in, what went out and the bits that wait. Where it holds of
both, the decoder gives back what was encoded, and what it accepts is what would be encoded.
-/

namespace AliasWallet
open Lib

namespace BaseText

variable (f : BaseText)

def charOf (d : Nat) : UInt8 := f.alphabet.getD d 0

def numberOf (c : UInt8) : Nat := (tableAt f.table c).toNat

/-- The bits that wait in a phase of the encoder. -/
def carried (mode : Nat) : Nat := 8 * mode % f.width

/-- The bits that wait in a phase of the decoder. -/
def waiting (mode : Nat) : Nat := f.width * mode % 8

/-- The characters that a decoder consumes. -/
def consumed (p : Bytes) : Bytes := p.takeWhile fun c => decide (tableAt f.table c ≠ -1)

/-- The padding that a decoder requires behind `n` characters. -/
def padding (n : Nat) : Bytes := List.replicate ((f.required (n % f.decodeModes)).getD 0) padChar

/-- The encoder has read `xs`. -/
structure Encoding (xs : List Nat) (st : EncodeState) : Prop where
  mode_lt : st.mode < f.encodeModes
  groups : ∃ ys left, Regrouped 8 f.width xs ys (f.carried st.mode) left ∧ st.strRet = ys.map f.charOf ∧
    (st.mode ≠ 0 → st.left = left <<< (f.width - f.carried st.mode))

/-- The decoder has read `xs`. -/
structure Decoding (xs : List Nat) (st : DecodeState) : Prop where
  mode_eq : st.mode = xs.length % f.decodeModes
  groups : ∃ left, Regrouped f.width 8 xs (st.vchRet.map UInt8.toNat) (f.waiting st.mode) left ∧
    (st.mode ≠ 0 → st.left = left)

/-- What a format must be for its texts to be read back; `fold` is what the decoder overlooks in a character. -/
structure Lawful (fold : UInt8 → UInt8) : Prop where
  width_pos : 0 < f.width
  width_lt : f.width < 8
  table_zero : tableAt f.table 0 = -1
  table_pad : tableAt f.table padChar = -1
  table_charOf : ∀ d < 2 ^ f.width, tableAt f.table (f.charOf d) = d
  charOf_numberOf : ∀ c, tableAt f.table c ≠ -1 → f.numberOf c < 2 ^ f.width ∧ f.charOf (f.numberOf c) = fold c
  encodeStep : ∀ {xs st x}, f.Encoding xs st → x < 2 ^ 8 → f.Encoding (xs ++ [x]) (f.encodeStep st x)
  decodeStep : ∀ {xs st d}, f.Decoding xs st → d < 2 ^ f.width → f.Decoding (xs ++ [d]) (f.decodeStep st d)
  encodeModes_pos : 0 < f.encodeModes
  decodeModes_pos : 0 < f.decodeModes
  carried_pos : ∀ mode < f.encodeModes, mode ≠ 0 → 0 < f.carried mode
  waiting_pos : ∀ mode < f.decodeModes, mode ≠ 0 → 0 < f.waiting mode
  required_zero : f.required 0 = none
  /-- Where a text may end, fewer bits wait than a character has. -/
  required_waiting : ∀ mode < f.decodeModes, (f.required mode).isSome → f.waiting mode < f.width
  /-- Both sides mean the same padding. -/
  nPadding_eq : ∀ mode < f.encodeModes, mode ≠ 0 → ∀ mode' < f.decodeModes,
    f.waiting mode' = f.width - f.carried mode → f.required mode' = some (f.nPadding mode)

section Reads

variable {table : List Int} {p : Bytes} {i n : Nat}

theorem charAt_eq (hi : i ≤ p.length) : charAt p i = .ok ((p.drop i).headD 0) := by
  have hget : (p ++ [0])[i]? = some ((p.drop i).headD 0) := by
    by_cases hlt : i < p.length
    · rw [List.getElem?_append_left hlt, List.drop_eq_getElem_cons hlt, List.headD_cons, List.getElem?_eq_getElem hlt]
    · have hend : i = p.length := by omega
      rw [hend, List.drop_length, List.getElem?_append_right (Nat.le_refl _), Nat.sub_self]
      rfl
  rw [charAt, hget]

/-- The look ahead ends at the terminator at the latest. -/
theorem paddingMissing_eq (hi : i ≤ p.length) :
    ∃ fMissing, paddingMissing table p i n = .ok fMissing ∧
      (fMissing = false ↔ List.replicate n padChar <+: p.drop i ∧ tableAt table ((p.drop (i + n)).headD 0) = -1) := by
  induction n generalizing i with
  | zero =>
    refine ⟨_, by rw [paddingMissing, charAt_eq hi]; rfl, ?_⟩
    simp
  | succ n ih =>
    rw [paddingMissing, charAt_eq hi]
    cases hdrop : p.drop i with
    | nil =>
      refine ⟨true, rfl, ?_⟩
      simp [List.replicate_succ]
    | cons c rest =>
      have hlt : i < p.length := by
        have hlen := congrArg List.length hdrop
        rw [List.length_drop, List.length_cons] at hlen
        omega
      by_cases hc : c = padChar
      · obtain ⟨fMissing, hread, hiff⟩ := ih (i := i + 1) hlt
        have hrest : p.drop (i + 1) = rest := by
          rw [← List.drop_drop, hdrop]
          rfl
        refine ⟨fMissing, ?_, ?_⟩
        · rw [hc]
          exact hread
        · rw [hiff, hrest, hc, List.replicate_succ, List.cons_prefix_cons, Nat.add_right_comm, ← Nat.add_assoc]
          simp
      · refine ⟨true, ?_, ?_⟩
        · show (if c ≠ padChar then (.ok true : Except PastEnd Bool) else _) = _
          rw [if_pos hc]
        · rw [List.replicate_succ, List.cons_prefix_cons]
          simp [Ne.symm hc]

end Reads

namespace Lawful

variable {f} {fold : UInt8 → UInt8} {b p : Bytes}

theorem encoding_foldl (h : f.Lawful fold) (b : Bytes) {xs : List Nat} {st : EncodeState} (hst : f.Encoding xs st) :
    f.Encoding (xs ++ b.map UInt8.toNat) (b.foldl (fun st enc => f.encodeStep st enc.toNat) st) := by
  induction b generalizing xs st with
  | nil => simpa using hst
  | cons enc b ih =>
    have hnext := ih (h.encodeStep hst enc.toNat_lt)
    rwa [List.append_assoc] at hnext

/-- A text is the characters of some numbers and the padding that the decoder requires behind them. -/
theorem encode_spec (h : f.Lawful fold) (b : Bytes) :
    ∃ ds count n, f.encode b = ds.map f.charOf ++ List.replicate n padChar ∧
      Regrouped f.width 8 ds (b.map UInt8.toNat) count 0 ∧ (∀ d ∈ ds, d < 2 ^ f.width) ∧ count < f.width ∧
      ∀ mode < f.decodeModes, f.waiting mode = count →
        if mode = 0 then n = 0 else f.required mode = some n := by
  have hbytes : ∀ x ∈ b.map UInt8.toNat, x < 2 ^ 8 := by
    intro x hx
    obtain ⟨c, -, rfl⟩ := List.mem_map.mp hx
    exact c.toNat_lt
  have hstart : f.Encoding [] ⟨0, 0, []⟩ := ⟨h.encodeModes_pos, [], 0, Regrouped.nil, rfl, fun hne => absurd rfl hne⟩
  obtain ⟨hmode, ys, left, hgroups, hstr, hleft⟩ := h.encoding_foldl b hstart
  rw [List.nil_append] at hgroups
  rw [encode]
  generalize b.foldl (fun st enc => f.encodeStep st enc.toNat) ⟨0, 0, []⟩ = st at hmode hgroups hstr hleft ⊢
  by_cases hzero : st.mode = 0
  · rw [hzero] at hgroups
    refine ⟨ys, 0, 0, by simp [hzero, hstr], hgroups.flip hbytes, hgroups.small, h.width_pos, ?_⟩
    intro mode hlt hwaiting
    rw [if_pos]
    by_contra hne
    exact (h.waiting_pos mode hlt hne).ne' hwaiting
  · have hcarried := h.carried_pos st.mode hmode hzero
    have hlt : f.carried st.mode < f.width := Nat.mod_lt _ h.width_pos
    have hpad := hgroups.pad hlt.le hbytes
    have hsmall : ∀ d ∈ ys ++ [left * 2 ^ (f.width - f.carried st.mode)], d < 2 ^ f.width := by
      apply forall_mem_concat hgroups.small
      rw [← Nat.sub_add_cancel hlt.le, Nat.pow_add, Nat.add_sub_cancel, Nat.mul_comm]
      exact Nat.mul_lt_mul_of_pos_left hgroups.left_lt (Nat.two_pow_pos _)
    refine ⟨_, _, f.nPadding st.mode, ?_, hpad, hsmall, by omega, ?_⟩
    · rw [if_neg hzero, hstr, hleft hzero, Nat.shiftLeft_eq, List.map_append, List.append_assoc]
      rfl
    · intro mode hlt' hwaiting
      rw [if_neg]
      · exact h.nPadding_eq st.mode hmode hzero mode hlt' hwaiting
      · rintro rfl
        rw [waiting, Nat.mul_zero] at hwaiting
        omega

/-- The loop of the decoder stops behind the characters of the alphabet. -/
theorem decodeChars_eq (h : f.Lawful fold) (p : Bytes) {xs : List Nat} {st : DecodeState} (hst : f.Decoding xs st) :
    ∃ st', f.decodeChars p st = .ok (st', p.drop (f.consumed p).length) ∧
      f.Decoding (xs ++ (f.consumed p).map f.numberOf) st' := by
  induction p generalizing xs st with
  | nil => exact ⟨st, if_pos h.table_zero, by simpa [consumed] using hst⟩
  | cons c p ih =>
    by_cases hdec : tableAt f.table c = -1
    · exact ⟨st, by simp [decodeChars, consumed, hdec], by simpa [consumed, hdec] using hst⟩
    · obtain ⟨st', hchars, hst'⟩ := ih (h.decodeStep hst (h.charOf_numberOf c hdec).1)
      have hconsumed : f.consumed (c :: p) = c :: f.consumed p := List.takeWhile_cons_of_pos (by simpa using hdec)
      refine ⟨st', ?_, ?_⟩
      · rw [decodeChars, hconsumed]
        simpa [hdec, numberOf] using hchars
      · rw [hconsumed]
        simpa using hst'

theorem isInvalid_eq (st : DecodeState) (p : Bytes) :
    ∃ fInvalid, f.isInvalid st p = .ok fInvalid ∧
      (fInvalid = false ↔ st.mode = 0 ∨ ∃ n, f.required st.mode = some n ∧ st.left = 0 ∧
        List.replicate n padChar <+: p ∧ tableAt f.table ((p.drop n).headD 0) = -1) := by
  rw [isInvalid]
  by_cases hmode : st.mode = 0
  · rw [if_pos hmode]
    exact ⟨false, rfl, by simp [hmode]⟩
  rw [if_neg hmode]
  cases hrequired : f.required st.mode with
  | none => exact ⟨true, rfl, by simp [hmode]⟩
  | some n =>
    by_cases hleft : st.left = 0
    · obtain ⟨fMissing, hread, hiff⟩ := @paddingMissing_eq f.table p 0 n (Nat.zero_le p.length)
      refine ⟨fMissing, by simpa [hleft] using hread, ?_⟩
      rw [hiff]
      simp [hmode, hleft]
    · exact ⟨true, by simp [hleft], by simp [hmode, hleft]⟩

/-- No read of the decoder is behind the terminator. -/
theorem decode_eq (h : f.Lawful fold) (p : Bytes) :
    ∃ st fInvalid, f.Decoding ((f.consumed p).map f.numberOf) st ∧
      (∀ pfInvalid, f.decode p pfInvalid = .ok (st.vchRet, pfInvalid.map fun _ => fInvalid)) ∧
      (fInvalid = false ↔ st.mode = 0 ∨ ∃ n, f.required st.mode = some n ∧ st.left = 0 ∧
        List.replicate n padChar <+: p.drop (f.consumed p).length ∧
        tableAt f.table (((p.drop (f.consumed p).length).drop n).headD 0) = -1) := by
  have hstart : f.Decoding [] ⟨0, 0, []⟩ := ⟨(Nat.zero_mod _).symm, 0, Regrouped.nil, fun hne => absurd rfl hne⟩
  obtain ⟨st, hchars, hst⟩ := h.decodeChars_eq p hstart
  obtain ⟨fInvalid, hinvalid, hiff⟩ := isInvalid_eq (f := f) st (p.drop (f.consumed p).length)
  refine ⟨st, fInvalid, hst, fun pfInvalid => ?_, hiff⟩
  cases pfInvalid with
  | none => simp [decode, hchars, bind, Except.bind, pure, Except.pure]
  | some g => simp [decode, hchars, hinvalid, bind, Except.bind, pure, Except.pure]

theorem map_toNat_injective : Function.Injective (List.map UInt8.toNat) :=
  List.map_injective_iff.mpr fun _ _ heq => UInt8.toNat_inj.mp heq

theorem decode_encode (h : f.Lawful fold) (b : Bytes) (g : Bool) :
    f.decode (f.encode b) (some g) = .ok (b, some false) := by
  obtain ⟨ds, count, n, hencode, hgroups, hsmall, hcount, hpadding⟩ := h.encode_spec b
  have hchars : ∀ c ∈ ds.map f.charOf, tableAt f.table c ≠ -1 := by
    intro c hc
    obtain ⟨d, hd, rfl⟩ := List.mem_map.mp hc
    rw [h.table_charOf d (hsmall d hd)]
    omega
  have hstop : (List.replicate n padChar).takeWhile (fun c => decide (tableAt f.table c ≠ -1)) = [] := by
    cases n with
    | zero => rfl
    | succ n => simp [List.replicate_succ, h.table_pad]
  have hconsumed : f.consumed (f.encode b) = ds.map f.charOf := by
    rw [consumed, hencode, List.takeWhile_append_of_pos (fun c hc => decide_eq_true (hchars c hc)), hstop,
      List.append_nil]
  have hnumbers : (ds.map f.charOf).map f.numberOf = ds := by
    rw [List.map_map, List.map_congr_left (g := id), List.map_id]
    intro d hd
    show (tableAt f.table (f.charOf d)).toNat = d
    rw [h.table_charOf d (hsmall d hd), Int.toNat_natCast]
  obtain ⟨st, fInvalid, ⟨hmode, left, hread, hleft⟩, hdecode, hiff⟩ := h.decode_eq (f.encode b)
  rw [hconsumed, hnumbers] at hmode hread
  have hwaiting : f.waiting st.mode < 8 := Nat.mod_lt _ (by decide)
  obtain ⟨hbytes, hcounts, hzero⟩ := hread.right_unique hgroups hwaiting (hcount.trans h.width_lt)
  have hvch : st.vchRet = b := map_toNat_injective hbytes
  have hlt : st.mode < f.decodeModes := hmode ▸ Nat.mod_lt _ h.decodeModes_pos
  have hpad := hpadding st.mode hlt hcounts
  have hvalid : fInvalid = false := by
    rw [hiff]
    by_cases hstart : st.mode = 0
    · exact .inl hstart
    · rw [if_neg hstart] at hpad
      refine .inr ⟨n, hpad, (hleft hstart).trans hzero, ?_, ?_⟩
      · rw [hconsumed, hencode, List.drop_left]
      · rw [hconsumed, hencode, List.drop_left, List.drop_of_length_le (by simp)]
        exact h.table_zero
  rw [hdecode, hvch, hvalid]
  rfl

/-- What the decoder accepts is what would be encoded. -/
theorem encode_decode (h : f.Lawful fold) {vch : Bytes} {g : Bool}
    (hdecode : f.decode p (some g) = .ok (vch, some false)) :
    f.encode vch = (f.consumed p).map fold ++ f.padding (f.consumed p).length ∧
      f.consumed p ++ f.padding (f.consumed p).length <+: p := by
  obtain ⟨st, fInvalid, ⟨hmode, left, hread, hleft⟩, hdecode', hiff⟩ := h.decode_eq p
  rw [hdecode'] at hdecode
  obtain ⟨rfl, hfalse⟩ := Prod.mk.inj (Except.ok.inj hdecode)
  have hvalid := hiff.mp (Option.some.inj hfalse)
  have hlt : st.mode < f.decodeModes := hmode ▸ Nat.mod_lt _ h.decodeModes_pos
  rw [List.length_map] at hmode
  have hends : left = 0 ∧ f.waiting st.mode < f.width := by
    cases hvalid with
    | inl hzero =>
      have hnone : f.waiting st.mode = 0 := by rw [waiting, hzero, Nat.mul_zero, Nat.zero_mod]
      have hlow := hread.left_lt
      rw [hnone] at hlow ⊢
      exact ⟨Nat.lt_one_iff.mp hlow, h.width_pos⟩
    | inr hvalid =>
      obtain ⟨n, hrequired, hzero, -, -⟩ := hvalid
      have hne : st.mode ≠ 0 := by
        intro hmode0
        rw [hmode0, h.required_zero] at hrequired
        cases hrequired
      exact ⟨(hleft hne).symm.trans hzero, h.required_waiting st.mode hlt (by rw [hrequired]; rfl)⟩
  obtain ⟨rfl, hfew⟩ := hends
  obtain ⟨ds, count, n, hencode, hgroups, hsmall, hcount, hpadding⟩ := h.encode_spec st.vchRet
  have hconsumed : ∀ c ∈ f.consumed p, tableAt f.table c ≠ -1 := by
    intro c hc
    exact of_decide_eq_true (List.mem_takeWhile_imp (p := fun c => decide (tableAt f.table c ≠ -1)) hc)
  have hnumbers : ∀ d ∈ (f.consumed p).map f.numberOf, d < 2 ^ f.width := by
    intro d hd
    obtain ⟨c, hc, rfl⟩ := List.mem_map.mp hd
    exact (h.charOf_numberOf c (hconsumed c hc)).1
  obtain rfl := hread.left_unique hgroups hfew hcount hnumbers hsmall
  have hcounts : f.waiting st.mode = count := Nat.add_left_cancel (hread.bits_eq.symm.trans hgroups.bits_eq)
  have hpad := hpadding st.mode hlt hcounts
  have hwritten : List.replicate n padChar = f.padding (f.consumed p).length := by
    rw [padding, ← hmode]
    by_cases hzero : st.mode = 0
    · rw [if_pos hzero] at hpad
      rw [hzero, h.required_zero, hpad]
      rfl
    · rw [if_neg hzero] at hpad
      rw [hpad]
      rfl
  constructor
  · rw [hencode, hwritten, List.map_map]
    congr 1
    apply List.map_congr_left
    intro c hc
    exact (h.charOf_numberOf c (hconsumed c hc)).2
  · have hsplit : f.consumed p ++ p.drop (f.consumed p).length = p :=
      List.prefix_iff_eq_append.mp (List.takeWhile_prefix _)
    rw [← hwritten]
    conv_rhs => rw [← hsplit]
    rw [List.prefix_append_right_inj]
    cases hvalid with
    | inl hzero =>
      rw [if_pos hzero] at hpad
      rw [hpad]
      exact List.nil_prefix
    | inr hvalid =>
      obtain ⟨m, hrequired, -, hprefix, -⟩ := hvalid
      have hne : st.mode ≠ 0 := by
        intro hmode0
        rw [hmode0, h.required_zero] at hrequired
        cases hrequired
      rw [if_neg hne, hrequired] at hpad
      rw [← Option.some.inj hpad]
      exact hprefix

/-- Characters that leave no bits over stand for bytes alone. -/
theorem decode_chars (h : f.Lawful fold) (hchars : ∀ c ∈ p, tableAt f.table c ≠ -1)
    (hlen : p.length % f.decodeModes = 0) :
    ∃ vch, f.decode p none = .ok (vch, none) ∧ f.encode vch = p.map fold ∧ f.width * p.length = 8 * vch.length := by
  obtain ⟨st, fInvalid, ⟨hmode, left, hread, -⟩, hdecode, hiff⟩ := h.decode_eq p
  have hconsumed : f.consumed p = p := List.takeWhile_eq_self_iff.mpr fun c hc => decide_eq_true (hchars c hc)
  rw [hconsumed] at hmode hread
  rw [List.length_map, hlen] at hmode
  have hvalid : fInvalid = false := hiff.mpr (.inl hmode)
  have hencode := (h.encode_decode (p := p) (g := false) (by rw [hdecode, hvalid]; rfl)).1
  have hnone : f.padding p.length = [] := by
    rw [padding, hlen, h.required_zero]
    rfl
  rw [hconsumed, hnone, List.append_nil] at hencode
  have hbits := hread.bits_eq
  rw [hmode, waiting, Nat.mul_zero, List.length_map, List.length_map] at hbits
  exact ⟨st.vchRet, hdecode none, hencode, hbits⟩

end Lawful

end BaseText

end AliasWallet
