import AliasWallet.Wallet.MnemonicBits

/-!
# Phrases and their words

A phrase is taken apart into the words it was joined from, and decoding it depends on the positions of the words in the
list only. The checksum is compared bit for bit.
-/

namespace AliasWallet
open Lib

section Phrase

variable {W : WordList} {ws : List Bytes} {sep phrase : Bytes}

/-- The words of a list are joined by a space or by `\u3000`. -/
def IsSeparator (sep : Bytes) : Prop := sep = [space] ∨ sep = ideographicSpace

theorem ideographicSpace_eq : ideographicSpace = 0xe3 :: [0x80, 0x80] := rfl

/-- The spaces of a phrase are made uniform. -/
theorem replaceStr_phrase (hsep : IsSeparator sep) (hws : ∀ w ∈ ws, w ∈ W.words) :
    replaceStr ideographicSpace [space] (sep.intercalate ws) = [space].intercalate ws := by
  have hin : ∀ w ∈ ws, ¬ ideographicSpace <:+: w := fun w hw => W.words_ideographic w (hws w hw)
  rw [ideographicSpace_eq] at hin ⊢
  cases hsep with
  | inl h => rw [h]; exact replaceStr_intercalate_other (by decide) hin
  | inr h => rw [h, ideographicSpace_eq]; exact replaceStr_intercalate (by decide) hin

theorem mem_intercalate {c : UInt8} (h : c ∈ sep.intercalate ws) : c ∈ sep ∨ ∃ w ∈ ws, c ∈ w := by
  induction ws with
  | nil => exact absurd h List.not_mem_nil
  | cons w ws ih =>
    cases ws with
    | nil => exact Or.inr ⟨w, List.mem_cons_self, by simpa using h⟩
    | cons next ws =>
      rw [List.intercalate_cons_cons, List.mem_append, List.mem_append] at h
      cases h with
      | inl h => exact h.elim (fun h => Or.inr ⟨w, List.mem_cons_self, h⟩) Or.inl
      | inr h =>
        cases ih h with
        | inl h => exact Or.inl h
        | inr h =>
          obtain ⟨u, hu, hc⟩ := h
          exact Or.inr ⟨u, List.mem_cons_of_mem _ hu, hc⟩

/-- The words of a phrase are those it was joined from. -/
theorem phraseWords_intercalate (hws : ∀ w ∈ ws, w ∈ W.words) : phraseWords ([space].intercalate ws) = ws := by
  have hzero : (0 : UInt8) ∉ [space].intercalate ws := by
    intro h
    cases mem_intercalate h with
    | inl h => exact absurd h (by decide)
    | inr h =>
      obtain ⟨w, hw, hmem⟩ := h
      exact W.words_zero w (hws w hw) hmem
  rw [phraseWords, cString_eq hzero]
  exact tokens_intercalate fun w hw => ⟨W.words_ne w (hws w hw), W.words_space w (hws w hw)⟩

end Phrase

section Append

variable {W : WordList} {os : List Nat} {done : List Bytes} {w : Bytes}

theorem intercalate_eq_nil (hdone : ∀ w ∈ done, w ≠ []) : [space].intercalate done = [] ↔ done = [] := by
  constructor
  · intro h
    cases done with
    | nil => rfl
    | cons w rest =>
      have hw := hdone w List.mem_cons_self
      cases rest with
      | nil => exact absurd (by simpa using h) hw
      | cons next rest => simp at h
  · intro h
    rw [h]
    rfl

theorem intercalate_concat (hnil : done ≠ []) :
    [space].intercalate (done ++ [w]) = [space].intercalate done ++ [space] ++ w := by
  induction done with
  | nil => exact absurd rfl hnil
  | cons first rest ih =>
    cases rest with
    | nil => simp
    | cons next rest =>
      have hrest := ih (by simp)
      rw [List.cons_append] at hrest
      rw [List.cons_append, List.cons_append, List.intercalate_cons_cons, List.intercalate_cons_cons, hrest]
      simp only [List.append_assoc]

/-- A round of the loop that appends the words. -/
theorem append_word (hdone : ∀ w ∈ done, w ≠ []) :
    (if [space].intercalate done ≠ [] then [space].intercalate done ++ [space] else [space].intercalate done) ++ w =
      [space].intercalate (done ++ [w]) := by
  by_cases hnil : done = []
  · subst hnil
    simp
  · rw [if_pos (fun h => hnil ((intercalate_eq_nil hdone).mp h)), intercalate_concat hnil]

/-- The words at positions of a list. -/
def wordsAt (W : WordList) (os : List Nat) : List Bytes := os.map fun o => W.words.getD o []

theorem lines_getElem? {o : Nat} (ho : o < W.lines.length) : W.lines[o]? = some (W.words.getD o []) := by
  obtain ⟨rest, hrest⟩ := W.lines_prefix
  rw [← hrest, List.getD_append _ _ _ _ ho, List.getD_eq_getElem _ _ ho, List.getElem?_eq_getElem ho]

theorem wordsAt_mem (hos : ∀ o ∈ os, o < W.words.length) : ∀ w ∈ wordsAt W os, w ∈ W.words := by
  intro w hw
  simp only [wordsAt, List.mem_map] at hw
  obtain ⟨o, ho, rfl⟩ := hw
  rw [List.getD_eq_getElem _ _ (hos o ho)]
  exact List.getElem_mem _

/-- The loop joins the words at the positions with spaces. -/
theorem appendWords_words (hos : ∀ o ∈ os, o < W.lines.length) (hdone : ∀ w ∈ done, w ≠ []) :
    appendWords W.text os ([space].intercalate done) = .ok ([space].intercalate (done ++ wordsAt W os)) := by
  induction os generalizing done with
  | nil => simp [appendWords, wordsAt]
  | cons o os ih =>
    have ho : o < W.lines.length := hos o List.mem_cons_self
    have hword : W.words.getD o [] ∈ W.words := by
      rw [List.getD_eq_getElem _ _ (ho.trans_le W.lines_prefix.length_le)]
      exact List.getElem_mem _
    have hdone' : ∀ w ∈ done ++ [W.words.getD o []], w ≠ [] := by
      intro w hw
      rw [List.mem_append, List.mem_singleton] at hw
      exact hw.elim (hdone w) fun h => h ▸ W.words_ne _ hword
    have hnext := ih (fun o ho => hos o (List.mem_cons_of_mem _ ho)) hdone'
    rw [appendWords, W.getWord_text, ok_bind, lines_getElem? ho]
    dsimp only
    rw [append_word hdone, hnext, List.append_assoc]
    rfl

/-- The first position that is not in the list stops the loop. -/
theorem appendWords_failed {s : Bytes} (hos : ∃ o ∈ os, W.lines.length ≤ o) :
    ∃ o ∈ os, W.lines.length ≤ o ∧ appendWords W.text os s = mnemonicError (.wordExtractFailed o) := by
  induction os generalizing s with
  | nil => exact absurd hos (by simp)
  | cons o os ih =>
    by_cases ho : W.lines.length ≤ o
    · apply Exists.intro o
      apply And.intro List.mem_cons_self
      apply And.intro ho
      rw [appendWords, W.getWord_text, ok_bind, List.getElem?_eq_none ho]
    · have hrest : ∃ o ∈ os, W.lines.length ≤ o := by
        obtain ⟨x, hx, hxlen⟩ := hos
        rw [List.mem_cons] at hx
        exact ⟨x, hx.resolve_left fun h => ho (h ▸ hxlen), hxlen⟩
      rw [appendWords, W.getWord_text, ok_bind, lines_getElem? (by omega)]
      obtain ⟨x, hx, hxlen, hfail⟩ := ih hrest
      exact ⟨x, List.mem_cons_of_mem _ hx, hxlen, hfail⟩

end Append

section Offsets

variable {W : WordList} {ws : List Bytes} {os : List Nat}

/-- The positions of words in a list. -/
def positions (W : WordList) (ws : List Bytes) : List Nat := ws.map W.words.idxOf

theorem idxOf?_lines {w : Bytes} (hw : w ∈ W.lines) : W.lines.idxOf? w = some (W.words.idxOf w) := by
  obtain ⟨rest, hrest⟩ := W.lines_prefix
  have hlt := List.idxOf_lt_length_of_mem hw
  rw [← hrest, List.idxOf_append_of_mem hw, List.idxOf?_eq_some_iff]
  apply Exists.intro hlt
  constructor
  · exact List.getElem_idxOf hlt
  · intro j hj
    exact beq_eq_false_iff_ne.mp (List.not_of_lt_findIdx hj)

/-- Words of the list are found at their positions. -/
theorem wordOffsets_words (hws : ∀ w ∈ ws, w ∈ W.lines) : wordOffsets W.text ws = .ok (positions W ws) := by
  induction ws with
  | nil => rfl
  | cons w ws ih =>
    rw [wordOffsets, W.getWordOffset_text, idxOf?_lines (hws w List.mem_cons_self)]
    dsimp only
    rw [ih fun w hw => hws w (List.mem_cons_of_mem _ hw)]
    rfl

/-- The first word that is not in the list stops the loop. -/
theorem wordOffsets_unknown (hws : ∃ w ∈ ws, w ∉ W.lines) :
    ∃ w ∈ ws, w ∉ W.lines ∧ wordOffsets W.text ws = mnemonicError (.unknownWord w) := by
  induction ws with
  | nil => exact absurd hws (by simp)
  | cons w ws ih =>
    by_cases hw : w ∈ W.lines
    · have hrest : ∃ w ∈ ws, w ∉ W.lines := by
        obtain ⟨x, hx, hxmem⟩ := hws
        rw [List.mem_cons] at hx
        exact ⟨x, hx.resolve_left fun h => hxmem (h ▸ hw), hxmem⟩
      obtain ⟨x, hx, hxmem, hfail⟩ := ih hrest
      apply Exists.intro x
      apply And.intro (List.mem_cons_of_mem _ hx)
      apply And.intro hxmem
      rw [wordOffsets, W.getWordOffset_text, idxOf?_lines hw]
      dsimp only
      rw [hfail]
      rfl
    · apply Exists.intro w
      apply And.intro List.mem_cons_self
      apply And.intro hw
      rw [wordOffsets, W.getWordOffset_text, List.idxOf?_eq_none_iff.mpr hw]

theorem positions_lt (hws : ∀ w ∈ ws, w ∈ W.words) : ∀ o ∈ positions W ws, o < 2 ^ 11 := by
  intro o ho
  simp only [positions, List.mem_map] at ho
  obtain ⟨w, hw, rfl⟩ := ho
  have h := List.idxOf_lt_length_of_mem (hws w hw)
  rwa [W.words_length] at h

theorem wordsAt_positions (hws : ∀ w ∈ ws, w ∈ W.words) : wordsAt W (positions W ws) = ws := by
  rw [wordsAt, positions, List.map_map]
  conv_rhs => rw [← List.map_id ws]
  apply List.map_congr_left
  intro w hw
  have h := List.idxOf_lt_length_of_mem (hws w hw)
  simp only [Function.comp_apply, id_eq]
  rw [List.getD_eq_getElem _ _ h, List.getElem_idxOf h]

theorem positions_wordsAt (hos : ∀ o ∈ os, o < W.words.length) : positions W (wordsAt W os) = os := by
  rw [wordsAt, positions, List.map_map]
  conv_rhs => rw [← List.map_id os]
  apply List.map_congr_left
  intro o ho
  simp only [Function.comp_apply, id_eq]
  rw [List.getD_eq_getElem _ _ (hos o ho), W.words_nodup.idxOf_getElem]

end Offsets

section Checksum

variable {v e h : Bytes} {c nBits p : Nat}

theorem sha256_length (bs : Bytes) : (sha256 bs).length = 32 := by
  simp [sha256, Sha256.digest]

theorem maskChecksum_length : (maskChecksum h c).length = h.length := by
  rw [maskChecksum]
  split
  · exact List.length_modify ..
  · rfl

/-- The bits behind the checksum are cleared and the others are those of the hash. -/
theorem maskChecksum_bit (hlen : bytesFor c ≤ h.length) (hp : p < 8 * bytesFor c) :
    groupBit 8 (byteValues (maskChecksum (h.take (bytesFor c)) c)) p =
      (decide (p < c) && groupBit 8 (byteValues h) p) := by
  have htake : (h.take (bytesFor c)).length = bytesFor c := by rw [List.length_take]; omega
  have hmask : (maskChecksum (h.take (bytesFor c)) c).length = bytesFor c := by rw [maskChecksum_length, htake]
  have hmod : p % 8 < 8 := Nat.mod_lt p (by decide)
  have hp' : p = 8 * (p / 8) + p % 8 := (Nat.div_add_mod p 8).symm
  have hk : p / 8 < bytesFor c := by omega
  rw [byteBit (by rw [hmask]; exact hk) _ hmod hp', byteBit (hk.trans_le hlen) _ hmod hp']
  by_cases hr : c % 8 > 0
  · have hbytes : bytesFor c = c / 8 + 1 := by rw [bytesFor, if_neg (by omega)]
    simp only [maskChecksum, if_pos hr, hbytes, Nat.add_sub_cancel]
    by_cases hlast : c / 8 = p / 8
    · have hbit : ∀ b : UInt8, (UInt8.ofNat (b.toNat &&& (((1 <<< (c % 8)) - 1) <<< (8 - c % 8)))).toNat.testBit
          (7 - p % 8) = (decide (p < c) && b.toNat.testBit (7 - p % 8)) := by
        intro b
        rw [UInt8.toNat_ofNat', Nat.testBit_mod_two_pow, decide_eq_true (by omega : 7 - p % 8 < 8), Bool.true_and,
          Nat.testBit_and, Nat.testBit_shiftLeft, Nat.one_shiftLeft, Nat.testBit_two_pow_sub_one, Bool.and_comm]
        congr 1
        rw [← Bool.decide_and, decide_eq_decide]
        omega
      rw [List.getElem_modify, if_pos hlast, hbit, List.getElem_take]
    · rw [List.getElem_modify, if_neg hlast, List.getElem_take, decide_eq_true (by omega : p < c), Bool.true_and]
  · have hbytes : bytesFor c = c / 8 := by rw [bytesFor, if_pos (by omega), Nat.add_zero]
    simp only [maskChecksum, if_neg hr]
    rw [List.getElem_take, decide_eq_true (by omega : p < c), Bool.true_and]

/-- The bytes of the entropy for a number of bits. -/
def entropyBytes (nBits : Nat) : Nat := (nBits - nBits / 32) / 8

/-- The bytes that decoding looks at. -/
def readBytes (nBits : Nat) : Nat := entropyBytes nBits + bytesFor (nBits / 32)

/-- The checksum in the bytes is that of the hash, and the bits behind it are zero. -/
def ChecksumMatches (v e : Bytes) (nBits : Nat) : Prop :=
  ∀ p < 8 * bytesFor (nBits / 32), groupBit 8 (byteValues v) (8 * entropyBytes nBits + p) =
    (decide (p < nBits / 32) && groupBit 8 (byteValues (sha256 e)) p)

theorem checkChecksum_eq (hlen : readBytes nBits ≤ v.length) (hsum : bytesFor (nBits / 32) ≤ 32) :
    (ChecksumMatches v (v.take (entropyBytes nBits)) nBits →
      checkChecksum v nBits = .ok (v.take (entropyBytes nBits))) ∧
    (¬ ChecksumMatches v (v.take (entropyBytes nBits)) nBits →
      checkChecksum v nBits = mnemonicError .checksumMismatch) := by
  have hcheck : checkChecksum v nBits =
      if maskChecksum ((sha256 (v.take (entropyBytes nBits))).take (bytesFor (nBits / 32))) (nBits / 32) ≠
        (v.drop (entropyBytes nBits)).take (bytesFor (nBits / 32)) then mnemonicError .checksumMismatch
      else .ok (v.take (entropyBytes nBits)) := by
    rw [checkChecksum]
    dsimp only
    rw [if_neg (by rw [readBytes, entropyBytes] at hlen; omega), if_neg (by rw [sha256_length]; omega)]
    rfl
  have hiff : maskChecksum ((sha256 (v.take (entropyBytes nBits))).take (bytesFor (nBits / 32))) (nBits / 32) =
        (v.drop (entropyBytes nBits)).take (bytesFor (nBits / 32)) ↔
      ChecksumMatches v (v.take (entropyBytes nBits)) nBits := by
    have hhash : bytesFor (nBits / 32) ≤ (sha256 (v.take (entropyBytes nBits))).length := by
      rw [sha256_length]
      exact hsum
    have hmask : (maskChecksum ((sha256 (v.take (entropyBytes nBits))).take (bytesFor (nBits / 32)))
        (nBits / 32)).length = bytesFor (nBits / 32) := by
      rw [maskChecksum_length, List.length_take]
      omega
    have hvlen : ((v.drop (entropyBytes nBits)).take (bytesFor (nBits / 32))).length = bytesFor (nBits / 32) := by
      rw [List.length_take, List.length_drop]
      rw [readBytes] at hlen
      omega
    have hvbit : ∀ p < 8 * bytesFor (nBits / 32),
        groupBit 8 (byteValues ((v.drop (entropyBytes nBits)).take (bytesFor (nBits / 32)))) p =
          groupBit 8 (byteValues v) (8 * entropyBytes nBits + p) := by
      intro p hp
      rw [byteValues_take, groupBit_take hp, byteValues_drop, groupBit_drop (by decide)]
    constructor
    · intro heq p hp
      rw [← hvbit p hp, ← heq, maskChecksum_bit hhash hp]
    · intro hmatch
      apply bytes_ext (by rw [hmask, hvlen])
      intro p hp
      rw [hmask] at hp
      rw [hvbit p hp, maskChecksum_bit hhash hp, hmatch p hp]
  constructor
  · intro hmatch
    rw [hcheck, if_neg (not_not.mpr (hiff.mpr hmatch))]
  · intro hmatch
    rw [hcheck, if_pos (fun h => hmatch (hiff.mp h))]

theorem checkChecksum_ok_iff (hlen : readBytes nBits ≤ v.length) (hsum : bytesFor (nBits / 32) ≤ 32) :
    checkChecksum v nBits = .ok e ↔ e = v.take (entropyBytes nBits) ∧ ChecksumMatches v e nBits := by
  obtain ⟨hok, hfail⟩ := checkChecksum_eq hlen hsum
  by_cases hmatch : ChecksumMatches v (v.take (entropyBytes nBits)) nBits
  · rw [hok hmatch]
    constructor
    · intro h
      have he := (Except.ok.inj h).symm
      exact ⟨he, he ▸ hmatch⟩
    · intro h
      rw [h.1]
  · rw [hfail hmatch]
    constructor
    · intro h
      exact absurd h (by simp [mnemonicError])
    · intro h
      exact absurd (h.1 ▸ h.2) hmatch

/-- What decoding looks at is within the bytes of the words. -/
theorem readBytes_le (nBits : Nat) : readBytes nBits ≤ bytesFor nBits := by
  have h1 : bytesFor (nBits / 32) ≤ (nBits / 32 + 7) / 8 := by rw [bytesFor]; split <;> omega
  have h2 : (nBits + 7) / 8 ≤ bytesFor nBits := by rw [bytesFor]; split <;> omega
  rw [readBytes, entropyBytes]
  omega

end Checksum

section Language

variable {T : LanguageTables} {W : WordList} {l : Nat} {phrase vEntropy s : Bytes} {ws : List Bytes} {fIgnore : Bool}

/-- The phrase with spaces between its words. -/
def spaced (phrase : Bytes) : Bytes := replaceStr ideographicSpace [space] phrase

/-- What `MnemonicDecode` does with the words of a phrase. -/
def decodeWords (W : WordList) (ws : List Bytes) (fIgnore : Bool) : Except MnemonicStop Bytes := do
  let vWordInts ← wordOffsets W.text ws
  if fIgnore = false ∧ vWordInts.length % 3 ≠ 0 then mnemonicError .wordCount
  else do
    let vEntropy ← packWords vWordInts 0 (List.replicate (bytesFor (vWordInts.length * 11)) 0)
    if fIgnore then pure vEntropy else checkChecksum vEntropy (vWordInts.length * 11)

theorem mnemonicDecode_language (hW : T.wordList l = some W) (hlen : (spaced phrase).length < 2048) :
    mnemonicDecode T l phrase fIgnore = decodeWords W (phraseWords (spaced phrase)) fIgnore := by
  have hrange := range_of_wordList hW
  have hnot : ¬ ((l : Int) < 1 ∨ (l : Int) > WLL_MAX) := by rw [WLL_MAX]; omega
  rw [mnemonicDecode]
  dsimp only
  rw [if_neg (by omega : ¬ (l : Int) = -1), if_neg hnot, if_neg (by rw [← spaced]; omega), Int.toNat_natCast,
    readLanguage_wordList hW, ok_bind]
  rfl

theorem decodeWords_positions (hws : ∀ w ∈ ws, w ∈ W.lines) :
    decodeWords W ws fIgnore =
      if fIgnore = false ∧ ws.length % 3 ≠ 0 then mnemonicError .wordCount
      else if fIgnore then .ok (packedBytes (positions W ws))
      else checkChecksum (packedBytes (positions W ws)) (ws.length * 11) := by
  have hlen : (positions W ws).length = ws.length := by simp [positions]
  have hpack := packWords_packedBytes (positions_lt fun w hw => WordList.mem_words_of_mem_lines (hws w hw))
  rw [decodeWords, wordOffsets_words hws, ok_bind, hlen]
  rw [hlen] at hpack
  rw [hpack]
  rfl

theorem decodeWords_unknown (fIgnore : Bool) (hws : ∃ w ∈ ws, w ∉ W.lines) :
    ∃ w ∈ ws, w ∉ W.lines ∧ decodeWords W ws fIgnore = mnemonicError (.unknownWord w) := by
  obtain ⟨w, hw, hmem, hfail⟩ := wordOffsets_unknown hws
  apply Exists.intro w
  apply And.intro hw
  apply And.intro hmem
  rw [decodeWords, hfail]
  rfl

/-- A phrase of a language and entropy decode to each other when the words are known, three by three, and the checksum
matches. -/
theorem decodeWords_ok_iff (hsum : bytesFor (ws.length * 11 / 32) ≤ 32) :
    decodeWords W ws false = .ok vEntropy ↔
      (∀ w ∈ ws, w ∈ W.lines) ∧ ws.length % 3 = 0 ∧
        vEntropy = (packedBytes (positions W ws)).take (entropyBytes (ws.length * 11)) ∧
        ChecksumMatches (packedBytes (positions W ws)) vEntropy (ws.length * 11) := by
  by_cases hws : ∀ w ∈ ws, w ∈ W.lines
  · rw [decodeWords_positions hws]
    by_cases hthree : ws.length % 3 = 0
    · have hread : readBytes (ws.length * 11) ≤ (packedBytes (positions W ws)).length := by
        rw [packedBytes_length, positions, List.length_map]
        exact readBytes_le _
      rw [if_neg (by simp [hthree]), if_neg Bool.false_ne_true, checkChecksum_ok_iff hread hsum]
      simp only [hthree, true_and, and_iff_right hws]
    · rw [if_pos ⟨rfl, hthree⟩]
      constructor
      · intro h
        exact absurd h (by simp [mnemonicError])
      · intro h
        exact absurd h.2.1 hthree
  · have hunknown : ∃ w ∈ ws, w ∉ W.lines := by simpa using hws
    obtain ⟨w, -, -, hfail⟩ := decodeWords_unknown false hunknown
    rw [hfail]
    constructor
    · intro h
      exact absurd h (by simp [mnemonicError])
    · intro h
      exact absurd h.1 hws

/-- The number of words for entropy of a length. -/
def wordTotal (nBytes : Nat) : Nat := ((nBytes * 8 + checksumSize nBytes) % 2 ^ 32 + 10) / 11

/-- The positions of the words for entropy. -/
def encodedWords (vEntropy : Bytes) : List Nat :=
  regroup 8 11 (wordTotal vEntropy.length) (byteValues (encodeInput vEntropy (checksumSize vEntropy.length)))

/-- What is between the words of a phrase. -/
def separatorOf (l : Nat) : Bytes := if l = 3 then ideographicSpace else [space]

theorem isSeparator_separatorOf (l : Nat) : IsSeparator (separatorOf l) := by
  rw [separatorOf]
  split
  · exact Or.inr rfl
  · exact Or.inl rfl

theorem encodeInput_length {n : Nat} (hn : n ≤ 256) : (encodeInput vEntropy n).length = vEntropy.length + 32 := by
  have hbytes : checksumBytes n ≤ 32 := by rw [checksumBytes]; split <;> omega
  rw [encodeInput, List.length_append, List.length_append, List.length_take, sha256_length, List.length_replicate]
  omega

/-- `MnemonicEncode` reads the words and appends them. -/
theorem mnemonicEncode_language (hW : T.wordList l = some W)
    (hsize : 1 ≤ checksumSize vEntropy.length ∧ checksumSize vEntropy.length ≤ 256)
    (hread : 11 * wordTotal vEntropy.length ≤ 8 * (vEntropy.length + 32)) :
    mnemonicEncode T l vEntropy s = appendWords W.text (encodedWords vEntropy) s >>= fun sWordList =>
      .ok (if l = 3 then replaceStr [space] ideographicSpace sWordList else sWordList) := by
  have hrange := range_of_wordList hW
  have hnot : ¬ ((l : Int) < 1 ∨ (l : Int) > WLL_MAX) := by rw [WLL_MAX]; omega
  have hwords : encodeWords (encodeInput vEntropy (checksumSize vEntropy.length))
      ((vEntropy.length * 8 + checksumSize vEntropy.length) % 2 ^ 32) = .ok (encodedWords vEntropy) :=
    encodeWords_eq (by rw [encodeInput_length hsize.2]; exact hread)
  have hjapanese : ((l : Int) = WLL_JAPANESE) = (l = 3) := by rw [WLL_JAPANESE, eq_iff_iff]; omega
  rw [mnemonicEncode, if_neg hnot]
  dsimp only
  rw [if_neg (by omega), hwords, ok_bind, Int.toNat_natCast, readLanguage_wordList hW, ok_bind]
  simp only [hjapanese]
  rfl

/-- The phrase for entropy. -/
theorem mnemonicEncode_ok (hW : T.wordList l = some W)
    (hsize : 1 ≤ checksumSize vEntropy.length ∧ checksumSize vEntropy.length ≤ 256)
    (hread : 11 * wordTotal vEntropy.length ≤ 8 * (vEntropy.length + 32))
    (hos : ∀ o ∈ encodedWords vEntropy, o < W.lines.length) :
    mnemonicEncode T l vEntropy [] = .ok ((separatorOf l).intercalate (wordsAt W (encodedWords vEntropy))) := by
  have happend : appendWords W.text (encodedWords vEntropy) ([space].intercalate []) =
      .ok ([space].intercalate ([] ++ wordsAt W (encodedWords vEntropy))) := appendWords_words hos (by simp)
  rw [List.nil_append, List.intercalate_nil] at happend
  rw [mnemonicEncode_language hW hsize hread, happend, ok_bind, separatorOf]
  by_cases hl : l = 3
  · rw [if_pos hl, if_pos hl]
    apply congrArg
    apply replaceStr_intercalate List.not_mem_nil
    intro w hw
    rw [List.singleton_infix_iff]
    exact W.words_space w (wordsAt_mem (fun o ho => (hos o ho).trans_le W.lines_prefix.length_le) w hw)
  · rw [if_neg hl, if_neg hl]

end Language

end AliasWallet
