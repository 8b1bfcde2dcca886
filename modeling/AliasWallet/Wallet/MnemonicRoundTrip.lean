import AliasWallet.Wallet.MnemonicPhrases

/-!
# Phrases of new wallets

`mnemonic new` takes 16 to 64 bytes of entropy. A phrase is read back when the number of bytes is a multiple of four:
for the others the words do not come three by three, or the entropy is taken for one byte longer.
-/

namespace AliasWallet
open Lib

section Bits

variable {vEntropy : Bytes} {p : Nat}

theorem checksumSize_of_le {n : Nat} (hn : n ≤ 1024) : checksumSize n = n / 4 := by
  rw [checksumSize, Nat.mod_eq_of_lt (by omega)]

theorem wordTotal_of_le {n : Nat} (hn : n ≤ 1024) : wordTotal n = (n * 8 + n / 4 + 10) / 11 := by
  rw [wordTotal, checksumSize_of_le hn, Nat.mod_eq_of_lt (by omega)]

/-- Four bytes of entropy give one bit of the checksum and three words. -/
theorem checksumSize_four_mul {m : Nat} (hm : m ≤ 256) : checksumSize (4 * m) = m := by
  rw [checksumSize_of_le (by omega)]
  omega

theorem wordTotal_four_mul {m : Nat} (hm : m ≤ 256) : wordTotal (4 * m) = 3 * m := by
  rw [wordTotal_of_le (by omega)]
  omega

@[simp] theorem encodedWords_length : (encodedWords vEntropy).length = wordTotal vEntropy.length := by
  simp [encodedWords]

theorem encodedWords_lt : ∀ o ∈ encodedWords vEntropy, o < 2 ^ 11 := fun _ ho => regroup_lt ho

/-- The bits of the entropy come first. -/
theorem encodedWords_entropy (hp : p < 8 * vEntropy.length) (htotal : p < 11 * wordTotal vEntropy.length) :
    groupBit 11 (encodedWords vEntropy) p = groupBit 8 (byteValues vEntropy) p := by
  rw [encodedWords, groupBit_regroup (by decide) htotal, encodeInput, byteValues_append,
    groupBit_append_left (by simpa using hp)]

/-- The bits of the hash follow. -/
theorem encodedWords_hash (hp : p < 8 * checksumBytes (checksumSize vEntropy.length))
    (htotal : 8 * vEntropy.length + p < 11 * wordTotal vEntropy.length)
    (hsum : checksumBytes (checksumSize vEntropy.length) ≤ 32) :
    groupBit 11 (encodedWords vEntropy) (8 * vEntropy.length + p) = groupBit 8 (byteValues (sha256 vEntropy)) p := by
  have hlen : p < 8 * (byteValues ((sha256 vEntropy).take (checksumBytes (checksumSize vEntropy.length)))).length := by
    rw [byteValues_length, List.length_take, sha256_length]
    omega
  have happend :
      groupBit 8 (byteValues (encodeInput vEntropy (checksumSize vEntropy.length))) (8 * vEntropy.length + p) =
      groupBit 8 (byteValues ((sha256 vEntropy).take (checksumBytes (checksumSize vEntropy.length)) ++
        List.replicate (32 - checksumBytes (checksumSize vEntropy.length)) 0)) p := by
    have h := @groupBit_append_right 8 (byteValues vEntropy) (byteValues
      ((sha256 vEntropy).take (checksumBytes (checksumSize vEntropy.length)) ++
        List.replicate (32 - checksumBytes (checksumSize vEntropy.length)) 0)) (by decide) p
    rwa [byteValues_length, ← byteValues_append] at h
  rw [encodedWords, groupBit_regroup (by decide) htotal, happend, byteValues_append, groupBit_append_left hlen,
    byteValues_take, groupBit_take hp]

end Bits

section RoundTrip

variable {W : WordList} {vEntropy : Bytes} {m : Nat}

theorem positions_encodedWords (hos : ∀ o ∈ encodedWords vEntropy, o < W.lines.length) :
    positions W (wordsAt W (encodedWords vEntropy)) = encodedWords vEntropy :=
  positions_wordsAt fun o ho => (hos o ho).trans_le W.lines_prefix.length_le

theorem wordsAt_lines {os : List Nat} (hos : ∀ o ∈ os, o < W.lines.length) : ∀ w ∈ wordsAt W os, w ∈ W.lines := by
  intro w hw
  simp only [wordsAt, List.mem_map] at hw
  obtain ⟨o, ho, rfl⟩ := hw
  exact List.mem_of_getElem? (lines_getElem? (hos o ho))

/-- The words of entropy whose length is a multiple of four decode to it. -/
theorem decodeWords_encodedWords (hlen : vEntropy.length = 4 * m) (hm : m ≤ 31)
    (hos : ∀ o ∈ encodedWords vEntropy, o < W.lines.length) :
    decodeWords W (wordsAt W (encodedWords vEntropy)) false = .ok vEntropy := by
  have hsize : checksumSize vEntropy.length = m := by rw [hlen, checksumSize_four_mul (by omega)]
  have htotal : wordTotal vEntropy.length = 3 * m := by rw [hlen, wordTotal_four_mul (by omega)]
  have hwords : (wordsAt W (encodedWords vEntropy)).length = 3 * m := by
    rw [wordsAt, List.length_map, encodedWords_length, htotal]
  have hbits : 3 * m * 11 / 32 = m := by omega
  have hentropy : entropyBytes (3 * m * 11) = 4 * m := by rw [entropyBytes, hbits]; omega
  have hpacked : (packedBytes (encodedWords vEntropy)).length = bytesFor (3 * m * 11) := by
    rw [packedBytes_length, encodedWords_length, htotal]
  have hbytes : bytesFor m ≤ 4 := by rw [bytesFor]; split <;> omega
  have hfor : 4 * m ≤ bytesFor (3 * m * 11) := by
    have := bytesFor_le (3 * m * 11)
    omega
  rw [decodeWords_ok_iff (by rw [hwords, hbits]; omega), positions_encodedWords hos, hwords, hentropy]
  apply And.intro (wordsAt_lines hos)
  apply And.intro (by omega)
  constructor
  · apply bytes_ext
    · rw [List.length_take, hpacked, hlen]
      omega
    · intro p hp
      rw [byteValues_take, groupBit_take (by omega), groupBit_packedBytes, encodedWords_entropy hp (by omega)]
  · intro p hp
    rw [hbits] at hp ⊢
    rw [hentropy, groupBit_packedBytes]
    by_cases hpm : p < m
    · have hhash : p < 8 * checksumBytes m := by rw [checksumBytes]; split <;> omega
      have hsum : checksumBytes m ≤ 32 := by rw [checksumBytes]; split <;> omega
      have h : groupBit 11 (encodedWords vEntropy) (8 * vEntropy.length + p) = _ :=
        encodedWords_hash (by rw [hsize]; exact hhash) (by omega) (by rw [hsize]; exact hsum)
      rw [decide_eq_true hpm, Bool.true_and, ← h, hlen]
    · rw [decide_eq_false hpm, Bool.false_and]
      apply groupBit_of_le (by decide)
      rw [encodedWords_length, htotal]
      omega

/-- No other length of the command is decoded to its entropy. -/
theorem decodeWords_encodedWords_ne (hmin : 16 ≤ vEntropy.length) (hmax : vEntropy.length ≤ 64)
    (hfour : ¬ 4 ∣ vEntropy.length) (hos : ∀ o ∈ encodedWords vEntropy, o < W.lines.length) :
    decodeWords W (wordsAt W (encodedWords vEntropy)) false ≠ .ok vEntropy := by
  have htotal := wordTotal_of_le (by omega : vEntropy.length ≤ 1024)
  have hwords : (wordsAt W (encodedWords vEntropy)).length = wordTotal vEntropy.length := by
    rw [wordsAt, List.length_map, encodedWords_length]
  have hsum : bytesFor (wordTotal vEntropy.length * 11 / 32) ≤ 32 := by rw [bytesFor]; split <;> omega
  intro h
  rw [decodeWords_ok_iff (by rw [hwords]; exact hsum), positions_encodedWords hos, hwords] at h
  -- a multiple of three words is the phrase of the next multiple of four bytes
  have hthree := h.2.1
  have heq := congrArg List.length h.2.2.1
  have hread := (Nat.le_add_right _ _).trans (readBytes_le (wordTotal vEntropy.length * 11))
  rw [List.length_take, packedBytes_length, encodedWords_length, Nat.min_eq_left hread] at heq
  have hnext : wordTotal vEntropy.length = 3 * (vEntropy.length / 4 + 1) := by omega
  have hbits : 3 * (vEntropy.length / 4 + 1) * 11 / 32 = vEntropy.length / 4 + 1 := by omega
  rw [hnext, entropyBytes, hbits] at heq
  omega

section Phrases

variable {l : Nat} {T : LanguageTables} {words : List Bytes} {sep : Bytes}

theorem intercalate_length_bound {n : Nat} (sep : Bytes) (hwords : ∀ w ∈ words, w.length ≤ n) :
    (sep.intercalate words).length ≤ words.length * (n + sep.length) := by
  induction words with
  | nil => exact Nat.zero_le _
  | cons w words ih =>
    have hw := hwords w List.mem_cons_self
    have hrest := ih fun w hw => hwords w (List.mem_cons_of_mem _ hw)
    rw [List.length_cons, Nat.succ_mul]
    cases words with
    | nil =>
      rw [List.intercalate_singleton]
      omega
    | cons next words =>
      rw [List.intercalate_cons_cons]
      simp only [List.length_append]
      omega

theorem intercalate_length_le (hsep : 1 ≤ sep.length) :
    ([space].intercalate words).length ≤ (sep.intercalate words).length := by
  induction words with
  | nil => exact Nat.le_refl _
  | cons w words ih =>
    cases words with
    | nil => rw [List.intercalate_singleton, List.intercalate_singleton]
    | cons next words =>
      rw [List.intercalate_cons_cons, List.intercalate_cons_cons]
      simp only [List.length_append, List.length_singleton]
      omega

/-- A phrase of words of a list is decoded word by word. -/
theorem mnemonicDecode_words (hW : T.wordList l = some W) (hsep : IsSeparator sep) (hwords : ∀ w ∈ words, w ∈ W.words)
    (hlen : ([space].intercalate words).length < 2048) (fIgnore : Bool) :
    mnemonicDecode T l (sep.intercalate words) fIgnore = decodeWords W words fIgnore := by
  have hspaced : spaced (sep.intercalate words) = [space].intercalate words := replaceStr_phrase hsep hwords
  rw [mnemonicDecode_language hW (by rw [hspaced]; exact hlen), hspaced, phraseWords_intercalate hwords]

end Phrases

/-- The phrases of the command are short where the words are, as those of the wallet with 27 bytes at most. -/
theorem mnemonicEncode_short {l : Nat} {T : LanguageTables} (hW : T.wordList l = some W)
    (hnewline : W.newlineAtEnd = true) (hmin : 16 ≤ vEntropy.length) (hmax : vEntropy.length ≤ 64)
    (hwords : ∀ w ∈ W.words, w.length ≤ 39) (phrase : Bytes) (hphrase : mnemonicEncode T l vEntropy [] = .ok phrase) :
    phrase.length < 2048 := by
  have hos : ∀ o ∈ encodedWords vEntropy, o < W.lines.length := by
    rw [W.lines_length hnewline]
    exact encodedWords_lt
  have hsize := checksumSize_of_le (by omega : vEntropy.length ≤ 1024)
  have htotal := wordTotal_of_le (by omega : vEntropy.length ≤ 1024)
  rw [mnemonicEncode_ok hW (by omega) (by omega) hos] at hphrase
  have hsep : (separatorOf l).length ≤ 3 := by
    cases isSeparator_separatorOf l with
    | inl h => rw [h]; decide
    | inr h => rw [h]; decide
  have hbound := intercalate_length_bound (separatorOf l) fun w hw =>
    hwords w (WordList.mem_words_of_mem_lines (wordsAt_lines hos w hw))
  rw [wordsAt, List.length_map, encodedWords_length] at hbound
  have hcount : wordTotal vEntropy.length ≤ 48 := by omega
  have hmul := Nat.mul_le_mul hcount (Nat.add_le_add_left hsep 39)
  rw [← Except.ok.inj hphrase]
  exact (hbound.trans hmul).trans_lt (by decide)

/-- The phrase that the command shows decodes to the entropy in the language it was made for exactly when the number of
bytes is a multiple of four. -/
theorem mnemonic_roundTrip (T : LanguageTables) (l : Nat) (W : WordList) (hW : T.wordList l = some W)
    (hnewline : W.newlineAtEnd = true) (vEntropy : Bytes) (hmin : 16 ≤ vEntropy.length) (hmax : vEntropy.length ≤ 64)
    (hshort : ∀ phrase, mnemonicEncode T l vEntropy [] = .ok phrase → phrase.length < 2048) :
    (∃ phrase, mnemonicEncode T l vEntropy [] = .ok phrase ∧ mnemonicDecode T l phrase false = .ok vEntropy) ↔
      4 ∣ vEntropy.length := by
  have hlines := W.lines_length hnewline
  have hos : ∀ o ∈ encodedWords vEntropy, o < W.lines.length := by
    intro o ho
    rw [hlines]
    exact encodedWords_lt o ho
  have hsize := checksumSize_of_le (by omega : vEntropy.length ≤ 1024)
  have htotal := wordTotal_of_le (by omega : vEntropy.length ≤ 1024)
  have hencode := mnemonicEncode_ok hW (by omega) (by omega) hos
  have hsep : 1 ≤ (separatorOf l).length := by
    cases isSeparator_separatorOf l with
    | inl h => rw [h]; decide
    | inr h => rw [h]; decide
  have hlen := (intercalate_length_le hsep).trans_lt (hshort _ hencode)
  have hdecode := mnemonicDecode_words hW (isSeparator_separatorOf l)
    (fun w hw => WordList.mem_words_of_mem_lines (wordsAt_lines hos w hw)) hlen false
  constructor
  · intro h
    obtain ⟨phrase, hphrase, hback⟩ := h
    rw [hencode] at hphrase
    rw [← Except.ok.inj hphrase, hdecode] at hback
    by_contra hfour
    exact decodeWords_encodedWords_ne hmin hmax hfour hos hback
  · intro h
    obtain ⟨m, hm⟩ := h
    exact ⟨_, hencode, hdecode.trans (decodeWords_encodedWords hm (by omega) hos)⟩

theorem sampleTables_english_length : ∀ w ∈ sampleTables.english.words, w.length ≤ 39 :=
  sampleList_forall (by decide) (by decide) (fun n => (sampleWord_length 1 n).trans_le (by decide)) (by decide)

theorem mnemonic_roundTrip_sixteen :
    ∃ phrase, mnemonicEncode sampleTables 1 (List.replicate 16 0) [] = .ok phrase ∧
      mnemonicDecode sampleTables 1 phrase false = .ok (List.replicate 16 0) :=
  (mnemonic_roundTrip sampleTables 1 sampleTables.english rfl rfl (List.replicate 16 0) (by decide) (by decide)
    (mnemonicEncode_short rfl rfl (by decide) (by decide) sampleTables_english_length)).mpr (by decide)

/-- Seventeen bytes become thirteen words, which are not read back. -/
theorem mnemonic_seventeen_refused :
    ∃ phrase, mnemonicEncode sampleTables 1 (List.replicate 17 0) [] = .ok phrase ∧ phrase.length < 2048 ∧
      mnemonicDecode sampleTables 1 phrase false = mnemonicError .wordCount := by
  have hos : ∀ o ∈ encodedWords (List.replicate 17 0), o < sampleTables.english.lines.length := by
    rw [WordList.lines_length rfl]
    exact encodedWords_lt
  have hencode := mnemonicEncode_ok (T := sampleTables) (l := 1) rfl (by decide) (by decide) hos
  have hwords := wordsAt_lines hos
  have hcount : (wordsAt sampleTables.english (encodedWords (List.replicate 17 0))).length = 13 := by
    rw [wordsAt, List.length_map, encodedWords_length]
    rfl
  have hlen := intercalate_length_bound [space] fun w hw =>
    sampleTables_english_length w (WordList.mem_words_of_mem_lines (hwords w hw))
  rw [hcount] at hlen
  have hshort := hlen.trans_lt (by decide : 13 * (39 + [space].length) < 2048)
  apply Exists.intro _
  apply And.intro hencode
  apply And.intro hshort
  have hdecode := mnemonicDecode_words (T := sampleTables) (l := 1) rfl (Or.inl rfl)
    (fun w hw => WordList.mem_words_of_mem_lines (hwords w hw)) hshort false
  exact hdecode.trans (by rw [decodeWords_positions hwords, hcount]; rfl)

end RoundTrip

end AliasWallet
