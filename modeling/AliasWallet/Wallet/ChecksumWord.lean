import AliasWallet.Wallet.MnemonicRoundTrip

/-!
# A word that completes a phrase

`MnemonicAddChecksum` packs a phrase that lacks its last word and encodes the bytes again. The other words come back,
and the word that is added has the checksum. It can be the last word of the list, which `GetWord` finds only with a
line feed behind it.
-/

namespace AliasWallet
open Lib

variable {T : LanguageTables} {W : WordList} {l k : Nat} {words : List Bytes} {os : List Nat} {sep : Bytes}

section LastWord

/-- The bytes of the words that are given. -/
theorem packedBytes_unfinished (hk : 4 ≤ k) (hk' : k ≤ 11) (hlen : os.length = 3 * k - 1) :
    (packedBytes os).length = 4 * k := by
  rw [packedBytes_length, hlen, bytesFor]
  split <;> omega

theorem checksumSize_unfinished (hk : 4 ≤ k) (hk' : k ≤ 11) (hlen : os.length = 3 * k - 1) :
    checksumSize (packedBytes os).length = k := by
  rw [packedBytes_unfinished hk hk' hlen, checksumSize_four_mul (by omega)]

theorem wordTotal_unfinished (hk : 4 ≤ k) (hk' : k ≤ 11) (hlen : os.length = 3 * k - 1) :
    wordTotal (packedBytes os).length = 3 * k := by
  rw [packedBytes_unfinished hk hk' hlen, wordTotal_four_mul (by omega)]

/-- The position of the word that is added. -/
def addedWord (os : List Nat) : Nat := (encodedWords (packedBytes os)).getLastD 0

/-- The words that are given come back in front of the word that is added. -/
theorem encodedWords_packedBytes (hk : 4 ≤ k) (hk' : k ≤ 11) (hlen : os.length = 3 * k - 1)
    (hos : ∀ o ∈ os, o < 2 ^ 11) : encodedWords (packedBytes os) = os ++ [addedWord os] := by
  have hbytes := packedBytes_unfinished hk hk' hlen
  have htotal : (encodedWords (packedBytes os)).length = 3 * k := by
    rw [encodedWords_length, wordTotal_unfinished hk hk' hlen]
  have hne : encodedWords (packedBytes os) ≠ [] := fun h => by simp [h] at htotal; omega
  have hfirst : (encodedWords (packedBytes os)).dropLast = os := by
    have hdrop : (encodedWords (packedBytes os)).dropLast.length = os.length := by
      rw [List.length_dropLast, htotal, hlen]
    apply groups_ext (w := 11) hdrop
    · exact fun o ho => encodedWords_lt o (List.mem_of_mem_dropLast ho)
    · exact hos
    · intro p hp
      rw [hdrop, hlen] at hp
      rw [List.dropLast_eq_take, htotal, groupBit_take (by omega),
        encodedWords_entropy (by rw [hbytes]; omega) (by rw [← encodedWords_length, htotal]; omega),
        groupBit_packedBytes]
  have hlast : (encodedWords (packedBytes os)).getLast hne = addedWord os := by
    rw [addedWord, List.getLastD_eq_getLast?, List.getLast?_eq_some_getLast hne, Option.getD_some]
  rw [← List.dropLast_append_getLast hne, hfirst, hlast]

theorem addedWord_lt (hk : 4 ≤ k) (hk' : k ≤ 11) (hlen : os.length = 3 * k - 1) (hos : ∀ o ∈ os, o < 2 ^ 11) :
    addedWord os < 2 ^ 11 := by
  have hlt : ∀ o ∈ encodedWords (packedBytes os), o < 2 ^ 11 := encodedWords_lt
  apply hlt
  rw [encodedWords_packedBytes hk hk' hlen hos]
  exact List.mem_append_right _ (List.mem_singleton.mpr rfl)

/-- The bits of the word that is added: zeros that fill the entropy, and then those of the hash. -/
theorem addedWord_testBit (hk : 4 ≤ k) (hk' : k ≤ 11) (hlen : os.length = 3 * k - 1) (hos : ∀ o ∈ os, o < 2 ^ 11)
    (t : Nat) (ht : t < 11) :
    (addedWord os).testBit (10 - t) =
      (decide (11 - k ≤ t) && groupBit 8 (byteValues (sha256 (packedBytes os))) (t - (11 - k))) := by
  have hbytes := packedBytes_unfinished hk hk' hlen
  have htotal := wordTotal_unfinished hk hk' hlen
  have hsize := checksumSize_unfinished hk hk' hlen
  have hbit : (addedWord os).testBit (10 - t) = groupBit 11 (encodedWords (packedBytes os)) (11 * (3 * k - 1) + t) := by
    rw [encodedWords_packedBytes hk hk' hlen hos, ← hlen, groupBit_append_right (by decide)]
    have h : groupBit 11 [addedWord os] (11 * 0 + t) = _ := groupBit_group 0 t ht
    simpa using h.symm
  rw [hbit]
  by_cases hlow : 11 - k ≤ t
  · have hpos : 11 * (3 * k - 1) + t = 8 * (packedBytes os).length + (t - (11 - k)) := by rw [hbytes]; omega
    have hhash : t - (11 - k) < 8 * checksumBytes k := by rw [checksumBytes]; split <;> omega
    have hsum : checksumBytes k ≤ 32 := by rw [checksumBytes]; split <;> omega
    rw [hpos, encodedWords_hash (by rw [hsize]; exact hhash) (by rw [htotal, hbytes]; omega)
      (by rw [hsize]; exact hsum), decide_eq_true hlow, Bool.true_and]
  · rw [encodedWords_entropy (by rw [hbytes]; omega) (by rw [htotal]; omega), groupBit_packedBytes,
      groupBit_of_le (by decide) (by rw [hlen]; omega), decide_eq_false hlow, Bool.false_and]

/-- The hash begins with eleven ones. -/
def HashOnes (os : List Nat) : Prop := ∀ p < 11, groupBit 8 (byteValues (sha256 (packedBytes os))) p = true

/-- The word that is added is the last of the list only if it has nothing but bits of the hash. -/
theorem addedWord_eq_last (hk : 4 ≤ k) (hk' : k ≤ 11) (hlen : os.length = 3 * k - 1) (hos : ∀ o ∈ os, o < 2 ^ 11) :
    addedWord os = 2047 ↔ k = 11 ∧ HashOnes os := by
  have hbits := addedWord_testBit hk hk' hlen hos
  constructor
  · intro h
    rw [h] at hbits
    have hones : ∀ t < 11, (2047 : Nat).testBit (10 - t) = true := by decide
    have hk11 : k = 11 := by
      have h0 := (hones 0 (by decide)).symm.trans (hbits 0 (by decide))
      by_contra hne
      rw [decide_eq_false (by omega : ¬ 11 - k ≤ 0), Bool.false_and] at h0
      exact Bool.noConfusion h0
    apply And.intro hk11
    intro p hp
    have hbit := (hones p hp).symm.trans (hbits p hp)
    rw [hk11, Nat.sub_self, decide_eq_true (Nat.zero_le p), Bool.true_and, Nat.sub_zero] at hbit
    exact hbit.symm
  · intro h
    apply Nat.eq_of_testBit_eq
    intro j
    rw [show (2047 : Nat) = 2 ^ 11 - 1 from rfl, Nat.testBit_two_pow_sub_one]
    by_cases hj : j < 11
    · have hbit := hbits (10 - j) (by omega)
      rw [h.1, Nat.sub_self, decide_eq_true (Nat.zero_le _), Bool.true_and, Nat.sub_zero, h.2 (10 - j) (by omega),
        show 10 - (10 - j) = j by omega] at hbit
      rw [hbit, decide_eq_true hj]
    · rw [decide_eq_false hj]
      have hbig : 2 ^ 11 ≤ 2 ^ j := Nat.pow_le_pow_right (by decide) (by omega)
      exact Nat.testBit_lt_two_pow ((addedWord_lt hk hk' hlen hos).trans_le hbig)

end LastWord

section AddChecksum

/-- The phrase is completed by one word of the list to a phrase that is accepted. -/
def AddsChecksumWord (T : LanguageTables) (l : Nat) (W : WordList) (sep : Bytes) (words : List Bytes) : Prop :=
  ∃ last ∈ W.words,
    mnemonicAddChecksum T l (sep.intercalate words) [] = .ok ((separatorOf l).intercalate (words ++ [last])) ∧
    ∃ vEntropy, mnemonicDecode T l ((separatorOf l).intercalate (words ++ [last])) false = .ok vEntropy

theorem spaced_short {n : Nat} (hn : n ≤ 33) (hlen : words.length ≤ n) (hshort : ∀ w ∈ words, w.length ≤ 61) :
    ([space].intercalate words).length < 2048 := by
  have hbound := intercalate_length_bound [space] hshort
  have hmul := Nat.mul_le_mul_right (61 + [space].length) (hlen.trans hn)
  exact (hbound.trans hmul).trans_lt (by decide)

/-- `MnemonicAddChecksum` for words that are in the list: the first decoding gives their bytes. -/
theorem mnemonicAddChecksum_words (hW : T.wordList l = some W) (hshort : ∀ w ∈ W.words, w.length ≤ 61) (hk' : k ≤ 11)
    (hlen : words.length = 3 * k - 1) (hsep : IsSeparator sep) (hlines : ∀ w ∈ words, w ∈ W.lines) :
    mnemonicAddChecksum T l (sep.intercalate words) [] =
      mnemonicEncode T l (packedBytes (positions W words)) [] >>= fun sWordListOut =>
        mnemonicDecode T l sWordListOut false >>= fun _ => .ok sWordListOut := by
  have hwords : ∀ w ∈ words, w ∈ W.words := fun w hw => WordList.mem_words_of_mem_lines (hlines w hw)
  have hspaced := spaced_short (n := 33) (by decide) (by omega) fun w hw => hshort w (hwords w hw)
  have hrange := range_of_wordList hW
  rw [mnemonicAddChecksum, if_neg (by omega : ¬ (l : Int) = -1), mnemonicDecode_words hW hsep hwords hspaced,
    decodeWords_positions hlines, if_neg (by simp), if_pos rfl, ok_bind]
  rfl

/-- With a line feed behind the word that is added, the phrase is completed. -/
theorem addsChecksumWord (hW : T.wordList l = some W) (hshort : ∀ w ∈ W.words, w.length ≤ 61) (hk : 4 ≤ k)
    (hk' : k ≤ 11) (hlen : words.length = 3 * k - 1) (hsep : IsSeparator sep) (hlines : ∀ w ∈ words, w ∈ W.lines)
    (hadded : addedWord (positions W words) < W.lines.length) : AddsChecksumWord T l W sep words := by
  have hwords : ∀ w ∈ words, w ∈ W.words := fun w hw => WordList.mem_words_of_mem_lines (hlines w hw)
  have hpos : (positions W words).length = 3 * k - 1 := by rw [positions, List.length_map, hlen]
  have hlt := positions_lt hwords
  have hbytes := packedBytes_unfinished hk hk' hpos
  have hencoded := encodedWords_packedBytes hk hk' hpos hlt
  have hos : ∀ o ∈ encodedWords (packedBytes (positions W words)), o < W.lines.length := by
    intro o ho
    rw [hencoded, List.mem_append, List.mem_singleton] at ho
    cases ho with
    | inl ho =>
      simp only [positions, List.mem_map] at ho
      obtain ⟨w, hw, rfl⟩ := ho
      exact (List.idxOf?_eq_some_iff.mp (idxOf?_lines (hlines w hw))).1
    | inr ho => rwa [ho]
  have hall : wordsAt W (encodedWords (packedBytes (positions W words))) =
      words ++ [W.words.getD (addedWord (positions W words)) []] := by
    rw [hencoded, wordsAt, List.map_append]
    exact congrArg (· ++ _) (wordsAt_positions hwords)
  have hmem := wordsAt_lines hos
  have hsize := checksumSize_unfinished hk hk' hpos
  have htotal := wordTotal_unfinished hk hk' hpos
  have hencode := mnemonicEncode_ok hW (by omega) (by omega) hos
  have hback := decodeWords_encodedWords hbytes (by omega) hos
  rw [hall] at hmem hencode hback
  have hin : ∀ w ∈ words ++ [W.words.getD (addedWord (positions W words)) []], w ∈ W.words :=
    fun w hw => WordList.mem_words_of_mem_lines (hmem w hw)
  have hdecode := mnemonicDecode_words hW (isSeparator_separatorOf l) hin
    (spaced_short (n := 33) (by decide) (by rw [List.length_append, List.length_singleton]; omega)
      fun w hw => hshort w (hin w hw)) false
  apply Exists.intro _
  apply And.intro (hin _ (List.mem_append_right _ (List.mem_singleton.mpr rfl)))
  constructor
  · rw [mnemonicAddChecksum_words hW hshort hk' hlen hsep hlines, hencode, ok_bind, hdecode, hback, ok_bind]
  · exact ⟨_, hdecode.trans hback⟩

/-- Without it the word cannot be extracted. -/
theorem addChecksum_failed (hW : T.wordList l = some W) (hshort : ∀ w ∈ W.words, w.length ≤ 61) (hk : 4 ≤ k)
    (hk' : k ≤ 11) (hlen : words.length = 3 * k - 1) (hsep : IsSeparator sep) (hlines : ∀ w ∈ words, w ∈ W.lines)
    (hadded : W.lines.length ≤ addedWord (positions W words)) : ¬ AddsChecksumWord T l W sep words := by
  have hwords : ∀ w ∈ words, w ∈ W.words := fun w hw => WordList.mem_words_of_mem_lines (hlines w hw)
  have hpos : (positions W words).length = 3 * k - 1 := by rw [positions, List.length_map, hlen]
  have hbytes := packedBytes_unfinished hk hk' hpos
  have hencoded := encodedWords_packedBytes hk hk' hpos (positions_lt hwords)
  have hsize := checksumSize_unfinished hk hk' hpos
  have htotal := wordTotal_unfinished hk hk' hpos
  have hbad : ∃ o ∈ encodedWords (packedBytes (positions W words)), W.lines.length ≤ o := by
    apply Exists.intro (addedWord (positions W words))
    rw [hencoded]
    exact ⟨List.mem_append_right _ (List.mem_singleton.mpr rfl), hadded⟩
  obtain ⟨o, -, -, hfail⟩ := appendWords_failed (s := []) hbad
  have hencode := mnemonicEncode_language (s := []) hW
    (by omega : 1 ≤ checksumSize (packedBytes (positions W words)).length ∧ _) (by omega)
  rw [hfail] at hencode
  intro h
  obtain ⟨last, -, hadd, -⟩ := h
  rw [mnemonicAddChecksum_words hW hshort hk' hlen hsep hlines, hencode] at hadd
  exact absurd hadd (by simp [mnemonicError, error_bind])

/-- A word that is not found stops the first decoding. -/
theorem addChecksum_unknown (hW : T.wordList l = some W) (hshort : ∀ w ∈ W.words, w.length ≤ 61) (hk' : k ≤ 11)
    (hlen : words.length = 3 * k - 1) (hsep : IsSeparator sep) (hwords : ∀ w ∈ words, w ∈ W.words)
    (hunknown : ∃ w ∈ words, w ∉ W.lines) : ¬ AddsChecksumWord T l W sep words := by
  have hspaced := spaced_short (n := 33) (by decide) (by omega) fun w hw => hshort w (hwords w hw)
  have hrange := range_of_wordList hW
  obtain ⟨w, -, -, hfail⟩ := decodeWords_unknown true hunknown
  intro h
  obtain ⟨last, -, hadd, -⟩ := h
  rw [mnemonicAddChecksum, if_neg (by omega : ¬ (l : Int) = -1), mnemonicDecode_words hW hsep hwords hspaced,
    hfail] at hadd
  exact absurd hadd (by simp [mnemonicError, error_bind])

/-- A phrase of the words of a list that lacks its last word is completed, except where the word behind which the list
has no line feed is needed: among the words that are given, or as the word that is added. -/
theorem addChecksum_completes_iff (T : LanguageTables) (l : Nat) (W : WordList) (hW : T.wordList l = some W)
    (hshort : ∀ w ∈ W.words, w.length ≤ 61) (k : Nat) (hk : 4 ≤ k) (hk' : k ≤ 11) (sep : Bytes)
    (hsep : IsSeparator sep) (words : List Bytes) (hlen : words.length = 3 * k - 1)
    (hwords : ∀ w ∈ words, w ∈ W.words) :
    AddsChecksumWord T l W sep words ↔
      W.newlineAtEnd = true ∨ (W.lastWord ∉ words ∧ ¬ (k = 11 ∧ HashOnes (positions W words))) := by
  have hpos : (positions W words).length = 3 * k - 1 := by rw [positions, List.length_map, hlen]
  have hlt := positions_lt hwords
  by_cases hnewline : W.newlineAtEnd = true
  · have hlines : ∀ w ∈ words, w ∈ W.lines := fun w hw => (WordList.mem_lines_iff (hwords w hw)).mpr (Or.inl hnewline)
    have hadded := addedWord_lt hk hk' hpos hlt
    rw [← WordList.lines_length hnewline] at hadded
    exact iff_of_true (addsChecksumWord hW hshort hk hk' hlen hsep hlines hadded) (Or.inl hnewline)
  · have hcount : W.lines.length = 2047 := W.lines_length_short hnewline
    by_cases hlast : W.lastWord ∈ words
    · have hunknown : W.lastWord ∉ W.lines := by
        rw [WordList.mem_lines_iff (hwords _ hlast)]
        exact fun h => h.elim hnewline fun hne => hne rfl
      apply iff_of_false (addChecksum_unknown hW hshort hk' hlen hsep hwords ⟨_, hlast, hunknown⟩)
      exact fun h => h.elim hnewline fun h => h.1 hlast
    · have hlines : ∀ w ∈ words, w ∈ W.lines := by
        intro w hw
        exact (WordList.mem_lines_iff (hwords w hw)).mpr (Or.inr fun h => hlast (h ▸ hw))
      have hlastword := addedWord_eq_last hk hk' hpos hlt
      have hadded := addedWord_lt hk hk' hpos hlt
      rw [← hlastword]
      by_cases h : addedWord (positions W words) = 2047
      · apply iff_of_false (addChecksum_failed hW hshort hk hk' hlen hsep hlines (by omega))
        exact fun hor => hor.elim hnewline fun hand => hand.2 h
      · apply iff_of_true (addsChecksumWord hW hshort hk hk' hlen hsep hlines (by omega))
        exact Or.inr ⟨hlast, h⟩

theorem addChecksum_completes_sample :
    AddsChecksumWord sampleTables 1 sampleTables.english [space] (List.replicate 11 sampleTables.english.lastWord) := by
  have hshort : ∀ w ∈ sampleTables.english.words, w.length ≤ 61 :=
    fun w hw => (sampleTables_english_length w hw).trans (by decide)
  have hwords : ∀ w ∈ List.replicate 11 sampleTables.english.lastWord, w ∈ sampleTables.english.words :=
    fun w hw => List.eq_of_mem_replicate hw ▸ WordList.lastWord_mem
  exact (addChecksum_completes_iff sampleTables 1 sampleTables.english rfl hshort 4 (by decide) (by decide) [space]
    (Or.inl rfl) (List.replicate 11 sampleTables.english.lastWord) rfl hwords).mpr (Or.inl rfl)

theorem french_lastWord : sampleTables.french.lastWord = zoologie := by
  rw [WordList.lastWord_eq]
  exact sampleList_getD (by decide) (by decide) (by decide)

/-- The last word of the French list is refused, eleven times or once. -/
theorem addChecksum_zoologie : zoologie ∈ sampleTables.french.words ∧
    mnemonicAddChecksum sampleTables 2 ([space].intercalate (List.replicate 11 zoologie)) [] =
      mnemonicError (.unknownWord zoologie) := by
  have hmem : zoologie ∈ sampleTables.french.words := french_lastWord ▸ WordList.lastWord_mem
  have hnot : zoologie ∉ sampleTables.french.lines := by
    rw [WordList.mem_lines_iff hmem, french_lastWord]
    exact fun h => h.elim Bool.false_ne_true fun h => h rfl
  have hwords : ∀ w ∈ List.replicate 11 zoologie, w ∈ sampleTables.french.words :=
    fun w hw => List.eq_of_mem_replicate hw ▸ hmem
  have hunknown : ∃ w ∈ List.replicate 11 zoologie, w ∉ sampleTables.french.lines :=
    ⟨zoologie, List.mem_replicate.mpr ⟨by decide, rfl⟩, hnot⟩
  obtain ⟨w, hw, -, hfail⟩ := decodeWords_unknown true hunknown
  rw [List.eq_of_mem_replicate hw] at hfail
  have hdecode := mnemonicDecode_words (T := sampleTables) (l := 2) rfl (Or.inl rfl) hwords
    (spaced_short (n := 33) (by decide) (by decide) fun w hw => List.eq_of_mem_replicate hw ▸ by decide) true
  apply And.intro hmem
  show mnemonicDecode sampleTables 2 _ true >>= _ = _
  exact congrArg (· >>= _) (hdecode.trans hfail)

end AddChecksum

end AliasWallet
