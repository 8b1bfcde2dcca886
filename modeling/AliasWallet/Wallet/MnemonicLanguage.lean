import AliasWallet.Lib.Eval
import AliasWallet.Wallet.MnemonicRoundTrip

/-!
# The language of a phrase

`MnemonicDetectLanguage` takes the first list that has most of the first five words. What a phrase decodes to without
its language is compared with what it decodes to in its own one: the lists share words.
-/

namespace AliasWallet
open Lib

section Detect

variable {T : LanguageTables} {W D : WordList} {ws : List Bytes} {phrase s : Bytes} {d : Nat}

local instance lawfulWords : LawfulBEq Bytes := List.instLawfulBEq

/-- Most of the first five words are in the list. -/
def HasMajority (D : WordList) (ws : List Bytes) : Prop :=
  (ws.take 5).length < 2 * (ws.take 5).countP (· ∈ D.lines)

instance (D : WordList) (ws : List Bytes) : Decidable (HasMajority D ws) := inferInstanceAs (Decidable (_ < _))

/-- Words that are found count as hits and the others as misses, `maxTries + 1` words in all. -/
theorem countHits_text (t nHit nMiss : Nat) (ws : List Bytes) :
    countHits D.text t nHit nMiss ws =
      (nHit + (ws.take (t + 1)).countP (· ∈ D.lines),
        nMiss + ((ws.take (t + 1)).length - (ws.take (t + 1)).countP (· ∈ D.lines))) := by
  induction ws generalizing t nHit nMiss with
  | nil => simp [countHits]
  | cons p ps ih =>
    have hle : (ps.take t).countP (· ∈ D.lines) ≤ (ps.take t).length := List.countP_le_length
    have hsome : (getWordOffset p D.text).isSome = true ↔ p ∈ D.lines := by
      rw [D.getWordOffset_text, List.isSome_idxOf?]
    rw [List.take_succ_cons, List.length_cons]
    by_cases hp : p ∈ D.lines
    · rw [List.countP_cons_of_pos (by simpa using hp)]
      cases t with
      | zero => rw [countHits, if_pos (hsome.mpr hp)]; simp
      | succ t =>
        rw [countHits, if_pos (hsome.mpr hp), ih, Prod.mk.injEq]
        omega
    · rw [List.countP_cons_of_neg (by simpa using hp)]
      cases t with
      | zero => rw [countHits, if_neg (fun h => hp (hsome.mp h))]; simp
      | succ t =>
        rw [countHits, if_neg (fun h => hp (hsome.mp h)), ih, Prod.mk.injEq]
        omega

theorem hasMoreHits_text : hasMoreHits D.text s = decide (HasMajority D (phraseWords s)) := by
  have hle : ((phraseWords s).take 5).countP (· ∈ D.lines) ≤ ((phraseWords s).take 5).length := List.countP_le_length
  rw [hasMoreHits, countHits_text, show 4 + 1 = 5 from rfl]
  dsimp only
  rw [decide_eq_decide, HasMajority]
  omega

/-- The loop stops at the first text with more hits. -/
theorem detectFrom_spec (l : Int) (texts : List Bytes) :
    (∃ (i : Nat) (t : Bytes), texts[i]? = some t ∧ detectFrom s l texts = l + i ∧ hasMoreHits t s = true ∧
      ∀ (j : Nat) (u : Bytes), j < i → texts[j]? = some u → hasMoreHits u s = false) ∨
    (detectFrom s l texts = 0 ∧ ∀ t ∈ texts, hasMoreHits t s = false) := by
  induction texts generalizing l with
  | nil => exact Or.inr ⟨rfl, fun t ht => absurd ht List.not_mem_nil⟩
  | cons t texts ih =>
    by_cases ht : hasMoreHits t s = true
    · apply Or.inl
      apply Exists.intro 0
      apply Exists.intro t
      rw [detectFrom, if_pos ht]
      exact ⟨rfl, by simp, ht, fun j u hj => absurd hj (by omega)⟩
    · rw [detectFrom, if_neg ht]
      cases ih (l + 1) with
      | inl h =>
        obtain ⟨i, u, hu, hdetect, hmore, hbefore⟩ := h
        apply Or.inl
        apply Exists.intro (i + 1)
        apply Exists.intro u
        apply And.intro hu
        apply And.intro (by rw [hdetect]; push_cast; omega)
        apply And.intro hmore
        intro j v hj hv
        cases j with
        | zero => rw [← Option.some.inj hv]; simpa using ht
        | succ j => exact hbefore j v (by omega) hv
      | inr h =>
        apply Or.inr
        apply And.intro h.1
        intro u hu
        rw [List.mem_cons] at hu
        cases hu with
        | inl hu => rw [hu]; simpa using ht
        | inr hu => exact h.2 u hu

/-- The language of words: the first whose list has most of the first five. -/
def DetectedAs (T : LanguageTables) (ws : List Bytes) (d : Nat) (D : WordList) : Prop :=
  T.wordList d = some D ∧ HasMajority D ws ∧ ∀ d' D', d' < d → T.wordList d' = some D' → ¬ HasMajority D' ws

theorem mnLanguages_tail (T : LanguageTables) (i : Nat) :
    (mnLanguages T).tail[i]? = (T.wordList (i + 1)).map WordList.text := by
  match i with
  | 0 | 1 | 2 | 3 | 4 | 5 => rfl
  | _ + 6 => rfl

theorem mnemonicDetectLanguage_spec (T : LanguageTables) (hlen : s.length < 2048) :
    (∃ d D, DetectedAs T (phraseWords s) d D ∧ mnemonicDetectLanguage T s = d) ∨
    (mnemonicDetectLanguage T s = 0 ∧ ∀ d D, T.wordList d = some D → ¬ HasMajority D (phraseWords s)) := by
  rw [mnemonicDetectLanguage, if_neg (by omega)]
  cases detectFrom_spec (s := s) 1 (mnLanguages T).tail with
  | inl h =>
    obtain ⟨i, t, ht, hdetect, hmore, hbefore⟩ := h
    rw [mnLanguages_tail, Option.map_eq_some_iff] at ht
    obtain ⟨D, hD, rfl⟩ := ht
    apply Or.inl
    apply Exists.intro (i + 1)
    apply Exists.intro D
    rw [hasMoreHits_text, decide_eq_true_iff] at hmore
    refine ⟨⟨hD, hmore, ?_⟩, by rw [hdetect]; push_cast; omega⟩
    intro d' D' hd' hD'
    have hrange := range_of_wordList hD'
    have hfalse := hbefore (d' - 1) D'.text (by omega) (by
      rw [mnLanguages_tail, show d' - 1 + 1 = d' by omega, hD']
      rfl)
    rwa [hasMoreHits_text, decide_eq_false_iff_not] at hfalse
  | inr h =>
    apply Or.inr
    apply And.intro h.1
    intro d D hD
    have hrange := range_of_wordList hD
    have hmem : D.text ∈ (mnLanguages T).tail := by
      apply List.mem_of_getElem? (i := d - 1)
      rw [mnLanguages_tail, show d - 1 + 1 = d by omega, hD]
      rfl
    have hfalse := h.2 D.text hmem
    rwa [hasMoreHits_text, decide_eq_false_iff_not] at hfalse

theorem DetectedAs.unique {d' : Nat} {D' : WordList} (h : DetectedAs T ws d D) (h' : DetectedAs T ws d' D') :
    d = d' ∧ D = D' := by
  have hd : d = d' := by
    by_contra hne
    by_cases hlt : d < d'
    · exact h'.2.2 d D hlt h.1 h.2.1
    · exact h.2.2 d' D' (by omega) h'.1 h'.2.1
  subst hd
  exact ⟨rfl, Option.some.inj (h.1.symm.trans h'.1)⟩

end Detect

section Decode

variable {T : LanguageTables} {W D : WordList} {ws : List Bytes} {phrase vEntropy : Bytes} {d : Nat} {fIgnore : Bool}

/-- A phrase of 2048 bytes or more is not decoded. -/
theorem mnemonicDecode_long (nLanguage : Int) (fIgnore : Bool) (hlen : ¬ (spaced phrase).length < 2048) :
    ∃ e, mnemonicDecode T nLanguage phrase fIgnore = mnemonicError e := by
  rw [mnemonicDecode, ← spaced]
  dsimp only
  generalize (if nLanguage = -1 then mnemonicDetectLanguage T (spaced phrase) else nLanguage) = n
  by_cases hn : n < 1 ∨ n > WLL_MAX
  · rw [if_pos hn]
    exact ⟨_, rfl⟩
  · rw [if_neg hn, if_pos (by omega)]
    exact ⟨_, rfl⟩

theorem spaced_short_of_ok {nLanguage : Int} (h : mnemonicDecode T nLanguage phrase fIgnore = .ok vEntropy) :
    (spaced phrase).length < 2048 := by
  by_contra hlen
  obtain ⟨e, he⟩ := mnemonicDecode_long (T := T) nLanguage fIgnore hlen
  rw [he] at h
  exact absurd h (by simp [mnemonicError])

/-- Without a language the phrase is decoded in the one that is detected. -/
theorem mnemonicDecode_detected (hlen : (spaced phrase).length < 2048)
    (hd : DetectedAs T (phraseWords (spaced phrase)) d D) :
    mnemonicDecode T (-1) phrase fIgnore = decodeWords D (phraseWords (spaced phrase)) fIgnore := by
  have hdetect : mnemonicDetectLanguage T (spaced phrase) = d := by
    cases mnemonicDetectLanguage_spec T hlen with
    | inl h =>
      obtain ⟨d', D', h', hdetect⟩ := h
      rw [hdetect, (hd.unique h').1]
    | inr h => exact absurd hd.2.1 (h.2 d D hd.1)
  have hrange := range_of_wordList hd.1
  rw [← mnemonicDecode_language hd.1 hlen, mnemonicDecode, mnemonicDecode]
  dsimp only
  rw [if_pos rfl, if_neg (by omega : ¬ (d : Int) = -1), ← spaced, hdetect]

theorem mnemonicDecode_undetected (hlen : (spaced phrase).length < 2048)
    (hd : ∀ d D, ¬ DetectedAs T (phraseWords (spaced phrase)) d D) :
    mnemonicDecode T (-1) phrase fIgnore = mnemonicError .unknownLanguage := by
  cases mnemonicDetectLanguage_spec T hlen with
  | inl h =>
    obtain ⟨d, D, h, -⟩ := h
    exact absurd h (hd d D)
  | inr h =>
    rw [mnemonicDecode]
    dsimp only
    rw [if_pos rfl, ← spaced, h.1, if_pos (Or.inl (by decide))]

/-- The words are at positions with the same bits in both lists, as far as decoding looks at them. -/
def SamePositions (D W : WordList) (ws : List Bytes) : Prop :=
  (packedBytes (positions D ws)).take (readBytes (ws.length * 11)) =
    (packedBytes (positions W ws)).take (readBytes (ws.length * 11))

/-- For phrases of up to 96 words these are the same positions. -/
theorem samePositions_iff (hlen : ws.length ≤ 96) (hthree : ws.length % 3 = 0) (hD : ∀ w ∈ ws, w ∈ D.words)
    (hW : ∀ w ∈ ws, w ∈ W.words) : SamePositions D W ws ↔ ∀ w ∈ ws, D.words.idxOf w = W.words.idxOf w := by
  have hlenD : (positions D ws).length = ws.length := by rw [positions, List.length_map]
  have hlenW : (positions W ws).length = ws.length := by rw [positions, List.length_map]
  constructor
  · intro hsame
    have hread : 11 * ws.length ≤ 8 * readBytes (ws.length * 11) := by
      by_cases hlast : ws.length = 96
      · rw [hlast]
        decide
      · have hsum := bytesFor_le (ws.length * 11 / 32)
        have hbits : ws.length * 11 / 32 = ws.length / 3 := by omega
        rw [hbits] at hsum
        rw [readBytes, entropyBytes, hbits]
        omega
    have heq : positions D ws = positions W ws := by
      apply groups_ext (w := 11) (by rw [hlenD, hlenW]) (positions_lt hD) (positions_lt hW)
      intro p hp
      rw [hlenD] at hp
      have hbit := congrArg (fun v => groupBit 8 (byteValues v) p) hsame
      simp only [byteValues_take] at hbit
      rwa [groupBit_take (by omega), groupBit_take (by omega), groupBit_packedBytes, groupBit_packedBytes] at hbit
    intro w hw
    exact List.map_inj_left.mp heq w hw
  · intro h
    rw [SamePositions, positions, positions, List.map_congr_left h]

/-- A phrase that decodes has no more checksum than there is hash. -/
theorem bytesFor_le_of_ok (hok : decodeWords W ws false = .ok vEntropy) : bytesFor (ws.length * 11 / 32) ≤ 32 := by
  by_contra hsum
  by_cases hws : ∀ w ∈ ws, w ∈ W.lines
  · rw [decodeWords_positions hws] at hok
    by_cases hthree : ws.length % 3 = 0
    · rw [if_neg (by simp [hthree]), if_neg Bool.false_ne_true, checkChecksum] at hok
      dsimp only at hok
      split at hok
      · exact absurd hok (by simp)
      · rw [if_pos (by rw [sha256_length]; omega)] at hok
        exact absurd hok (by simp)
    · rw [if_pos ⟨rfl, hthree⟩] at hok
      exact absurd hok (by simp [mnemonicError])
  · have hunknown : ∃ w ∈ ws, w ∉ W.lines := by simpa using hws
    obtain ⟨w, -, -, hfail⟩ := decodeWords_unknown false hunknown
    rw [hfail] at hok
    exact absurd hok (by simp [mnemonicError])

theorem ChecksumMatches.congr {v u e : Bytes} {nBits : Nat} (h : v.take (readBytes nBits) = u.take (readBytes nBits))
    (hv : ChecksumMatches v e nBits) : ChecksumMatches u e nBits := by
  intro p hp
  have hbit := congrArg (fun v => groupBit 8 (byteValues v) (8 * entropyBytes nBits + p)) h
  simp only [byteValues_take] at hbit
  rw [groupBit_take (by rw [readBytes]; omega), groupBit_take (by rw [readBytes]; omega)] at hbit
  rw [← hbit]
  exact hv p hp

/-- Decoding in both lists gives the same entropy only for words at the same positions. -/
theorem decodeWords_same_iff (hok : decodeWords W ws false = .ok vEntropy) (hD : ∀ w ∈ ws, w ∈ D.lines) :
    decodeWords D ws false = .ok vEntropy ↔ SamePositions D W ws := by
  have hsum := bytesFor_le_of_ok hok
  rw [decodeWords_ok_iff hsum] at hok ⊢
  obtain ⟨-, hthree, hentropy, hmatch⟩ := hok
  have hlen : (packedBytes (positions D ws)).length = (packedBytes (positions W ws)).length := by
    rw [packedBytes_length, packedBytes_length, positions, positions, List.length_map, List.length_map]
  have hle : entropyBytes (ws.length * 11) ≤ readBytes (ws.length * 11) := Nat.le_add_right _ _
  constructor
  · intro h
    obtain ⟨-, -, hentropy', hmatch'⟩ := h
    have htake := hentropy'.symm.trans hentropy
    apply bytes_ext (by rw [List.length_take, List.length_take, hlen])
    intro p hp
    rw [List.length_take] at hp
    rw [byteValues_take, byteValues_take, groupBit_take (by omega), groupBit_take (by omega)]
    by_cases hlow : p < 8 * entropyBytes (ws.length * 11)
    · have hbit := congrArg (fun v => groupBit 8 (byteValues v) p) htake
      simp only [byteValues_take] at hbit
      rwa [groupBit_take hlow, groupBit_take hlow] at hbit
    · obtain ⟨q, rfl⟩ := Nat.exists_eq_add_of_le (Nat.le_of_not_lt hlow)
      have hq : q < 8 * bytesFor (ws.length * 11 / 32) := by rw [readBytes] at hp; omega
      rw [hmatch' q hq, hmatch q hq]
  · intro hsame
    apply And.intro hD
    apply And.intro hthree
    have htake := congrArg (List.take (entropyBytes (ws.length * 11))) hsame
    rw [List.take_take, List.take_take, Nat.min_eq_left hle] at htake
    exact ⟨hentropy.trans htake.symm, ChecksumMatches.congr hsame.symm hmatch⟩

/-- A phrase that decodes to entropy in its language decodes to it without the language exactly when the list that is
detected has all its words, at the same positions. -/
theorem detectLanguage_agrees_iff (T : LanguageTables) (l : Nat) (W : WordList) (hW : T.wordList l = some W)
    (vEntropy phrase : Bytes) (hdecode : mnemonicDecode T l phrase false = .ok vEntropy) :
    mnemonicDecode T (-1) phrase false = .ok vEntropy ↔
      ∃ d D, DetectedAs T (phraseWords (spaced phrase)) d D ∧ (∀ w ∈ phraseWords (spaced phrase), w ∈ D.lines) ∧
        SamePositions D W (phraseWords (spaced phrase)) := by
  have hlen := spaced_short_of_ok hdecode
  rw [mnemonicDecode_language hW hlen] at hdecode
  by_cases hdetect : ∃ d D, DetectedAs T (phraseWords (spaced phrase)) d D
  · obtain ⟨d, D, hd⟩ := hdetect
    rw [mnemonicDecode_detected hlen hd]
    constructor
    · intro h
      have hD : ∀ w ∈ phraseWords (spaced phrase), w ∈ D.lines :=
        ((decodeWords_ok_iff (bytesFor_le_of_ok h)).mp h).1
      exact ⟨d, D, hd, hD, (decodeWords_same_iff hdecode hD).mp h⟩
    · intro h
      obtain ⟨d', D', hd', hD', hsame⟩ := h
      obtain ⟨-, rfl⟩ := hd.unique hd'
      exact (decodeWords_same_iff hdecode hD').mpr hsame
  · have hnone : ∀ d D, ¬ DetectedAs T (phraseWords (spaced phrase)) d D := fun d D h => hdetect ⟨d, D, h⟩
    rw [mnemonicDecode_undetected hlen hnone]
    apply iff_of_false
    · simp [mnemonicError]
    · intro h
      obtain ⟨d, D, hd, -⟩ := h
      exact hnone d D hd

theorem hasMajority_of_all (hne : ws ≠ []) (hws : ∀ w ∈ ws, w ∈ D.lines) : HasMajority D ws := by
  have hcount : (ws.take 5).countP (· ∈ D.lines) = (ws.take 5).length := by
    rw [List.countP_eq_length]
    intro w hw
    exact decide_eq_true (hws w (List.mem_of_mem_take hw))
  have hpos : 0 < (ws.take 5).length := by
    rw [List.length_take]
    have := List.length_pos_iff.mpr hne
    omega
  rw [HasMajority, hcount]
  omega

theorem not_hasMajority_of_none (hws : ∀ w ∈ ws.take 5, w ∉ D.lines) : ¬ HasMajority D ws := by
  have hcount : (ws.take 5).countP (· ∈ D.lines) = 0 := by
    rw [List.countP_eq_zero]
    intro w hw
    simpa using hws w hw
  rw [HasMajority, hcount]
  omega

theorem detectLanguage_agrees_english :
    ∃ phrase, mnemonicDecode sampleTables 1 phrase false = .ok (List.replicate 16 0) ∧
      mnemonicDecode sampleTables (-1) phrase false = .ok (List.replicate 16 0) := by
  have hos : ∀ o ∈ encodedWords (List.replicate 16 0), o < sampleTables.english.lines.length := by
    rw [WordList.lines_length rfl]
    exact encodedWords_lt
  have hlines := wordsAt_lines hos
  have hwords : ∀ w ∈ wordsAt sampleTables.english (encodedWords (List.replicate 16 0)),
      w ∈ sampleTables.english.words :=
    fun w hw => WordList.mem_words_of_mem_lines (hlines w hw)
  have hcount : (wordsAt sampleTables.english (encodedWords (List.replicate 16 0))).length = 12 := by
    rw [wordsAt, List.length_map, encodedWords_length]
    rfl
  have hbound := intercalate_length_bound [space] fun w hw => sampleTables_english_length w (hwords w hw)
  rw [hcount] at hbound
  have hlen := hbound.trans_lt (by decide : 12 * (39 + [space].length) < 2048)
  have hdecode := (mnemonicDecode_words (T := sampleTables) (l := 1) rfl (Or.inl rfl) hwords hlen false).trans
    (decodeWords_encodedWords (m := 4) rfl (by decide) hos)
  have hspaced := replaceStr_phrase (Or.inl rfl) hwords
  have hphrase := phraseWords_intercalate hwords
  apply Exists.intro _
  apply And.intro hdecode
  apply (detectLanguage_agrees_iff sampleTables 1 sampleTables.english rfl (List.replicate 16 0) _ hdecode).mpr
  rw [spaced, hspaced, hphrase]
  have hne : wordsAt sampleTables.english (encodedWords (List.replicate 16 0)) ≠ [] := by
    intro h
    rw [h] at hcount
    exact absurd hcount (by decide)
  refine ⟨1, sampleTables.english, ⟨rfl, hasMajority_of_all hne hlines, ?_⟩, hlines, rfl⟩
  intro d D hd hD
  exact absurd (range_of_wordList hD).1 (by omega)

end Decode

section Chinese

/-- The first word of both Chinese lists. -/
def sharedWord : Bytes := [0xe7, 0x9a, 0x84]

/-- A word of the traditional list only. -/
def traditionalWord : Bytes := [0xe9, 0x80, 0x99]

/-- Entropy that makes ten times the word 0 and twice the word 9. -/
def chineseEntropy : Bytes := List.replicate 14 0 ++ [0x04, 0x80]

theorem encodedWords_chinese : encodedWords chineseEntropy = List.replicate 10 0 ++ [9, 9] := by
  rw [encodedWords, encodeInput, sha256_eq_eval]
  decide +kernel

def chineseWords : List Bytes := List.replicate 10 sharedWord ++ [traditionalWord, traditionalWord]

def chinesePhrase : Bytes := [space].intercalate chineseWords

theorem wordsAt_chinese : wordsAt sampleTables.chineseTraditional (encodedWords chineseEntropy) = chineseWords := by
  have h0 : sampleTables.chineseTraditional.words.getD 0 [] = sharedWord :=
    sampleList_getD (by decide) (by decide) (by decide)
  have h9 : sampleTables.chineseTraditional.words.getD 9 [] = traditionalWord :=
    sampleList_getD (by decide) (by decide) (by decide)
  rw [encodedWords_chinese, wordsAt, List.map_append, List.map_replicate, List.map_cons, List.map_singleton, h0, h9]
  rfl

theorem sharedWord_simplified : sharedWord ∈ sampleTables.chineseSimplified.lines := by
  have h0 : sampleTables.chineseSimplified.words.getD 0 [] = sharedWord :=
    sampleList_getD (by decide) (by decide) (by decide)
  have hlen : 0 < sampleTables.chineseSimplified.words.length := by rw [WordList.words_length]; decide
  have hnewline : sampleTables.chineseSimplified.newlineAtEnd = true := rfl
  rw [WordList.lines, if_pos hnewline, ← h0, List.getD_eq_getElem _ _ hlen]
  exact List.getElem_mem hlen

/-- Most of the first words are in the simplified list, and none in the lists before it. -/
theorem detectedAs_chinese : DetectedAs sampleTables chineseWords 5 sampleTables.chineseSimplified := by
  have htake : chineseWords.take 5 = List.replicate 5 sharedWord := rfl
  apply And.intro rfl
  constructor
  · rw [HasMajority, htake, List.countP_replicate, if_pos (decide_eq_true sharedWord_simplified)]
    decide
  · intro d D hd hD
    have hnone : sharedWord ∉ D.lines := by
      rcases wordList_lt_five hD hd with h | h | h | h
      · rw [h]; exact not_mem_sampleList (by decide) (by decide) (by decide) (by decide)
      · rw [h]; exact not_mem_sampleList (by decide) (by decide) (by decide) (by decide)
      · rw [h]; exact not_mem_sampleList (by decide) (by decide) (by decide) (by decide)
      · rw [h]; exact not_mem_sampleList (by decide) (by decide) (by decide) (by decide)
    apply not_hasMajority_of_none
    rw [htake]
    intro w hw
    rwa [List.eq_of_mem_replicate hw]

/-- A traditional phrase is taken for a simplified one, and its words are not found there. -/
theorem chinesePhrase_misdetected :
    mnemonicEncode sampleTables 6 chineseEntropy [] = .ok chinesePhrase ∧
    mnemonicDecode sampleTables 6 chinesePhrase false = .ok chineseEntropy ∧
    mnemonicDecode sampleTables (-1) chinesePhrase false = mnemonicError (.unknownWord traditionalWord) := by
  have hos : ∀ o ∈ encodedWords chineseEntropy, o < sampleTables.chineseTraditional.lines.length := by
    rw [WordList.lines_length rfl]
    exact encodedWords_lt
  have hencode := mnemonicEncode_ok (T := sampleTables) (l := 6) rfl (by decide) (by decide) hos
  have hback := decodeWords_encodedWords (m := 4) rfl (by decide) hos
  have hwords := wordsAt_lines hos
  rw [wordsAt_chinese] at hencode hback hwords
  have hlen : ([space].intercalate chineseWords).length < 2048 := by decide
  have hmem : ∀ w ∈ chineseWords, w ∈ sampleTables.chineseTraditional.words :=
    fun w hw => WordList.mem_words_of_mem_lines (hwords w hw)
  have hdecode := mnemonicDecode_words (T := sampleTables) (l := 6) rfl (Or.inl rfl) hmem hlen false
  apply And.intro hencode
  apply And.intro (hdecode.trans hback)
  have hspaced : spaced chinesePhrase = [space].intercalate chineseWords := replaceStr_phrase (Or.inl rfl) hmem
  have hphrase : phraseWords (spaced chinesePhrase) = chineseWords := by rw [hspaced, phraseWords_intercalate hmem]
  have hdetected := detectedAs_chinese
  rw [← hphrase] at hdetected
  rw [mnemonicDecode_detected (by rw [hspaced]; exact hlen) hdetected, hphrase]
  have hnot : traditionalWord ∉ sampleTables.chineseSimplified.lines :=
    not_mem_sampleList (by decide) (by decide) (by decide) (by decide)
  have hexists : ∃ w ∈ chineseWords, w ∉ sampleTables.chineseSimplified.lines := ⟨traditionalWord, by decide, hnot⟩
  obtain ⟨w, hw, hunknown, hfail⟩ := decodeWords_unknown false hexists
  rw [hfail]
  rw [chineseWords, List.mem_append, List.mem_cons, List.mem_singleton] at hw
  cases hw with
  | inl hw => exact absurd (List.eq_of_mem_replicate hw ▸ sharedWord_simplified) hunknown
  | inr hw => rw [hw.elim id id]

end Chinese

end AliasWallet
