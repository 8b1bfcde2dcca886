import AliasWallet.Wallet.MnemonicLanguage
import Mathlib.Algebra.Order.BigOperators.Group.List
import Mathlib.Data.Nat.Cast.Basic

/-!
# Reads of the mnemonic functions

Where the functions read outside of the language tables, the word lists, the entropy and the hash. The language is
compared with `WLL_MAX` as if that were a language, and the 32 bytes behind long entropy do not hold its last word.
-/

namespace AliasWallet
open Lib

section Tokens

variable {s : Bytes} {ws : List Bytes}

/-- Words with spaces between them are not longer than the text they come from. -/
theorem intercalate_length (hne : ws ≠ []) :
    ([space].intercalate ws).length + 1 = (ws.map fun w => w.length + 1).sum := by
  induction ws with
  | nil => exact absurd rfl hne
  | cons w ws ih =>
    cases ws with
    | nil => simp
    | cons next ws =>
      have hrest := ih (by simp)
      rw [List.intercalate_cons_cons, List.map_cons, List.sum_cons, ← hrest]
      simp only [List.length_append, List.length_singleton]
      omega

theorem phraseWords_length : ((phraseWords s).map fun w => w.length + 1).sum ≤ s.length + 1 := by
  have hne := List.splitOn_ne_nil space (cString s)
  have hsum := intercalate_length hne
  have hcstring : (cString s).length ≤ s.length := (List.takeWhile_prefix _).length_le
  have hsub : (phraseWords s).Sublist ((cString s).splitOn space) := List.filter_sublist
  have hle := (hsub.map fun w => w.length + 1).sum_le_sum fun _ _ => Nat.zero_le _
  rw [List.intercalate_splitOn] at hsum
  omega

/-- The number of words of two letters or more in a phrase. -/
theorem phraseWords_count (hws : ∀ w ∈ phraseWords s, 2 ≤ w.length) : 3 * (phraseWords s).length ≤ s.length + 1 := by
  have hmin : ((phraseWords s).map fun w => w.length + 1).length • 3 ≤
      ((phraseWords s).map fun w => w.length + 1).sum := by
    apply List.card_nsmul_le_sum
    intro n hn
    obtain ⟨w, hw, rfl⟩ := List.mem_map.mp hn
    have := hws w hw
    omega
  rw [List.length_map, nsmul_eq_mul, Nat.cast_id, Nat.mul_comm] at hmin
  exact hmin.trans phraseWords_length

end Tokens

section Encode

variable {T : LanguageTables} {W : WordList} {l : Nat} {vEntropy s : Bytes} {os : List Nat}

theorem appendWords_reads (os : List Nat) (s : Bytes) : appendWords W.text os s ≠ .error .outOfBounds := by
  induction os generalizing s with
  | nil => simp [appendWords]
  | cons o os ih =>
    rw [appendWords, W.getWord_text, ok_bind]
    cases W.lines[o]? with
    | none => simp [mnemonicError]
    | some w => exact ih _

/-- The last group of eleven bits ends behind the 32 bytes that follow the entropy. -/
def EncodeOverreads (nBytes : Nat) : Prop := 8 * (nBytes + 32) < 11 * wordTotal nBytes

instance (nBytes : Nat) : Decidable (EncodeOverreads nBytes) := inferInstanceAs (Decidable (_ < _))

/-- `MnemonicEncode` reads outside for a language behind the tables and for long entropy. -/
theorem mnemonicEncode_reads (T : LanguageTables) (nLanguage : Int) (vEntropy s : Bytes) :
    mnemonicEncode T nLanguage vEntropy s = .error .outOfBounds ↔
      (1 ≤ nLanguage ∧ nLanguage ≤ 7) ∧ (1 ≤ checksumSize vEntropy.length ∧ checksumSize vEntropy.length ≤ 256) ∧
        (nLanguage = 7 ∨ EncodeOverreads vEntropy.length) := by
  rw [mnemonicEncode]
  by_cases hlang : nLanguage < 1 ∨ nLanguage > WLL_MAX
  · have hnot : ¬ (1 ≤ nLanguage ∧ nLanguage ≤ 7) := by rw [WLL_MAX] at hlang; omega
    rw [if_pos hlang]
    apply iff_of_false
    · simp [mnemonicError]
    · exact fun h => hnot h.1
  have hrange : 1 ≤ nLanguage ∧ nLanguage ≤ 7 := by rw [WLL_MAX] at hlang; omega
  rw [if_neg hlang, and_iff_right hrange]
  dsimp only
  by_cases hsize : checksumSize vEntropy.length < 1 ∨ checksumSize vEntropy.length > 256
  · rw [if_pos hsize]
    apply iff_of_false
    · simp [mnemonicError]
    · intro h
      omega
  have hsize' : 1 ≤ checksumSize vEntropy.length ∧ checksumSize vEntropy.length ≤ 256 := by omega
  have hlen : (encodeInput vEntropy (checksumSize vEntropy.length)).length = vEntropy.length + 32 :=
    encodeInput_length hsize'.2
  rw [if_neg hsize, and_iff_right hsize']
  by_cases hread : EncodeOverreads vEntropy.length
  · rw [encodeWords_outOfBounds (by rw [hlen]; exact hread), error_bind]
    exact iff_of_true rfl (Or.inr hread)
  · have hwords : 11 * wordTotal vEntropy.length ≤ 8 * (vEntropy.length + 32) := by
      rw [EncodeOverreads] at hread
      omega
    rw [encodeWords_eq (by rw [hlen]; exact hwords), ok_bind]
    by_cases hseven : nLanguage = 7
    · subst hseven
      exact iff_of_true rfl (Or.inl rfl)
    · obtain ⟨W, hW⟩ := wordList_of_range T (l := nLanguage.toNat) (by omega)
      rw [readLanguage_wordList hW, ok_bind]
      apply iff_of_false
      · intro h
        cases happend : appendWords W.text (regroup 8 11 ((
            (vEntropy.length * 8 + checksumSize vEntropy.length) % 2 ^ 32 + 10) / 11)
            (byteValues (encodeInput vEntropy (checksumSize vEntropy.length)))) s with
        | error e =>
          rw [happend, error_bind] at h
          exact appendWords_reads _ _ (happend.trans (congrArg Except.error (Except.error.inj h)))
        | ok out =>
          rw [happend, ok_bind] at h
          exact absurd h (by simp [pure, Except.pure])
      · exact fun h => h.elim hseven hread

end Encode

section Decode

variable {T : LanguageTables} {W : WordList} {l : Nat} {ws : List Bytes} {phrase : Bytes} {fIgnore : Bool}

/-- The words of all lists have two bytes or more. -/
def LongWords (T : LanguageTables) : Prop := ∀ l W, T.wordList l = some W → ∀ w ∈ W.words, 2 ≤ w.length

/-- So few words that the hash has their checksum. -/
theorem decodeWords_reads (hcount : ws.length ≤ 700) : decodeWords W ws fIgnore ≠ .error .outOfBounds := by
  by_cases hws : ∀ w ∈ ws, w ∈ W.lines
  · rw [decodeWords_positions hws]
    have hsum : bytesFor (ws.length * 11 / 32) ≤ 32 := by rw [bytesFor]; split <;> omega
    have hread : readBytes (ws.length * 11) ≤ (packedBytes (positions W ws)).length := by
      rw [packedBytes_length, positions, List.length_map]
      exact readBytes_le _
    obtain ⟨hok, hfail⟩ := checkChecksum_eq hread hsum
    split
    · simp [mnemonicError]
    split
    · simp
    · by_cases hmatch : ChecksumMatches (packedBytes (positions W ws))
          ((packedBytes (positions W ws)).take (entropyBytes (ws.length * 11))) (ws.length * 11)
      · rw [hok hmatch]
        simp
      · rw [hfail hmatch]
        simp [mnemonicError]
  · have hunknown : ∃ w ∈ ws, w ∉ W.lines := by simpa using hws
    obtain ⟨w, -, -, hfail⟩ := decodeWords_unknown fIgnore hunknown
    rw [hfail]
    simp [mnemonicError]

/-- The words of a short phrase: either one is unknown, or there are few of them. -/
theorem phraseWords_few (hlong : LongWords T) (hW : T.wordList l = some W) (hlen : (spaced phrase).length < 2048)
    (hws : ∀ w ∈ phraseWords (spaced phrase), w ∈ W.lines) : (phraseWords (spaced phrase)).length ≤ 682 := by
  have hcount := phraseWords_count fun w hw => hlong l W hW w (WordList.mem_words_of_mem_lines (hws w hw))
  omega

theorem decodeWords_phrase_reads (hlong : LongWords T) (hW : T.wordList l = some W)
    (hlen : (spaced phrase).length < 2048) :
    decodeWords W (phraseWords (spaced phrase)) fIgnore ≠ .error .outOfBounds := by
  by_cases hws : ∀ w ∈ phraseWords (spaced phrase), w ∈ W.lines
  · exact decodeWords_reads ((phraseWords_few hlong hW hlen hws).trans (by decide))
  · have hunknown : ∃ w ∈ phraseWords (spaced phrase), w ∉ W.lines := by simpa using hws
    obtain ⟨w, -, -, hfail⟩ := decodeWords_unknown fIgnore hunknown
    rw [hfail]
    simp [mnemonicError]

/-- `MnemonicDecode` reads outside for a language behind the tables only. -/
theorem mnemonicDecode_reads (hlong : LongWords T) (nLanguage : Int) (phrase : Bytes) (fIgnore : Bool) :
    mnemonicDecode T nLanguage phrase fIgnore = .error .outOfBounds ↔
      nLanguage = 7 ∧ (spaced phrase).length < 2048 := by
  by_cases hlen : (spaced phrase).length < 2048
  · rw [and_iff_left hlen]
    by_cases hseven : nLanguage = 7
    · subst hseven
      apply iff_of_true _ rfl
      rw [mnemonicDecode, ← spaced]
      dsimp only
      rw [if_neg (by decide : ¬ (7 : Int) = -1), if_neg (by decide), if_neg (by omega)]
      rfl
    · apply iff_of_false _ hseven
      by_cases hauto : nLanguage = -1
      · subst hauto
        by_cases hdetect : ∃ d D, DetectedAs T (phraseWords (spaced phrase)) d D
        · obtain ⟨d, D, hd⟩ := hdetect
          rw [mnemonicDecode_detected hlen hd]
          exact decodeWords_phrase_reads hlong hd.1 hlen
        · rw [mnemonicDecode_undetected hlen fun d D h => hdetect ⟨d, D, h⟩]
          simp [mnemonicError]
      · by_cases hrange : 1 ≤ nLanguage ∧ nLanguage ≤ 6
        · obtain ⟨W, hW⟩ := wordList_of_range T (l := nLanguage.toNat) (by omega)
          have hdecode : mnemonicDecode T (nLanguage.toNat : Int) phrase fIgnore = _ := mnemonicDecode_language hW hlen
          rw [Int.toNat_of_nonneg (by omega)] at hdecode
          rw [hdecode]
          exact decodeWords_phrase_reads hlong hW hlen
        · rw [mnemonicDecode]
          dsimp only
          rw [if_neg hauto, if_pos (by rw [WLL_MAX]; omega)]
          simp [mnemonicError]
  · apply iff_of_false _ fun h => hlen h.2
    obtain ⟨e, he⟩ := mnemonicDecode_long (T := T) nLanguage fIgnore hlen
    rw [he]
    simp [mnemonicError]

/-- A phrase that decodes does so with one of the six lists. -/
theorem mnemonicDecode_ok_words {nLanguage : Int} {v : Bytes} (hseven : nLanguage ≠ 7)
    (hok : mnemonicDecode T nLanguage phrase fIgnore = .ok v) :
    ∃ l W, T.wordList l = some W ∧ decodeWords W (phraseWords (spaced phrase)) fIgnore = .ok v := by
  have hlen := spaced_short_of_ok hok
  by_cases hauto : nLanguage = -1
  · subst hauto
    by_cases hdetect : ∃ d D, DetectedAs T (phraseWords (spaced phrase)) d D
    · obtain ⟨d, D, hd⟩ := hdetect
      rw [mnemonicDecode_detected hlen hd] at hok
      exact ⟨d, D, hd.1, hok⟩
    · rw [mnemonicDecode_undetected hlen fun d D h => hdetect ⟨d, D, h⟩] at hok
      exact absurd hok (by simp [mnemonicError])
  · by_cases hrange : 1 ≤ nLanguage ∧ nLanguage ≤ 6
    · obtain ⟨W, hW⟩ := wordList_of_range T (l := nLanguage.toNat) (by omega)
      have hdecode : mnemonicDecode T (nLanguage.toNat : Int) phrase fIgnore = _ := mnemonicDecode_language hW hlen
      rw [Int.toNat_of_nonneg (by omega), hok] at hdecode
      exact ⟨_, W, hW, hdecode.symm⟩
    · rw [mnemonicDecode] at hok
      dsimp only at hok
      rw [if_neg hauto, if_pos (by rw [WLL_MAX]; omega)] at hok
      exact absurd hok (by simp [mnemonicError])

/-- The bytes that a phrase is packed into are too few for `MnemonicEncode` to read behind them. -/
theorem decodeWords_ignore_length {v : Bytes} (hlong : LongWords T) (hW : T.wordList l = some W)
    (hlen : (spaced phrase).length < 2048) (hok : decodeWords W (phraseWords (spaced phrase)) true = .ok v) :
    v.length ≤ 938 := by
  by_cases hws : ∀ w ∈ phraseWords (spaced phrase), w ∈ W.lines
  · have hfew := phraseWords_few hlong hW hlen hws
    rw [decodeWords_positions hws, if_neg (by simp), if_pos rfl] at hok
    rw [← Except.ok.inj hok, packedBytes_length, positions, List.length_map, bytesFor]
    split <;> omega
  · have hunknown : ∃ w ∈ phraseWords (spaced phrase), w ∉ W.lines := by simpa using hws
    obtain ⟨w, -, -, hfail⟩ := decodeWords_unknown true hunknown
    rw [hfail] at hok
    exact absurd hok (by simp [mnemonicError])

end Decode

section AddChecksum

variable {T : LanguageTables}

theorem mnemonicDetectLanguage_ne (s : Bytes) : mnemonicDetectLanguage T s ≠ 7 := by
  by_cases hlen : s.length < 2048
  · cases mnemonicDetectLanguage_spec T hlen with
    | inl h =>
      obtain ⟨d, D, hd, hdetect⟩ := h
      have hrange := range_of_wordList hd.1
      rw [hdetect]
      omega
    | inr h => rw [h.1]; decide
  · rw [mnemonicDetectLanguage, if_pos (by omega)]
    decide

/-- `MnemonicAddChecksum` reads outside for a language behind the tables only. -/
theorem mnemonicAddChecksum_reads (hlong : LongWords T) (nLanguageIn : Int) (sWordListIn sWordListOut : Bytes) :
    mnemonicAddChecksum T nLanguageIn sWordListIn sWordListOut = .error .outOfBounds ↔
      nLanguageIn = 7 ∧ (spaced sWordListIn).length < 2048 := by
  have hdetect : (if nLanguageIn = -1 then mnemonicDetectLanguage T sWordListIn else nLanguageIn) = 7 ↔
      nLanguageIn = 7 := by
    by_cases hauto : nLanguageIn = -1
    · rw [if_pos hauto]
      exact iff_of_false (mnemonicDetectLanguage_ne sWordListIn) (by omega)
    · rw [if_neg hauto]
  rw [mnemonicAddChecksum, ← hdetect]
  generalize (if nLanguageIn = -1 then mnemonicDetectLanguage T sWordListIn else nLanguageIn) = nLanguage
  have hfirst := mnemonicDecode_reads hlong nLanguage sWordListIn true
  rw [← hfirst]
  cases hdecode : mnemonicDecode T nLanguage sWordListIn true with
  | error e => exact Iff.rfl
  | ok v =>
    have hseven : nLanguage ≠ 7 := by
      intro h
      have hshort := spaced_short_of_ok hdecode
      rw [hfirst.mpr ⟨h, hshort⟩] at hdecode
      exact absurd hdecode (by simp)
    obtain ⟨l, W, hW, hwords⟩ := mnemonicDecode_ok_words hseven hdecode
    have hv := decodeWords_ignore_length hlong hW (spaced_short_of_ok hdecode) hwords
    have hencode : mnemonicEncode T nLanguage v sWordListOut ≠ .error .outOfBounds := by
      intro h
      rw [mnemonicEncode_reads, EncodeOverreads, wordTotal_of_le (by omega)] at h
      omega
    apply iff_of_false
    · rw [ok_bind]
      cases hout : mnemonicEncode T nLanguage v sWordListOut with
      | error e =>
        rw [error_bind]
        exact fun h => hencode (hout.trans h)
      | ok out =>
        rw [ok_bind]
        cases hlast : mnemonicDecode T nLanguage out false with
        | error e =>
          rw [error_bind]
          intro h
          exact hseven ((mnemonicDecode_reads hlong nLanguage out false).mp (hlast.trans h)).1
        | ok e => simp [ok_bind, pure, Except.pure]
    · simp

/-- The mnemonic functions report an error or succeed, without a read outside of a table, a list, the entropy or the
hash, except for language 7 and for entropy whose last word ends behind the bytes that follow it. -/
theorem mnemonic_total_iff (T : LanguageTables) (hlong : LongWords T) :
    (∀ (nLanguage : Int) (vEntropy sWordList : Bytes),
      mnemonicEncode T nLanguage vEntropy sWordList ≠ .error .outOfBounds ↔
        ¬ ((1 ≤ nLanguage ∧ nLanguage ≤ 7) ∧
          (1 ≤ checksumSize vEntropy.length ∧ checksumSize vEntropy.length ≤ 256) ∧
          (nLanguage = 7 ∨ EncodeOverreads vEntropy.length))) ∧
    (∀ (nLanguage : Int) (sWordList : Bytes) (fIgnoreChecksum : Bool),
      mnemonicDecode T nLanguage sWordList fIgnoreChecksum ≠ .error .outOfBounds ↔
        ¬ (nLanguage = 7 ∧ (spaced sWordList).length < 2048)) ∧
    ∀ (nLanguage : Int) (sWordListIn sWordListOut : Bytes),
      mnemonicAddChecksum T nLanguage sWordListIn sWordListOut ≠ .error .outOfBounds ↔
        ¬ (nLanguage = 7 ∧ (spaced sWordListIn).length < 2048) := by
  constructor
  · intro nLanguage vEntropy sWordList
    exact not_congr (mnemonicEncode_reads T nLanguage vEntropy sWordList)
  constructor
  · intro nLanguage sWordList fIgnoreChecksum
    exact not_congr (mnemonicDecode_reads hlong nLanguage sWordList fIgnoreChecksum)
  · intro nLanguage sWordListIn sWordListOut
    exact not_congr (mnemonicAddChecksum_reads hlong nLanguage sWordListIn sWordListOut)

theorem sampleWord_long (l n : Nat) : 2 ≤ (sampleWord l n).length := by
  rw [sampleWord_length]
  decide

theorem sampleTables_longWords : LongWords sampleTables := by
  intro l W hW
  rcases wordList_cases hW with h | h | h | h | h | h
  · rw [h]; exact sampleList_forall (by decide) (by decide) (fun n => sampleWord_long 1 n) (by decide)
  · rw [h]; exact sampleList_forall (by decide) (by decide) (fun n => sampleWord_long 2 n) (by decide)
  · rw [h]; exact sampleList_forall (by decide) (by decide) (fun n => sampleWord_long 3 n) (by decide)
  · rw [h]; exact sampleList_forall (by decide) (by decide) (fun n => sampleWord_long 4 n) (by decide)
  · rw [h]; exact sampleList_forall (by decide) (by decide) (fun n => sampleWord_long 5 n) (by decide)
  · rw [h]; exact sampleList_forall (by decide) (by decide) (fun n => sampleWord_long 6 n) (by decide)

theorem mnemonic_total_emptyPhrase : mnemonicDecode sampleTables 1 [] false ≠ .error .outOfBounds :=
  ((mnemonic_total_iff sampleTables sampleTables_longWords).2.1 1 [] false).mpr (by decide)

/-- Language 7 passes the check of every function, and 1025 bytes need a byte behind those that follow them. -/
theorem mnemonic_language_seven :
    mnemonicEncode sampleTables 7 (List.replicate 16 0) [] = .error .outOfBounds ∧
    mnemonicEncode sampleTables 1 (List.replicate 1025 0) [] = .error .outOfBounds ∧
    mnemonicDecode sampleTables 7 [] false = .error .outOfBounds ∧
    mnemonicAddChecksum sampleTables 7 [] [] = .error .outOfBounds := by
  have hlong := sampleTables_longWords
  apply And.intro ((mnemonicEncode_reads sampleTables 7 _ []).mpr ⟨by decide, by decide, Or.inl rfl⟩)
  constructor
  · apply (mnemonicEncode_reads sampleTables 1 _ []).mpr
    rw [List.length_replicate]
    exact ⟨by decide, by decide, Or.inr (by decide)⟩
  constructor
  · exact (mnemonicDecode_reads hlong 7 [] false).mpr ⟨rfl, by decide⟩
  · exact (mnemonicAddChecksum_reads hlong 7 [] []).mpr ⟨rfl, by decide⟩

end AddChecksum

end AliasWallet
