import AliasWallet.Lib.Bytes
import AliasWallet.Lib.Loop
import AliasWallet.Lib.ReplaceStr
import Mathlib.Data.List.Nodup

/-!
# Word lists of the mnemonics (`extkey.cpp`, `wordlists/`)

A list is a text of words that a line feed ends. `GetWord` and `GetWordOffset` walk through it, so that a last word
without its line feed is in neither.
-/

namespace AliasWallet
open Lib

/-- The line feed behind a word. -/
def newline : UInt8 := 0x0a

/-- The space between the words of a phrase. -/
def space : UInt8 := 0x20

/-- `\u3000`, which is between the words of a Japanese phrase. -/
def ideographicSpace : Bytes := [0xe3, 0x80, 0x80]

/-- What a mnemonic function reports, with its `sError`. -/
inductive MnemonicError
  | unknownLanguage
  | entropyOutOfRange
  | wordListTooLong
  | wordExtractFailed (o : Nat)
  | unknownWord (p : Bytes)
  | wordCount
  | checksumMismatch
  deriving DecidableEq, Repr

namespace MnemonicError

/-- The value that is returned. -/
def rv : MnemonicError → Int
  | unknownLanguage => 1
  | entropyOutOfRange => 2
  | wordListTooLong => 2
  | wordExtractFailed _ => 3
  | unknownWord _ => 3
  | wordCount => 4
  | checksumMismatch => 5

def sError : MnemonicError → Bytes
  | unknownLanguage => "Unknown language.".toUTF8.toList
  | entropyOutOfRange => "Entropy bytes out of range.".toUTF8.toList
  | wordListTooLong => "Word List too long.".toUTF8.toList
  | wordExtractFailed o => ("Word extract failed " ++ toString o ++ ".").toUTF8.toList
  | unknownWord p => "Unknown word: ".toUTF8.toList ++ p
  | wordCount => "No. of words must be divisible by 3.".toUTF8.toList
  | checksumMismatch => "Checksum mismatch.".toUTF8.toList

end MnemonicError

/-- How a mnemonic function stops before its end: by an error that it reports, or by a read outside of an array. -/
inductive MnemonicStop
  | outOfBounds
  | failed (e : MnemonicError)
  deriving DecidableEq, Repr

section Text

/-- The loop of `GetWord` over the words in front: `pt` is the text that is left, and `none` the return of 1. -/
def skipWords : Nat → Bytes → Except MnemonicStop (Option Bytes)
  | 0, pt => .ok (some pt)
  | _ + 1, [] => .error .outOfBounds
  | o + 1, c :: pt => if pt = [] then .ok none else skipWords (if c = newline then o else o + 1) pt

/-- `sWord` of `GetWord`: the characters up to the line feed. -/
def readWord : Bytes → Option Bytes
  | [] => none
  | c :: pt => if c = newline then some [] else (readWord pt).map (c :: ·)

/-- `GetWord`: `none` where it returns 1. -/
def getWord (o : Nat) (pwl : Bytes) : Except MnemonicStop (Option Bytes) := do
  match ← skipWords o pwl with
  | none => pure none
  | some pt => pure (readWord pt)

/-- The loop of `GetWordOffset` with `i`, `c` and `f`. -/
def wordOffsetLoop (p : Bytes) : Nat → Nat → Bool → Bytes → Option Nat
  | _, _, _, [] => none
  | i, c, f, b :: pt =>
    if b = newline then
      if f = true ∧ c = p.length then some i else wordOffsetLoop p (i + 1) 0 true pt
    else if c ≥ p.length then wordOffsetLoop p i (c + 1) false pt
    else if f = true ∧ p[c]? ≠ some b then wordOffsetLoop p i (c + 1) false pt
    else wordOffsetLoop p i (c + 1) f pt

/-- `GetWordOffset`: `o`, or `none` where it returns 1. -/
def getWordOffset (p pwl : Bytes) : Option Nat := wordOffsetLoop p 0 0 true pwl

end Text

section Lines

variable {lines : List Bytes} {w p rest tail : Bytes}

/-- The text of lines and of what follows the last line feed. -/
def linesText (lines : List Bytes) (tail : Bytes) : Bytes := lines.flatMap (· ++ [newline]) ++ tail

@[simp] theorem linesText_cons : linesText (w :: lines) tail = w ++ newline :: linesText lines tail := by
  simp [linesText]

@[simp] theorem linesText_nil : linesText [] tail = tail := rfl

theorem readWord_line (hw : newline ∉ w) : readWord (w ++ newline :: rest) = some w := by
  induction w with
  | nil => rfl
  | cons c w ih =>
    have hc : c ≠ newline := fun h => hw (h ▸ List.mem_cons_self)
    rw [List.cons_append, readWord, if_neg hc, ih (List.not_mem_of_not_mem_cons hw)]
    rfl

theorem readWord_tail (hw : newline ∉ w) : readWord w = none := by
  induction w with
  | nil => rfl
  | cons c w ih =>
    have hc : c ≠ newline := fun h => hw (h ▸ List.mem_cons_self)
    rw [readWord, if_neg hc, ih (List.not_mem_of_not_mem_cons hw)]
    rfl

theorem skipWords_line (o : Nat) (hw : newline ∉ w) :
    skipWords (o + 1) (w ++ newline :: rest) = if rest = [] then .ok none else skipWords o rest := by
  induction w with
  | nil =>
    rw [List.nil_append, skipWords, if_pos rfl]
  | cons c w ih =>
    have hc : c ≠ newline := fun h => hw (h ▸ List.mem_cons_self)
    rw [List.cons_append, skipWords, if_neg (by simp), if_neg hc, ih (List.not_mem_of_not_mem_cons hw)]

theorem skipWords_tail (o : Nat) (hne : w ≠ []) (hw : newline ∉ w) : skipWords (o + 1) w = .ok none := by
  induction w with
  | nil => exact absurd rfl hne
  | cons c w ih =>
    have hc : c ≠ newline := fun h => hw (h ▸ List.mem_cons_self)
    by_cases hnil : w = []
    · rw [skipWords, if_pos hnil]
    · rw [skipWords, if_neg hnil, if_neg hc, ih hnil (List.not_mem_of_not_mem_cons hw)]

theorem getWord_zero : getWord 0 w = .ok (readWord w) := by
  cases w <;> rfl

/-- `GetWord` finds the lines by their number, and nothing in what follows the last line feed. -/
theorem getWord_linesText (hlines : ∀ w ∈ lines, newline ∉ w) (htail : newline ∉ tail)
    (hne : linesText lines tail ≠ []) (o : Nat) : getWord o (linesText lines tail) = .ok lines[o]? := by
  induction lines generalizing o with
  | nil =>
    rw [linesText_nil] at hne ⊢
    cases o with
    | zero => rw [getWord_zero, readWord_tail htail]; rfl
    | succ o => rw [getWord, skipWords_tail o hne htail]; rfl
  | cons w lines ih =>
    have hw : newline ∉ w := hlines w List.mem_cons_self
    cases o with
    | zero => rw [linesText_cons, getWord_zero, readWord_line hw]; rfl
    | succ o =>
      rw [linesText_cons, getWord, skipWords_line o hw, List.getElem?_cons_succ]
      by_cases hrest : linesText lines tail = []
      · have hlines : lines = [] := by
          cases lines with
          | nil => rfl
          | cons w lines => simp at hrest
        rw [if_pos hrest, hlines]
        rfl
      · rw [if_neg hrest]
        exact ih (fun w hw => hlines w (List.mem_cons_of_mem _ hw)) hrest o

/-- The flag of the loop after characters of a line says whether they continue the word. -/
theorem wordOffsetLoop_line (i c : Nat) (f : Bool) (hw : newline ∉ w) :
    wordOffsetLoop p i c f (w ++ rest) =
      wordOffsetLoop p i (c + w.length) (f && w.isPrefixOf (p.drop c)) rest := by
  induction w generalizing c f with
  | nil => simp
  | cons b w ih =>
    have hb : b ≠ newline := fun h => hw (h ▸ List.mem_cons_self)
    have hrest := fun f => ih (c + 1) f (List.not_mem_of_not_mem_cons hw)
    have hlen : c + 1 + w.length = c + (b :: w).length := by rw [List.length_cons]; omega
    rw [List.cons_append, wordOffsetLoop, if_neg hb]
    by_cases hc : c ≥ p.length
    · rw [if_pos hc, hrest, hlen, List.drop_eq_nil_of_le hc]
      simp
    · have hdrop : p.drop c = p[c] :: p.drop (c + 1) := List.drop_eq_getElem_cons (by omega)
      rw [if_neg hc, hdrop, List.isPrefixOf_cons_cons, List.getElem?_eq_getElem (by omega)]
      by_cases heq : b = p[c]
      · rw [if_neg (by simp [heq]), hrest, hlen, beq_iff_eq.mpr heq, Bool.true_and]
      · have hbeq : (b == p[c]) = false := beq_eq_false_iff_ne.mpr heq
        rw [hbeq, Bool.false_and, Bool.and_false]
        cases f with
        | true => rw [if_pos ⟨rfl, fun h => heq (Option.some.inj h).symm⟩, hrest, hlen, Bool.false_and]
        | false => rw [if_neg (by simp), hrest, hlen, Bool.false_and]

/-- `GetWordOffset` looks a word up among the lines. -/
theorem wordOffsetLoop_linesText (i : Nat) (hlines : ∀ w ∈ lines, newline ∉ w) (htail : newline ∉ tail) :
    wordOffsetLoop p i 0 true (linesText lines tail) = (lines.idxOf? p).map (i + ·) := by
  induction lines generalizing i with
  | nil =>
    rw [linesText_nil, ← List.append_nil tail, wordOffsetLoop_line i 0 true htail]
    rfl
  | cons w lines ih =>
    have hw : newline ∉ w := hlines w List.mem_cons_self
    rw [linesText_cons, wordOffsetLoop_line i 0 true hw, wordOffsetLoop, if_pos rfl, Bool.true_and, List.drop_zero,
      Nat.zero_add, List.idxOf?_cons]
    have hmatch : (w.isPrefixOf p = true ∧ w.length = p.length) ↔ w = p := by
      rw [List.isPrefixOf_iff_prefix]
      constructor
      · intro h
        exact h.1.eq_of_length h.2
      · intro h
        subst h
        exact ⟨List.prefix_refl w, rfl⟩
    by_cases heq : w = p
    · rw [if_pos (hmatch.mpr heq), if_pos (beq_iff_eq.mpr heq)]
      rfl
    · rw [if_neg (fun h => heq (hmatch.mp h)), if_neg (fun h => heq (beq_iff_eq.mp h)),
        ih (i + 1) (fun w hw => hlines w (List.mem_cons_of_mem _ hw)), Option.map_map]
      apply congrFun
      apply congrArg
      funext k
      show i + 1 + k = i + (k + 1)
      omega

theorem getWordOffset_linesText (hlines : ∀ w ∈ lines, newline ∉ w) (htail : newline ∉ tail) :
    getWordOffset p (linesText lines tail) = lines.idxOf? p := by
  rw [getWordOffset, wordOffsetLoop_linesText 0 hlines htail]
  simp

end Lines

section Tables

/-- A word list as its header has it: 2048 distinct words. The list of one language lacks the line feed behind its last
word. -/
structure WordList where
  words : List Bytes
  newlineAtEnd : Bool
  words_length : words.length = 2048
  words_nodup : words.Nodup
  words_ne : ∀ w ∈ words, w ≠ []
  words_newline : ∀ w ∈ words, newline ∉ w
  words_space : ∀ w ∈ words, space ∉ w
  words_zero : ∀ w ∈ words, (0 : UInt8) ∉ w
  words_ideographic : ∀ w ∈ words, ¬ ideographicSpace <:+: w

namespace WordList

variable (W : WordList)

/-- The words that a line feed ends. -/
def lines : List Bytes := if W.newlineAtEnd then W.words else W.words.dropLast

def lastWord : Bytes := W.words.getLastD []

/-- The array of the header. -/
def text : Bytes := linesText W.lines (if W.newlineAtEnd then [] else W.lastWord)

variable {W} {w : Bytes}

theorem words_ne_nil : W.words ≠ [] := by
  intro h
  simpa [h] using W.words_length

theorem lastWord_mem : W.lastWord ∈ W.words := by
  rw [lastWord, List.getLastD_eq_getLast?, List.getLast?_eq_some_getLast words_ne_nil]
  exact List.getLast_mem words_ne_nil

theorem lastWord_eq : W.lastWord = W.words.getD 2047 [] := by
  have hlt : 2047 < W.words.length := by rw [W.words_length]; decide
  rw [lastWord, List.getLastD_eq_getLast?, List.getLast?_eq_getElem?, W.words_length, List.getD_eq_getElem?_getD]

theorem words_eq : W.words = W.words.dropLast ++ [W.lastWord] := by
  rw [lastWord, List.getLastD_eq_getLast?, List.getLast?_eq_some_getLast words_ne_nil]
  exact (List.dropLast_append_getLast words_ne_nil).symm

theorem lines_prefix : W.lines <+: W.words := by
  by_cases h : W.newlineAtEnd = true
  · rw [lines, if_pos h]
  · rw [lines, if_neg h]
    exact List.dropLast_prefix W.words

theorem mem_words_of_mem_lines (h : w ∈ W.lines) : w ∈ W.words := lines_prefix.subset h

theorem lines_length (h : W.newlineAtEnd = true) : W.lines.length = 2 ^ 11 := by
  rw [lines, if_pos h, W.words_length]
  rfl

theorem lines_length_short (h : ¬ W.newlineAtEnd = true) : W.lines.length = 2047 := by
  rw [lines, if_neg h, List.length_dropLast, W.words_length]

/-- A word is a line unless it is the last one and has no line feed. -/
theorem mem_lines_iff (hw : w ∈ W.words) : w ∈ W.lines ↔ (W.newlineAtEnd = true ∨ w ≠ W.lastWord) := by
  by_cases h : W.newlineAtEnd = true
  · simp only [lines, h, if_true, hw, true_or]
  · have hnodup := W.words_nodup
    rw [words_eq, List.nodup_append] at hnodup
    rw [words_eq, List.mem_append, List.mem_singleton] at hw
    rw [lines, if_neg h]
    constructor
    · intro hmem
      exact Or.inr fun heq => hnodup.2.2 w hmem w (List.mem_singleton.mpr heq) rfl
    · intro hor
      exact hw.resolve_right (hor.resolve_left h)

theorem lines_newline (hw : w ∈ W.lines) : newline ∉ w := W.words_newline w (mem_words_of_mem_lines hw)

theorem tail_newline : newline ∉ (if W.newlineAtEnd then [] else W.lastWord) := by
  by_cases h : W.newlineAtEnd = true
  · rw [if_pos h]; exact List.not_mem_nil
  · rw [if_neg h]; exact W.words_newline _ lastWord_mem

theorem text_ne : W.text ≠ [] := by
  by_cases h : W.newlineAtEnd = true
  · obtain ⟨w, words, hwords⟩ := List.exists_cons_of_ne_nil (words_ne_nil (W := W))
    simp [text, lines, h, hwords]
  · rw [text, if_neg h, linesText]
    exact List.append_ne_nil_of_right_ne_nil _ (W.words_ne _ lastWord_mem)

/-- `GetWord` on the text of a word list. -/
theorem getWord_text (o : Nat) : getWord o W.text = .ok W.lines[o]? :=
  getWord_linesText (fun _ hw => lines_newline hw) tail_newline text_ne o

/-- `GetWordOffset` on the text of a word list. -/
theorem getWordOffset_text (p : Bytes) : getWordOffset p W.text = W.lines.idxOf? p :=
  getWordOffset_linesText (fun _ hw => lines_newline hw) tail_newline

end WordList

/-- The word lists of the six languages. -/
structure LanguageTables where
  english : WordList
  french : WordList
  japanese : WordList
  spanish : WordList
  chineseSimplified : WordList
  chineseTraditional : WordList

namespace LanguageTables

/-- The list of a language by its number, `WLL_ENGLISH` to `WLL_CHINESE_T`. -/
def wordList (T : LanguageTables) : Nat → Option WordList
  | 1 => some T.english
  | 2 => some T.french
  | 3 => some T.japanese
  | 4 => some T.spanish
  | 5 => some T.chineseSimplified
  | 6 => some T.chineseTraditional
  | _ => none

end LanguageTables

def WLL_JAPANESE : Int := 3

def WLL_MAX : Int := 7

/-- `mnLanguages`, with the text of a language as long as `mnLanguageLens` has it. The first entry is `NULL`. -/
def mnLanguages (T : LanguageTables) : List Bytes :=
  [[], T.english.text, T.french.text, T.japanese.text, T.spanish.text, T.chineseSimplified.text,
    T.chineseTraditional.text]

/-- The entry of a language. -/
def readLanguage (T : LanguageTables) (nLanguage : Nat) : Except MnemonicStop Bytes :=
  match (mnLanguages T)[nLanguage]? with
  | some pwl => .ok pwl
  | none => .error .outOfBounds

theorem readLanguage_wordList {T : LanguageTables} {l : Nat} {W : WordList} (h : T.wordList l = some W) :
    readLanguage T l = .ok W.text := by
  match l, h with
  | 1, rfl | 2, rfl | 3, rfl | 4, rfl | 5, rfl | 6, rfl => rfl

theorem wordList_cases {T : LanguageTables} {l : Nat} {W : WordList} (h : T.wordList l = some W) :
    W = T.english ∨ W = T.french ∨ W = T.japanese ∨ W = T.spanish ∨ W = T.chineseSimplified ∨
      W = T.chineseTraditional := by
  match l, h with
  | 1, rfl | 2, rfl | 3, rfl | 4, rfl | 5, rfl | 6, rfl => simp

theorem wordList_lt_five {T : LanguageTables} {l : Nat} {W : WordList} (h : T.wordList l = some W) (hl : l < 5) :
    W = T.english ∨ W = T.french ∨ W = T.japanese ∨ W = T.spanish := by
  match l, hl, h with
  | 1, _, rfl => exact Or.inl rfl
  | 2, _, rfl => exact Or.inr (Or.inl rfl)
  | 3, _, rfl => exact Or.inr (Or.inr (Or.inl rfl))
  | 4, _, rfl => exact Or.inr (Or.inr (Or.inr rfl))

theorem wordList_of_range (T : LanguageTables) {l : Nat} (h : 1 ≤ l ∧ l ≤ 6) : ∃ W, T.wordList l = some W := by
  match l, h with
  | 1, _ | 2, _ | 3, _ | 4, _ | 5, _ | 6, _ => exact ⟨_, rfl⟩

theorem range_of_wordList {T : LanguageTables} {l : Nat} {W : WordList} (h : T.wordList l = some W) :
    1 ≤ l ∧ l ≤ 6 := by
  match l, h with
  | 1, _ | 2, _ | 3, _ | 4, _ | 5, _ | 6, _ => decide

/-- A word of four letters that stands for the word `n` of language `l`. -/
def sampleWord (l n : Nat) : Bytes :=
  [UInt8.ofNat (0x60 + l % 8), 0x61, UInt8.ofNat (0x40 + n / 64 % 64), UInt8.ofNat (0x40 + n % 64)]

/-- A word that can be given to a list of sample words. -/
def IsOwnWord (w : Bytes) : Prop :=
  w ≠ [] ∧ newline ∉ w ∧ space ∉ w ∧ (0 : UInt8) ∉ w ∧ ¬ ideographicSpace <:+: w ∧ w.length ≠ 4

instance (w : Bytes) : Decidable (IsOwnWord w) := inferInstanceAs (Decidable (_ ∧ _))

/-- The words of a list in which some positions have words of their own. -/
def sampleWords (own : List (Nat × Bytes)) (l : Nat) : List Bytes :=
  (List.range 2048).map fun n => (own.lookup n).getD (sampleWord l n)

end Tables

section Sample

variable {own : List (Nat × Bytes)} {l m n : Nat} {w : Bytes}

theorem sampleWord_length (l n : Nat) : (sampleWord l n).length = 4 := rfl

theorem sampleWord_injective (hm : m < 2048) (hn : n < 2048) (h : sampleWord l m = sampleWord l n) : m = n := by
  simp only [sampleWord, List.cons.injEq, and_true, true_and] at h
  have h1 := congrArg UInt8.toNat h.1
  have h2 := congrArg UInt8.toNat h.2
  simp only [UInt8.toNat_ofNat'] at h1 h2
  omega

theorem sampleWord_byte {c : UInt8} (hc : c ∈ sampleWord l n) : 0x40 ≤ c.toNat ∧ c.toNat < 0x80 := by
  simp only [sampleWord, List.mem_cons, List.not_mem_nil, or_false] at hc
  rcases hc with rfl | rfl | rfl | rfl
  · rw [UInt8.toNat_ofNat']; omega
  · decide
  · rw [UInt8.toNat_ofNat']; omega
  · rw [UInt8.toNat_ofNat']; omega

theorem not_mem_sampleWord {c : UInt8} (hc : c.toNat < 0x40 ∨ 0x80 ≤ c.toNat) : c ∉ sampleWord l n := by
  intro h
  have := sampleWord_byte h
  omega

theorem mem_own_of_lookup (h : own.lookup n = some w) : (n, w) ∈ own := by
  induction own with
  | nil => exact absurd h (by simp)
  | cons p own ih =>
    rw [List.lookup_cons] at h
    by_cases hp : n = p.1
    · rw [beq_iff_eq.mpr hp] at h
      have hw : p.2 = w := Option.some.inj h
      rw [hp, ← hw]
      exact List.mem_cons_self
    · rw [beq_eq_false_iff_ne.mpr hp] at h
      exact List.mem_cons_of_mem _ (ih h)

/-- A word of the list is one of its own or a sample. -/
theorem mem_sampleWords (hw : w ∈ sampleWords own l) : w ∈ own.map Prod.snd ∨ ∃ n, w = sampleWord l n := by
  simp only [sampleWords, List.mem_map, List.mem_range] at hw
  obtain ⟨n, -, rfl⟩ := hw
  cases hlookup : own.lookup n with
  | none => exact Or.inr ⟨n, rfl⟩
  | some w => exact Or.inl (List.mem_map.mpr ⟨(n, w), mem_own_of_lookup hlookup, rfl⟩)

theorem sampleWords_nodup (hnodup : (own.map Prod.snd).Nodup) (hown : ∀ w ∈ own.map Prod.snd, IsOwnWord w) :
    (sampleWords own l).Nodup := by
  apply List.Nodup.map_on _ List.nodup_range
  intro m hm n hn h
  rw [List.mem_range] at hm hn
  have hlen : ∀ {k : Nat} {w : Bytes}, own.lookup k = some w → w.length ≠ 4 := by
    intro k w hk
    exact (hown w (List.mem_map.mpr ⟨(k, w), mem_own_of_lookup hk, rfl⟩)).2.2.2.2.2
  cases hlm : own.lookup m with
  | none =>
    cases hln : own.lookup n with
    | none =>
      rw [hlm, hln] at h
      exact sampleWord_injective hm hn h
    | some w =>
      rw [hlm, hln] at h
      exact absurd (congrArg List.length h.symm) (hlen hln)
  | some u =>
    cases hln : own.lookup n with
    | none =>
      rw [hlm, hln] at h
      exact absurd (congrArg List.length h) (hlen hlm)
    | some w =>
      rw [hlm, hln] at h
      have heq := List.inj_on_of_nodup_map hnodup (mem_own_of_lookup hlm) (mem_own_of_lookup hln) h
      exact congrArg Prod.fst heq

/-- A list of sample words. -/
def sampleList (own : List (Nat × Bytes)) (newlineAtEnd : Bool) (l : Nat) (hnodup : (own.map Prod.snd).Nodup)
    (hown : ∀ w ∈ own.map Prod.snd, IsOwnWord w) : WordList where
  words := sampleWords own l
  newlineAtEnd := newlineAtEnd
  words_length := by simp [sampleWords]
  words_nodup := sampleWords_nodup hnodup hown
  words_ne := by
    intro w hw
    cases mem_sampleWords hw with
    | inl h => exact (hown w h).1
    | inr h => obtain ⟨n, rfl⟩ := h; simp [sampleWord]
  words_newline := by
    intro w hw
    cases mem_sampleWords hw with
    | inl h => exact (hown w h).2.1
    | inr h => obtain ⟨n, rfl⟩ := h; exact not_mem_sampleWord (by decide)
  words_space := by
    intro w hw
    cases mem_sampleWords hw with
    | inl h => exact (hown w h).2.2.1
    | inr h => obtain ⟨n, rfl⟩ := h; exact not_mem_sampleWord (by decide)
  words_zero := by
    intro w hw
    cases mem_sampleWords hw with
    | inl h => exact (hown w h).2.2.2.1
    | inr h => obtain ⟨n, rfl⟩ := h; exact not_mem_sampleWord (by decide)
  words_ideographic := by
    intro w hw
    cases mem_sampleWords hw with
    | inl h => exact (hown w h).2.2.2.2.1
    | inr h =>
      obtain ⟨n, rfl⟩ := h
      intro hin
      exact not_mem_sampleWord (c := 0xe3) (by decide) (hin.subset (by decide))

theorem sampleList_forall {P : Bytes → Prop} {newlineAtEnd : Bool} (hnodup : (own.map Prod.snd).Nodup)
    (hown : ∀ w ∈ own.map Prod.snd, IsOwnWord w) (hsample : ∀ n, P (sampleWord l n))
    (hP : ∀ w ∈ own.map Prod.snd, P w) : ∀ w ∈ (sampleList own newlineAtEnd l hnodup hown).words, P w := by
  intro w hw
  simp only [sampleList] at hw
  cases mem_sampleWords hw with
  | inl h => exact hP w h
  | inr h =>
    obtain ⟨k, rfl⟩ := h
    exact hsample k

/-- The word at a position is the own one, if there is one. -/
theorem sampleList_getD {newlineAtEnd : Bool} (hnodup : (own.map Prod.snd).Nodup)
    (hown : ∀ w ∈ own.map Prod.snd, IsOwnWord w) (hn : n < 2048) :
    (sampleList own newlineAtEnd l hnodup hown).words.getD n [] = (own.lookup n).getD (sampleWord l n) := by
  simp [sampleList, sampleWords, hn]

theorem not_mem_sampleList {newlineAtEnd : Bool} (hnodup : (own.map Prod.snd).Nodup)
    (hown : ∀ w ∈ own.map Prod.snd, IsOwnWord w) (hlen : w.length ≠ 4) (hw : w ∉ own.map Prod.snd) :
    w ∉ (sampleList own newlineAtEnd l hnodup hown).lines := by
  intro h
  refine sampleList_forall (P := (· ≠ w)) hnodup hown ?_ ?_ w (WordList.mem_words_of_mem_lines h) rfl
  · intro n heq
    exact hlen (heq ▸ rfl)
  · intro u hu heq
    exact hw (heq ▸ hu)

/-- `zoologie`. -/
def zoologie : Bytes := [0x7a, 0x6f, 0x6f, 0x6c, 0x6f, 0x67, 0x69, 0x65]

/-- Lists that have a few words where the lists of the wallet have them, and sample words elsewhere: the last French
word, which has no line feed behind it, and the words 0 and 9 of both Chinese lists. -/
def sampleTables : LanguageTables where
  english := sampleList [] true 1 (by decide) (by decide)
  french := sampleList [(2047, zoologie)] false 2 (by decide) (by decide)
  japanese := sampleList [] true 3 (by decide) (by decide)
  spanish := sampleList [] true 4 (by decide) (by decide)
  chineseSimplified := sampleList [(0, [0xe7, 0x9a, 0x84]), (9, [0xe8, 0xbf, 0x99])] true 5 (by decide) (by decide)
  chineseTraditional := sampleList [(0, [0xe7, 0x9a, 0x84]), (9, [0xe9, 0x80, 0x99])] true 6 (by decide) (by decide)

end Sample

end AliasWallet
