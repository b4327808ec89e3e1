import Cs214.Indexer.Buckets
import Cs214.Indexer.Order
import Cs214.Tokenizer.Progress

/-!
# Counting the words of a file

The words of a text are its lower-cased WORD tokens. `tokenizeFile_spec` says that the hash map
of `tokenize_file` holds exactly the words of the file, each with the number of its occurrences:
every word the loop meets adds 1 to its count (`countToken_spec`). The index of a word in the
array of lists must not be negative (`Placed`), as it is as long as the sum of its characters
fits in an `int`.
-/

namespace Cs214.Indexer

open Tokenizer Hashmap

variable (malloc : Allocator) {hm : HashmapT CString ℤ} {seen : List CString} {t text : CString}
  {tk : TokenizerT} {n : ℕ} {l : List (CString × TokenT)} {fs : FileSystem} {filePath : CString}

/-! ### Words -/

/-- The lower-cased words among some tokens. -/
def wordsOf (tokens : List (CString × TokenT)) : List CString :=
  (tokens.filter fun token => token.2 == .word).map fun token => token.1.map tolower

/-- **The words of a text.** -/
def words (text : CString) : List CString := wordsOf ((tokens indexer text).getD [])

@[simp] theorem wordsOf_cons_word (token : CString) (l : List (CString × TokenT)) :
    wordsOf ((token, .word) :: l) = token.map tolower :: wordsOf l := by
  simp [wordsOf]

/-- A token of another type is no word. -/
private theorem wordsOf_cons_of_ne {type : TokenT} (h : type ≠ .word) (token : CString)
    (l : List (CString × TokenT)) : wordsOf ((token, type) :: l) = wordsOf l := by
  simp [wordsOf, h]

/-- The characters of ASCII. -/
def isascii (c : Char) : Prop := c.toNat < 128

private theorem isascii_of_isalnum {c : Char} (h : isalnum c = true) : isascii c := by
  simp only [isalnum, isalpha, isdigit, Bool.or_eq_true, Bool.and_eq_true, decide_eq_true_eq,
    Char.le_def, UInt32.le_iff_toNat_le] at h
  have hA : 'Z'.val.toNat = 90 := rfl
  have ha : 'z'.val.toNat = 122 := rfl
  have h0 : '9'.val.toNat = 57 := rfl
  change c.val.toNat < 128
  omega

/-- **The keys of the hash map**: lower-case letters and digits, at least one. -/
structure IsKey (t : CString) : Prop where
  ne_nil : t ≠ []
  lower : ∀ c ∈ t, isdigit c = true ∨ 'a' ≤ c ∧ c ≤ 'z'

/-- The characters of a key are letters and digits. -/
theorem IsKey.isalnum (h : IsKey t) : ∀ c ∈ t, isalnum c = true := by
  intro c hc
  rw [Tokenizer.isalnum, isalpha]
  rcases h.lower c hc with hdigit | ⟨ha, hz⟩
  · rw [hdigit, Bool.or_true]
  · rw [decide_eq_true ha, decide_eq_true hz, Bool.and_true, Bool.or_true, Bool.true_or]

/-- A letter or digit is a digit or a small letter behind `tolower`. -/
private theorem lower_tolower {c : Char} (h : isalnum c = true) :
    isdigit (tolower c) = true ∨ 'a' ≤ tolower c ∧ tolower c ≤ 'z' := by
  rw [tolower]
  split_ifs with hupper
  · rw [Bool.and_eq_true, decide_eq_true_eq, decide_eq_true_eq] at hupper
    have hZ : c.toNat ≤ 90 := UInt32.le_iff_toNat_le.mp hupper.2
    have hA : 65 ≤ c.toNat := UInt32.le_iff_toNat_le.mp hupper.1
    have hlower : ∀ n < 91, 65 ≤ n → 'a' ≤ Char.ofNat (n + 32) ∧ Char.ofNat (n + 32) ≤ 'z' := by
      decide
    exact .inr (hlower _ (Nat.lt_succ_of_le hZ) hA)
  · rw [isalnum, isalpha, Bool.or_eq_true, Bool.or_eq_true] at h
    rcases h with (h | h) | h
    · exact absurd h hupper
    · exact .inr (by simpa using h)
    · exact .inl h

/-- **A word is a key.** -/
theorem isKey_of_mem_words (h : t ∈ words text) : IsKey t := by
  obtain ⟨l, hl, hword⟩ := tokens_spec total_indexer text
  rw [words, hl, Option.getD_some] at h
  obtain ⟨⟨token, type⟩, htoken, rfl⟩ := List.mem_map.mp h
  obtain ⟨hmem, htype⟩ := List.mem_filter.mp htoken
  obtain rfl : type = .word := beq_iff_eq.mp htype
  obtain ⟨c, w, rfl, hc, hw⟩ := hword token hmem
  refine ⟨List.cons_ne_nil _ _, fun d hd => ?_⟩
  obtain ⟨e, he, rfl⟩ := List.mem_map.mp hd
  refine lower_tolower ?_
  rcases List.mem_cons.mp he with rfl | he
  · rw [isalnum, hc, Bool.true_or]
  · exact hw e he

/-! ### The hash -/

/-- The sum of the characters of a string, without a bound. -/
def charSum (string : CString) : ℕ := (string.map Char.toNat).sum

theorem charSum_cons (c : Char) (string : CString) :
    charSum (c :: string) = c.toNat + charSum string := rfl

/-- The characters that are added: all of them, unless there are `2 ^ 31`. -/
def hashed (string : CString) : CString := string.take (hashLength string)

/-- A word of a length that fits an `int` is hashed as a whole. -/
theorem hashed_eq (h : t.length < 2 ^ 31) : hashed t = t := by
  have hbmod : (t.length : ℤ).bmod (2 ^ 32) = t.length := Int.bmod_eq_of_le (by omega) (by omega)
  have hlength : hashLength t = t.length :=
    (congrArg Int.toNat hbmod).trans (Int.toNat_natCast t.length)
  rw [hashed, hlength, List.take_length]

/-- **The hash of a string** is the sum of its characters, wrapped around once: it does not
matter where the sum overflows. -/
theorem hashString_eq (hascii : ∀ c ∈ t, isascii c) :
    hashString t = (charSum (hashed t) : ℤ).bmod (2 ^ 32) := by
  have hfold : ∀ (s : CString) (x : ℤ), (∀ c ∈ s, isascii c) →
      s.foldl (fun hash c => (hash + charToInt c).bmod (2 ^ 32)) (x.bmod (2 ^ 32))
        = (x + charSum s).bmod (2 ^ 32) := by
    intro s
    induction s with
    | nil => simp [charSum]
    | cons c s ih =>
      intro x hc
      have hchar : charToInt c = c.toNat := if_pos (hc c (by simp))
      rw [List.foldl_cons, hchar, Int.bmod_add_bmod,
        ih _ fun d hd => hc d (List.mem_cons_of_mem c hd), charSum_cons, Int.natCast_add,
        Int.add_assoc]
  have h := hfold (hashed t) 0 fun c hc => hascii c (List.mem_of_mem_take hc)
  rwa [Int.zero_add] at h

/-- **The hash of a string selects a list** of the map. The hash may be negative, as the sum wraps
around, and so may be its remainder. -/
def Placed (t : CString) : Prop := 0 ≤ (hashString t).tmod hashSize

/-- A sum of characters whose remainder selects one of `size` lists: it does not wrap around to
a negative hash, or only to a multiple of the size. -/
def Fits (size : ℤ) (sum : ℕ) : Prop :=
  sum % 2 ^ 32 < 2 ^ 31 ∨ size ∣ 2 ^ 32 - (sum % 2 ^ 32 : ℕ)

/-- The remainder of C has the sign of the dividend. -/
private theorem tmod_nonneg_iff {a b : ℤ} : 0 ≤ a.tmod b ↔ 0 ≤ a ∨ b ∣ a := by
  constructor
  · intro h
    rcases Int.le_total 0 a with ha | ha
    · exact .inl ha
    · have hneg : 0 ≤ (-a).tmod b := Int.tmod_nonneg b (by omega)
      rw [Int.neg_tmod] at hneg
      exact .inr (Int.dvd_of_tmod_eq_zero (by omega))
  · rintro (ha | hdvd)
    · exact Int.tmod_nonneg b ha
    · exact (Int.tmod_eq_zero_of_dvd hdvd).ge

theorem bmod_tmod_nonneg_iff (size : ℤ) (sum : ℕ) :
    0 ≤ ((sum : ℤ).bmod (2 ^ 32)).tmod size ↔ Fits size sum := by
  rw [tmod_nonneg_iff, Fits, Int.bmod_def]
  split_ifs with hlt
  · have hsum : sum % 2 ^ 32 < 2 ^ 31 := by omega
    exact iff_of_true (.inl (by omega)) (.inl hsum)
  · have hneg : ¬(0 : ℤ) ≤ sum % (2 ^ 32 : ℕ) - (2 ^ 32 : ℕ) := by omega
    have hsum : ¬sum % 2 ^ 32 < 2 ^ 31 := by omega
    have hflip : -((sum : ℤ) % (2 ^ 32 : ℕ) - (2 ^ 32 : ℕ)) = 2 ^ 32 - (sum % 2 ^ 32 : ℕ) := by
      omega
    rw [or_iff_right hneg, or_iff_right hsum, ← Int.dvd_neg, hflip]

theorem tmod_hashString_nonneg_iff (halnum : ∀ c ∈ t, isalnum c = true) (size : ℤ) :
    0 ≤ (hashString t).tmod size ↔ Fits size (charSum (hashed t)) := by
  rw [hashString_eq fun c hc => isascii_of_isalnum (halnum c hc)]
  exact bmod_tmod_nonneg_iff size _

/-- A letter or digit adds to the sum, and `z` adds most. -/
theorem charSum_bounds (h : ∀ c ∈ t, isalnum c = true) :
    t.length ≤ charSum t ∧ charSum t ≤ 122 * t.length := by
  induction t with
  | nil => exact ⟨Nat.zero_le _, Nat.zero_le _⟩
  | cons c t ih =>
    rw [List.forall_mem_cons] at h
    have hc := isalnum_iff.mp h.1
    have hle := ih h.2
    rw [List.length_cons, charSum_cons]
    omega

/-- A word whose characters do not sum up to 2^31 has its place in the array. -/
theorem placed_of_charSum (h : t ∈ words text) (hsum : charSum t < 2 ^ 31) : Placed t := by
  have halnum := (isKey_of_mem_words h).isalnum
  have hlength := (charSum_bounds halnum).1
  rw [Placed, tmod_hashString_nonneg_iff halnum, hashed_eq (by omega)]
  exact .inl (by omega)

/-- Strings are lawful keys. -/
private theorem hashing_string : Hashing hashString compareString where
  refl _ := strcmp_eq_zero.mpr rfl
  symm _ _ h := strcmp_eq_zero.mpr (strcmp_eq_zero.mp h).symm
  trans _ _ _ h h' := strcmp_eq_zero.mpr ((strcmp_eq_zero.mp h).trans (strcmp_eq_zero.mp h'))
  hash _ _ h := by rw [strcmp_eq_zero.mp h]

/-! ### The counts -/

/-- **The hash map counts** the words seen. -/
structure Counts (hm : HashmapT CString ℤ) (seen : List CString) : Prop where
  valid : Valid hm
  size : hm.size = hashSize
  hash : hm.hash = hashString
  compare : hm.compare = compareString
  entries : ∀ e, e ∈ hm.entries ↔ 0 < seen.count e.key ∧ e.value = seen.count e.key

/-- The functions of the map are those of a hash table. -/
theorem Counts.hashing (h : Counts hm seen) : Hashing hm.hash hm.compare := by
  rw [h.hash, h.compare]
  exact hashing_string

/-- Keys are equal only as strings. -/
private theorem Counts.compare_eq_zero (h : Counts hm seen) {s t : CString} :
    hm.compare s t = 0 ↔ s = t := by
  rw [h.compare]
  exact strcmp_eq_zero

/-- The index of a key, with the remainder of C. -/
theorem Counts.index (h : Counts hm seen) (t : CString) :
    hm.index t = (hashString t).tmod hashSize := by
  rw [HashmapT.index, h.hash, h.size]

/-- The entries after a word has been counted. -/
private theorem Counts.snoc {hm' : HashmapT CString ℤ} (h : Counts hm seen) (hv : Valid hm')
    (hsize : hm'.size = hm.size) (hhash : hm'.hash = hm.hash) (hcompare : hm'.compare = hm.compare)
    (hentries : ∀ e, e ∈ hm'.entries ↔
      e = ⟨t, (seen.count t : ℕ) + 1⟩ ∨ e ∈ hm.entries ∧ e.key ≠ t) :
    Counts hm' (seen ++ [t]) := by
  refine ⟨hv, hsize.trans h.size, hhash.trans h.hash, hcompare.trans h.compare, fun e => ?_⟩
  obtain ⟨key, value⟩ := e
  rw [hentries, h.entries, List.count_append, MapT.mk.injEq]
  by_cases hkey : key = t
  · subst hkey
    simp
  · simp [hkey, Ne.symm hkey]

/-- **Each word adds 1 to its count.** -/
theorem countToken_spec (h : Counts hm seen) (ht : Placed t) :
    ∃ hm', countToken malloc hm t = some hm' ∧ Counts hm' (seen ++ [t]) := by
  have hkey : 0 ≤ hm.index t := h.index t ▸ ht
  rcases hmGet_spec h.valid h.hashing hkey with ⟨hget, hnone⟩ | ⟨a, node, hget, ha, hnode, heq⟩
  · -- a new word
    have hnone' : ∀ e ∈ hm.entries, e.key ≠ t :=
      fun e he heq => hnone e he (h.compare_eq_zero.mpr heq)
    have hcount : seen.count t = 0 := by
      by_contra hpos
      exact hnone' ⟨t, (seen.count t : ℕ)⟩ ((h.entries _).mpr ⟨Nat.pos_of_ne_zero hpos, rfl⟩) rfl
    rcases hmStore_spec h.valid h.hashing hkey (malloc.fresh hm.nodes.dom) 1 with
      ⟨-, e, he, heq⟩ | ⟨hm', hstore, hadded⟩
    · exact absurd heq (hnone e he)
    · refine ⟨hm', by simp [countToken, hget, hstore],
        h.snoc hadded.valid hadded.size hadded.hash hadded.compare fun e => ?_⟩
      rw [hadded.entries, hcount]
      exact or_congr_right ⟨fun he => ⟨he, hnone' e he⟩, And.left⟩
  · -- a word seen before
    have hkey' : node.map.key = t := h.compare_eq_zero.mp heq
    have hmem : node.map ∈ hm.entries := HashmapT.mem_entries.mpr ⟨a, ha, node, hnode, rfl⟩
    have hvalue : node.map.value = seen.count t := by
      rw [((h.entries _).mp hmem).2, hkey']
    obtain ⟨hm', hset, hv, hsize, hhash, hcompare, hentries⟩ :=
      setValue_spec h.valid h.hashing ha hnode (node.map.value + 1)
    refine ⟨hm', by simp [countToken, hget, hnode, hset],
      h.snoc hv hsize hhash hcompare fun e => ?_⟩
    rw [hentries, hvalue, hkey', Ne, h.compare_eq_zero]

/-- A word that has no list is a fault. -/
theorem countToken_eq_none (h : Counts hm seen) (ht : ¬Placed t) :
    countToken malloc hm t = none := by
  have hkey : hm.index t < 0 := by
    rw [h.index]
    exact not_le.mp ht
  rw [countToken, hmGet_eq_none hkey]
  rfl

/-- **Words are counted** one after the other, if each of them has a list. -/
theorem countTokens_spec (h : Counts hm seen) (ws : List CString) :
    (∃ hm', ws.foldlM (countToken malloc) hm = some hm' ∧ Counts hm' (seen ++ ws)) ∨
      ws.foldlM (countToken malloc) hm = none ∧ ∃ t ∈ ws, ¬Placed t := by
  induction ws generalizing hm seen with
  | nil => exact .inl ⟨hm, rfl, by rwa [List.append_nil]⟩
  | cons t ws ih =>
    rw [List.foldlM_cons]
    by_cases hplaced : Placed t
    · obtain ⟨hm₁, hcount, h₁⟩ := countToken_spec malloc h hplaced
      rw [hcount]
      rcases ih h₁ with ⟨hm₂, hfold, h₂⟩ | ⟨hfold, u, hu, hnot⟩
      · rw [List.append_assoc] at h₂
        exact .inl ⟨hm₂, hfold, h₂⟩
      · exact .inr ⟨hfold, u, List.mem_cons_of_mem _ hu, hnot⟩
    · rw [countToken_eq_none malloc h hplaced]
      exact .inr ⟨rfl, t, List.mem_cons_self, hplaced⟩

/-- **The loop of `tokenize_file`** ends, and counts the words among the tokens. -/
theorem tokenizeLoop_eq (htokens : tokensFrom indexer n tk = some l) :
    tokenizeLoop malloc n tk hm = (wordsOf l).foldlM (countToken malloc) hm := by
  induction l generalizing tk hm n with
  | nil =>
    obtain ⟨m, rfl, ⟨tk', hnext, -⟩ | ⟨_, _, _, -, hnil, -⟩⟩ := tokensFrom_cases htokens
    · simp [tokenizeLoop, hnext, wordsOf]
    · cases hnil
  | cons p l ih =>
    obtain ⟨m, rfl, ⟨_, -, hcons⟩ | ⟨tk', token, rest, hnext, hcons, hrest⟩⟩ :=
      tokensFrom_cases htokens
    · cases hcons
    · obtain ⟨rfl, rfl⟩ := List.cons.inj hcons
      by_cases hword : tkGetType tk' = .word
      · simp [tokenizeLoop, hnext, hword, ih hrest]
      · simp [tokenizeLoop, hnext, hword, ih hrest, wordsOf_cons_of_ne hword]

/-- **`tokenize_file`** counts the words of the file, if each of them has a list. -/
theorem tokenizeFile_spec (hfile : fs filePath = some text) :
    (∃ hm, tokenizeFile malloc fs filePath = some hm ∧ Counts hm (words text)) ∨
      tokenizeFile malloc fs filePath = none ∧ ∃ t ∈ words text, ¬Placed t := by
  obtain ⟨l, hl, -⟩ := tokens_spec total_indexer text
  have hwords : words text = wordsOf l := by rw [words, hl, Option.getD_some]
  obtain ⟨hm₀, hcreate, hv, hentries, hsize, hhash, hcompare⟩ :=
    hmCreate_spec (V := ℤ) (show (0 : ℤ) < hashSize by decide) hashString compareString
  have h₀ : Counts hm₀ [] := ⟨hv, hsize, hhash, hcompare, by simp [hentries]⟩
  have htokenize : tokenizeFile malloc fs filePath
      = tokenizeLoop malloc (text.length + 1) (tkCreate indexer text) hm₀ := by
    simp [tokenizeFile, hfile, hcreate]
  rw [htokenize, hwords, tokenizeLoop_eq malloc hl]
  exact countTokens_spec malloc h₀ (wordsOf l)

end Cs214.Indexer
