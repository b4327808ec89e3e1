import Cs214.Tokenizer.Bounds
import Cs214.Tokenizer.Retokenize
import Cs214.Indexer.Table
import Cs214.Indexer.WordCount

/-!
# The memory accesses of `tokenize_file`

`tokenize_file` reads the string of a file through the tokenizer, and selects a list of the hash
map by the hash of each word. The tokenizer stays in its string, and the loop over its tokens ends.
The index of a word is that of a list exactly if the sum of its characters wraps around to a hash
that is not negative, or to a multiple of the size (`Fits`): a word of 17602324 characters always
has a list, and one that is longer by a `z` may leave the array.
-/

namespace Cs214.Indexer

open Tokenizer Hashmap

/-! ### The string -/

/-- **Any sequence of calls of `TKGetNextToken`** keeps the cursor in the string, and each token
is the piece of it that the call has passed; so the loop of `tokenize_file` ends after at most as
many tokens as there are characters. -/
theorem calls_bounded {ts : CString} (hts : nul ∉ ts)
    {tr : List (Event Pointer.TokenizerT Unit (Option CString))} {tk : Pointer.TokenizerT}
    (hr : Run (Pointer.machine indexer) (Pointer.tkCreate indexer ts) tr tk) :
    tk.curPos ≤ ts.length ∧ (∀ e ∈ tr, ∃ f, Pointer.Keeps ts indexer e f) ∧
      (Pointer.tkGetNextToken indexer tk).isSome ∧
      ((∀ e ∈ tr, e.out.isSome) → tr.length ≤ ts.length) ∧
      ∃ l, Pointer.tokens indexer ts = some l ∧ l.length ≤ ts.length ∧
        ∀ malloc hm n, ts.length < n → tokenizeLoop malloc n (tkCreate indexer ts) hm =
          (wordsOf l).foldlM (countToken malloc) hm := by
  obtain ⟨htokens, hle⟩ := Pointer.curPos_le_of_run total_indexer hts hr
  obtain ⟨l, hl, hlist, hlength⟩ := Pointer.tokens_eq total_indexer hts
  refine ⟨hle, fun e he => Pointer.keeps_of_run total_indexer hts hr he, ?_, fun htr => ?_,
    l, hl, hlength, fun malloc hm n hn => ?_⟩
  · subst htokens
    exact Pointer.isSome_tkGetNextToken total_indexer hts hle
  · exact (Pointer.length_le_curPos total_indexer hts hr htr).trans hle
  · exact tokenizeLoop_eq malloc (tokensFrom_mono hlist hn)

/-- A shift and a comment that does not end. -/
def shiftComment : CString := "a>>=/*b*".toList

/-- Two tokens, and the end behind the comment. -/
theorem calls_bounded_shiftComment : ∃ tr tk,
    Run (Pointer.machine indexer) (Pointer.tkCreate indexer shiftComment) tr tk ∧
      tr.map Event.out = [some "a".toList, some ">>=".toList, none] ∧
      tk.curPos = shiftComment.length ∧ (∀ e ∈ tr, ∃ f, Pointer.Keeps shiftComment indexer e f) ∧
      (Pointer.tkGetNextToken indexer tk).isSome := by
  have hrun := (Pointer.machine indexer).run_get (show ((Pointer.machine indexer).exec
    (Pointer.tkCreate indexer shiftComment) [(), (), ()]).isSome by decide)
  have hbounded := calls_bounded (by decide) hrun
  exact ⟨_, _, hrun, by decide, by decide, hbounded.2.1, hbounded.2.2.1⟩

/-! ### The array of lists -/

variable {V : Type} {size : ℤ} {compare : CString → CString → ℤ} {t text : CString}

/-- **The index of a key** in a map of `hm_create` with `hash_string`, after any calls. -/
theorem inBounds_iff_fits {hm : HashmapT CString V} (h : Made size hashString compare hm)
    (ht : IsKey t) : InBounds hm t ↔ Fits size (charSum (hashed t)) := by
  rw [h.inBounds_iff, tmod_hashString_nonneg_iff ht.isalnum]

/-- The index of a short word in a map without entries. -/
theorem inBounds_iff_fits_cat : ∃ hm : HashmapT CString ℤ,
    Made hashSize hashString compareString hm ∧
      (InBounds hm ['c', 'a', 't'] ↔ Fits hashSize (charSum (hashed ['c', 'a', 't']))) :=
  ⟨_, .create rfl, inBounds_iff_fits (.create rfl) ⟨List.cons_ne_nil _ _, by simp⟩⟩

/-- **Short keys** have a list. -/
theorem fits_of_length_le (ht : IsKey t) (hlength : t.length ≤ 17602324) (size : ℤ) :
    Fits size (charSum (hashed t)) := by
  have hle := (charSum_bounds ht.isalnum).2
  rw [hashed_eq (by omega)]
  exact .inl (by omega)

/-! ### The hash map of `tokenize_file` -/

variable (malloc : Allocator)

private theorem made_countToken {hm hm' : HashmapT CString ℤ} {hash : CString → ℤ}
    (h : Made size hash compare hm) (hcount : countToken malloc hm t = some hm') :
    Made size hash compare hm' := by
  obtain ⟨p, -, hcount⟩ := Option.bind_eq_some_iff.mp hcount
  cases p with
  | none =>
    obtain ⟨⟨hm₁, result⟩, hstore, heq⟩ := Option.bind_eq_some_iff.mp hcount
    obtain rfl := Option.some.inj heq
    exact h.store hstore
  | some tokenCount =>
    obtain ⟨node, -, hset⟩ := Option.bind_eq_some_iff.mp hcount
    exact h.setValue hset

/-- **The words before**: the hash map after any of them is one of `hm_create`. -/
theorem made_countTokens {hm hm' : HashmapT CString ℤ} {hash : CString → ℤ}
    (h : Made size hash compare hm) {ws : List CString}
    (hcount : ws.foldlM (countToken malloc) hm = some hm') : Made size hash compare hm' := by
  induction ws generalizing hm with
  | nil =>
    obtain rfl := Option.some.inj hcount
    exact h
  | cons t ws ih =>
    rw [List.foldlM_cons] at hcount
    obtain ⟨hm₁, hfirst, hrest⟩ := Option.bind_eq_some_iff.mp hcount
    exact ih (made_countToken malloc h hfirst) hrest

theorem made_of_tokenizeFile {hm : HashmapT CString ℤ} {fs : FileSystem} {filePath : CString}
    (h : tokenizeFile malloc fs filePath = some hm) :
    Made hashSize hashString compareString hm := by
  obtain ⟨text, -, h⟩ := Option.bind_eq_some_iff.mp h
  obtain ⟨hm₀, hcreate, h⟩ := Option.bind_eq_some_iff.mp h
  obtain ⟨l, hl, -⟩ := tokens_spec total_indexer text
  rw [tokenizeLoop_eq malloc hl] at h
  exact made_countTokens malloc (.create hcreate) h

/-- A word that has been counted has a list. -/
private theorem Counts.placed {hm : HashmapT CString ℤ} {seen : List CString} (h : Counts hm seen)
    (ht : t ∈ seen) : Placed t := by
  obtain ⟨a, ha, node, hnode, hmap⟩ := HashmapT.mem_entries.mp
    ((h.entries ⟨t, seen.count t⟩).mpr ⟨List.count_pos_iff.mpr ht, rfl⟩)
  obtain ⟨i, head, hi, ha⟩ := HashmapT.mem_addresses.mp ha
  have hindex := h.valid.home i head hi a ha node hnode
  rw [hmap, h.index] at hindex
  exact (Int.natCast_nonneg i).trans_eq hindex.symm

/-- **`tokenize_file`** faults exactly if a word of the file has no list. -/
theorem tokenizeFile_isSome_iff {fs : FileSystem} {filePath : CString}
    (hfile : fs filePath = some text) : (tokenizeFile malloc fs filePath).isSome ↔
      ∀ t ∈ words text, Fits hashSize (charSum (hashed t)) := by
  have hplaced {t : CString} (ht : t ∈ words text) :
      Placed t ↔ Fits hashSize (charSum (hashed t)) :=
    tmod_hashString_nonneg_iff (isKey_of_mem_words ht).isalnum hashSize
  rcases tokenizeFile_spec malloc hfile with ⟨hm, hsome, hcounts⟩ | ⟨hnone, t, ht, hnot⟩
  · rw [hsome]
    exact iff_of_true rfl fun t ht => (hplaced ht).mp (hcounts.placed ht)
  · rw [hnone]
    exact iff_of_false (by simp) fun hfits => hnot ((hplaced ht).mpr (hfits t ht))

/-- **A text that is a word** has that word only. -/
theorem words_self (ht : IsWord indexer t) : words t = [t.map tolower] := by
  obtain ⟨c, w, rfl, hc, hw⟩ := ht
  have hmem : [c] ++ w ∈ letter isalpha * many isalnum :=
    Language.append_mem_mul (singleton_mem_letter hc) (mem_many.mpr hw)
  have hnul : nul ∉ c :: w := by
    rw [List.mem_cons, not_or]
    exact ⟨(ne_nul_of_mem (by decide) hc).symm, fun h => ne_nul_of_mem (by decide) (hw nul h) rfl⟩
  have hspace : isspace c = false := by
    rw [isalpha_iff] at hc
    rw [Bool.eq_false_iff, ne_eq, isspace_iff]
    omega
  have hsettled : ∀ p ∈ [(c :: w, TokenT.word)], Settled indexer p := by
    rw [List.forall_mem_singleton]
    exact ⟨⟨c, w, rfl, hspace⟩, hnul,
      fun tk rest hrest _ hcur => tkGetNextToken_word hmem hrest hcur⟩
  have hspaced : spaced [(c :: w, TokenT.word)] = c :: w := List.append_nil _
  have hdrop : (c :: w).dropWhile isspace = spaced [(c :: w, .word)] :=
    (congrArg (List.dropWhile isspace) hspaced.symm).trans (dropWhile_spaced hsettled)
  have htokens : tokens indexer (c :: w) = some [(c :: w, .word)] :=
    tokensFrom_spaced hsettled hnul hdrop (by simp)
  rw [words, htokens, Option.getD_some, wordsOf_cons_word]
  rfl

/-- A word of `n` times `z`. -/
def zs (n : ℕ) : CString := List.replicate n 'z'

private theorem isWord_zs {n : ℕ} (hn : 0 < n) : IsWord indexer (zs n) := by
  obtain ⟨n, rfl⟩ := Nat.exists_eq_add_one.mpr hn
  refine ⟨'z', List.replicate n 'z', rfl, by decide, fun d hd => ?_⟩
  rw [List.eq_of_mem_replicate hd]
  decide

private theorem words_zs {n : ℕ} (hn : 0 < n) : words (zs n) = [zs n] := by
  rw [words_self (isWord_zs hn), zs, List.map_replicate]
  rfl

private theorem charSum_zs (n : ℕ) : charSum (zs n) = n * 122 := by
  induction n with
  | zero => rfl
  | succ n ih =>
    have hz : 'z'.toNat = 122 := rfl
    rw [zs, List.replicate_succ, charSum_cons, ← zs, ih, hz]
    omega

/-- **A file of 17602325 times `z`**: the hash of its word wraps around, and the index is
negative. -/
theorem not_inBounds_zs : zs 17602325 ∈ words (zs 17602325) ∧ ∃ hm : HashmapT CString ℤ,
    hmCreate hashSize hashString compareString = some hm ∧ ¬InBounds hm (zs 17602325) := by
  have hword : zs 17602325 ∈ words (zs 17602325) := by
    rw [words_zs (by decide)]
    exact List.mem_singleton_self _
  obtain ⟨hm, hcreate, -⟩ :=
    hmCreate_spec (V := ℤ) (show (0 : ℤ) < hashSize by decide) hashString compareString
  refine ⟨hword, hm, hcreate, fun hbounds => ?_⟩
  have hmade : Made hashSize hashString compareString hm := .create hcreate
  have hlength : (zs 17602325).length < 2 ^ 31 := by
    rw [zs, List.length_replicate]
    omega
  rw [hmade.inBounds_iff, tmod_hashString_nonneg_iff (isKey_of_mem_words hword).isalnum,
    hashed_eq hlength, charSum_zs] at hbounds
  rcases hbounds with hlt | hdvd
  · omega
  · rw [hashSize] at hdvd
    omega

end Cs214.Indexer
