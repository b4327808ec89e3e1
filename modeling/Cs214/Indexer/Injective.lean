import Cs214.Indexer.AnyOrder
import Cs214.Library.Separated

/-!
# What the inverted-index file tells

`write_to_file` writes paths as they are between two quotes. A path that holds the end of a
record's line (`lineEnd`) can therefore look like two records, and two different indexes can have
the same text (`not_writeToFile_injective`). Without such paths the text is read back: a record
up to the separator behind it (`readable_recordLine`), an entry with all its records
(`readable_entryText`), and the whole index (`indexText_injective`).
-/

namespace Cs214.Indexer

open Tokenizer SortedList

variable {malloc malloc' : Allocator} {s s' : Indeces} {t path offset offset' : CString}
  {fs fs' : FileSystem} {paths paths' : List CString} {n m : Bool} {c : Char} {i j : ℤ}
  {x y : CString} {rs : List RecordT} {index index' : List (CString × List RecordT)}

/-! ### Numbers and separators -/

/-- A number is written in decimal. -/
private theorem toList_toString (i : ℤ) : (toString i).toList =
    if 0 ≤ i then Nat.toDigits 10 i.toNat else '-' :: Nat.toDigits 10 (-i).toNat := by
  rw [Int.toString_eq_repr, Int.repr_eq_if]
  split_ifs
  · exact Nat.toList_repr
  · rw [String.toList_append, Nat.toList_repr]
    rfl

/-- A number is written in digits, without quotes and braces. -/
private theorem isDigit_of_mem_toDigits {k : ℕ} (h : c ∈ Nat.toDigits 10 k) : c.isDigit = true :=
  Nat.isDigit_of_mem_toDigits (by decide) (by decide) h

/-- The characters of a number. -/
private theorem of_mem_toString (h : c ∈ (toString i).toList) : c = '-' ∨ c.isDigit = true := by
  rw [toList_toString] at h
  split_ifs at h
  · exact .inr (isDigit_of_mem_toDigits h)
  · exact (List.mem_cons.mp h).imp_right isDigit_of_mem_toDigits

private theorem quote_not_mem_toString : '"' ∉ (toString i).toList := fun h =>
  absurd (of_mem_toString h) (by decide)

private theorem brace_not_mem_toString : '\x7d' ∉ (toString i).toList := fun h =>
  absurd (of_mem_toString h) (by decide)

/-- A number is read back. -/
private theorem toString_injective (h : (toString i).toList = (toString j).toList) : i = j := by
  have hdigits : ∀ {k l : ℕ}, Nat.toDigits 10 k = Nat.toDigits 10 l → k = l := by
    intro k l hkl
    rw [← Nat.ofDigitChars_ten_toDigits (n := k), hkl, Nat.ofDigitChars_ten_toDigits]
  have hsign : ∀ {k l : ℕ}, Nat.toDigits 10 k ≠ '-' :: Nat.toDigits 10 l := by
    intro k l hkl
    have hminus : '-' ∈ Nat.toDigits 10 k := hkl ▸ List.mem_cons_self ..
    exact absurd (isDigit_of_mem_toDigits hminus) (by decide)
  rw [toList_toString, toList_toString] at h
  split_ifs at h
  · have := hdigits h
    omega
  · exact absurd h hsign
  · exact absurd h.symm hsign
  · have := hdigits (List.cons.inj h).2
    omega

/-- A separator is read back, as the comma is not a newline. -/
private theorem separator_inj (h : separator n ++ x = separator m ++ y) : n = m ∧ x = y := by
  cases n <;> cases m
  · exact ⟨rfl, List.append_cancel_left h⟩
  · cases h
  · cases h
  · exact ⟨rfl, List.append_cancel_left h⟩

private theorem quote_not_mem_separator : '"' ∉ separator n := by
  cases n <;> decide

/-! ### Records -/

/-- The end of a record's line behind the quote. -/
def lineTail (count : ℤ) (next : Bool) : CString :=
  " : ".toList ++ ((toString count).toList ++ '\x7d' :: separator next)

/-- **The end of a record's line**, from the quote behind its path. -/
def lineEnd (count : ℤ) (next : Bool) : CString := '"' :: lineTail count next

private theorem quote_not_mem_lineTail : '"' ∉ lineTail i n := by
  simp only [lineTail, List.mem_append, List.mem_cons, not_or]
  exact ⟨by decide, quote_not_mem_toString, by decide, quote_not_mem_separator⟩

/-- The end of a line with what follows it. -/
private theorem lineEnd_append (i : ℤ) (n : Bool) (x : CString) : lineEnd i n ++ x =
    "\" : ".toList ++ ((toString i).toList ++ ("\x7d".toList ++ (separator n ++ x))) := by
  have htail : lineTail i n ++ x =
      " : ".toList ++ ((toString i).toList ++ ('\x7d' :: separator n ++ x)) := by
    rw [lineTail, List.append_assoc, List.append_assoc]
  exact congrArg (List.cons '"') htail

/-- A record in front of what follows it. -/
private theorem recordLine_append (r : RecordT) (n : Bool) (x : CString) :
    recordLine r ++ (separator n ++ x)
      = "\t\t\x7b\"".toList ++ (r.file ++ (lineEnd r.count n ++ x)) := by
  have hline : recordLine r = "\t\t\x7b\"".toList ++ r.file ++ "\" : ".toList ++
      (toString r.count).toList ++ "\x7d".toList := rfl
  simp only [hline, lineEnd_append, List.append_assoc]

/-- **A path that is no text of records**: it does not hold the end of a record's line. -/
def Plain (path : CString) : Prop := ∀ count > 0, ∀ next, ¬lineEnd count next <:+: path

/-- A path in one line, or without a quote, is plain. -/
private theorem plain_of_not_mem (h : '\n' ∉ path ∨ '"' ∉ path) : Plain path := by
  intro count _ next hheld
  rcases h with hnewline | hquote
  · have hmem : '\n' ∈ lineEnd count next := by
      refine List.mem_cons_of_mem _ (List.mem_append_right _ (List.mem_append_right _ ?_))
      cases next <;> decide
    exact hnewline (hheld.subset hmem)
  · exact hquote (hheld.subset (List.mem_cons_self ..))

/-- The records that are read back. -/
def RecordT.Plain (r : RecordT) : Prop := 0 < r.count ∧ Indexer.Plain r.file

/-- **A record is read back** up to the separator behind it. -/
theorem readable_recordLine : Readable recordLine separator RecordT.Plain := by
  rintro ⟨file, count⟩ ⟨file', count'⟩ n m x y ⟨hcount, hplain⟩ ⟨hcount', hplain'⟩ h
  rw [recordLine_append, recordLine_append] at h
  obtain ⟨rfl, htail⟩ := eq_of_append_marker quote_not_mem_lineTail quote_not_mem_lineTail
    (hplain count' hcount' m) (hplain' count hcount n) (List.append_cancel_left h)
  -- behind ` : ` the count, up to the brace
  have hnumbers : (toString count).toList ++ '\x7d' :: (separator n ++ x)
      = (toString count').toList ++ '\x7d' :: (separator m ++ y) := by
    simp only [lineTail, List.append_assoc] at htail
    exact List.append_cancel_left htail
  obtain ⟨hcounts, hsep⟩ :=
    eq_of_append_cons brace_not_mem_toString brace_not_mem_toString hnumbers
  obtain rfl := toString_injective hcounts
  exact ⟨rfl, separator_inj hsep⟩

/-! ### Entries -/

/-- The texts are lists with separators. -/
private theorem recordsText_eq (rs : List RecordT) :
    recordsText rs = separated recordLine separator rs := by
  induction rs with
  | nil => rfl
  | cons r rs ih => rw [recordsText, separated, ih]

private theorem indecesText_eq (index : List (CString × List RecordT)) :
    indecesText index = separated (fun e => entryText e.1 e.2) separator index := by
  induction index with
  | nil => rfl
  | cons e index ih => rw [indecesText, separated, ih]

/-- The entries that are read back: those of a word with plain records. -/
structure PlainEntry (e : CString × List RecordT) : Prop where
  token : ∀ c ∈ e.1, isalnum c = true
  ne_nil : e.2 ≠ []
  records : ∀ r ∈ e.2, r.Plain

private theorem PlainEntry.quote_not_mem {e : CString × List RecordT} (h : PlainEntry e) :
    '"' ∉ e.1 :=
  fun hmem => absurd (h.token '"' hmem) (by decide)

/-- **An entry is read back** up to the separator behind it. -/
theorem readable_entryText :
    Readable (fun e => entryText e.1 e.2) separator PlainEntry := by
  rintro ⟨t, rs⟩ ⟨t', rs'⟩ n m x y hplain hplain' h
  have htokens : t ++ '"' :: (" : [\n".toList ++ (recordsText rs ++ ("\t]\x7d".toList
        ++ (separator n ++ x))))
      = t' ++ '"' :: (" : [\n".toList ++ (recordsText rs' ++ ("\t]\x7d".toList
        ++ (separator m ++ y)))) := by
    simp only [entryText, List.append_assoc] at h
    exact List.append_cancel_left h
  obtain ⟨rfl, hrest⟩ := eq_of_append_cons hplain.quote_not_mem hplain'.quote_not_mem htokens
  have hrecords := (List.append_right_inj " : [\n".toList).mp hrest
  rw [recordsText_eq, recordsText_eq] at hrecords
  obtain ⟨rfl, hend⟩ := readable_recordLine.separated_inj hplain.ne_nil hplain'.ne_nil
    hplain.records hplain'.records hrecords
  exact ⟨rfl, separator_inj ((List.append_right_inj "\t]\x7d".toList).mp hend)⟩

/-! ### Indexes -/

/-- Only the text of no entries is empty. -/
private theorem indecesText_eq_nil : indecesText index = [] ↔ index = [] := by
  constructor
  · intro h
    cases index with
    | nil => rfl
    | cons e index => cases h
  · rintro rfl
    rfl

/-- **The text of an index determines the index** if its entries are plain. -/
theorem indexText_injective (h : ∀ e ∈ index, PlainEntry e) (h' : ∀ e ∈ index', PlainEntry e)
    (heq : indexText index = indexText index') : index = index' := by
  have hentries : indecesText index = indecesText index' :=
    List.append_cancel_left (List.append_cancel_right heq)
  by_cases hnil : index = []
  · rw [hnil, indecesText, eq_comm, indecesText_eq_nil] at hentries
    rw [hnil, hentries]
  · have hnil' : index' ≠ [] := by
      rwa [Ne, ← indecesText_eq_nil, ← hentries, indecesText_eq_nil]
    rw [indecesText_eq, indecesText_eq, ← List.append_nil (separated _ _ index),
      ← List.append_nil (separated _ _ index')] at hentries
    exact (readable_entryText.separated_inj hnil hnil' h h' hentries).1

/-- **The paths of an index are plain.** -/
def Indeces.Plain (s : Indeces) : Prop := ∀ e ∈ s.contents, ∀ r ∈ e.2, Indexer.Plain r.file

/-- The entries of an index that `index_file` has built. -/
private theorem plainEntry_of_run (hrun : indexFiles malloc fs offset paths = some s)
    (hplain : s.Plain) : ∀ e ∈ s.contents, PlainEntry e := by
  obtain ⟨hvalid, hunder⟩ := indexFiles_some malloc hrun
  rintro ⟨t, rs⟩ he
  have hne : rs ≠ [] := (hvalid.records_pairwise he).2
  have hrecord : ∀ r ∈ rs, ∃ path ∈ paths, 0 < occurrences fs path t ∧
      r = recordOf fs offset path t :=
    fun r hr => (hunder t r).mp ((hvalid.mem_iff_under he r).mp hr)
  refine ⟨?_, hne, fun r hr => ⟨?_, hplain _ he r hr⟩⟩
  · obtain ⟨r, hr⟩ := List.exists_mem_of_ne_nil rs hne
    obtain ⟨path, -, hpos, -⟩ := hrecord r hr
    exact (isKey_of_mem_words (List.count_pos_iff.mp hpos)).isalnum
  · obtain ⟨path, -, hpos, rfl⟩ := hrecord r hr
    exact Int.natCast_pos.mpr hpos

/-- **The inverted-index file determines the index**, for indexes whose paths do not hold the end
of a record's line. -/
theorem writeToFile_injective (hrun : indexFiles malloc fs offset paths = some s)
    (hrun' : indexFiles malloc' fs' offset' paths' = some s') (hplain : s.Plain)
    (hplain' : s'.Plain) :
    ∃ u text u' text', writeToFile malloc s = some (u, text) ∧
      writeToFile malloc' s' = some (u', text') ∧ (text = text' → s.contents = s'.contents) := by
  obtain ⟨u, hwrite⟩ := writeToFile_spec malloc (indexFiles_some malloc hrun).1
  obtain ⟨u', hwrite'⟩ := writeToFile_spec malloc' (indexFiles_some malloc' hrun').1
  exact ⟨u, _, u', _, hwrite, hwrite', indexText_injective (plainEntry_of_run hrun hplain)
    (plainEntry_of_run hrun' hplain')⟩

/-- A directory with two files of one word. -/
def plainFiles : FileSystem := fun path =>
  if path = "d/a".toList then some "x x x".toList
  else if path = "d/b".toList then some "x x".toList
  else none

/-- What its index holds. -/
def plainContents : List (CString × List RecordT) :=
  [("x".toList, [⟨"a".toList, 3⟩, ⟨"b".toList, 2⟩])]

/-- The name of a file that is the text of two records. -/
def twoRecords : CString := "a\" : 3\x7d,\n\t\t\x7b\"b".toList

/-- A directory with one file, of this name. -/
def quotedFiles : FileSystem := fun path =>
  if path = "d/".toList ++ twoRecords then some "x x".toList else none

/-- Two files with names that are plain are indexed. -/
private theorem exists_run_plainFiles :
    ∃ s, indexFiles nextFree plainFiles "d/".toList ["d/a".toList, "d/b".toList] = some s ∧
      s.contents = plainContents :=
  Option.map_eq_some_iff.mp (by decide +kernel)

/-- Indexing two files in both orders. -/
theorem writeToFile_injective_plainFiles :
    ∃ s s', indexFiles nextFree plainFiles "d/".toList ["d/a".toList, "d/b".toList] = some s ∧
      indexFiles nextFree plainFiles "d/".toList ["d/b".toList, "d/a".toList] = some s' ∧
      ∃ u text u' text', writeToFile nextFree s = some (u, text) ∧
        writeToFile nextFree s' = some (u', text') ∧
        (text = text' → s.contents = s'.contents) := by
  have hplain : ∀ e ∈ plainContents, ∀ r ∈ e.2, Plain r.file := by
    have hquote : ∀ e ∈ plainContents, ∀ r ∈ e.2, '"' ∉ r.file := by decide
    exact fun e he r hr => plain_of_not_mem (.inr (hquote e he r hr))
  obtain ⟨s, hrun, hs⟩ := exists_run_plainFiles
  obtain ⟨s', hrun', hs'⟩ := Option.map_eq_some_iff.mp (show (indexFiles nextFree plainFiles
    "d/".toList ["d/b".toList, "d/a".toList]).map Indeces.contents = some plainContents
    by decide +kernel)
  exact ⟨s, s', hrun, hrun', writeToFile_injective hrun hrun'
    (by rwa [Indeces.Plain, hs]) (by rwa [Indeces.Plain, hs'])⟩

/-- **Two indexes with one text**: the name of a file can be the text of two records. -/
theorem not_writeToFile_injective :
    ¬∀ (malloc malloc' : Allocator) (fs fs' : FileSystem) (offset offset' : CString)
      (paths paths' : List CString) (s s' u u' : Indeces) (text : CString),
      (∀ path ∈ paths ++ paths', path ≠ [] ∧ nul ∉ path) →
      indexFiles malloc fs offset paths = some s → indexFiles malloc' fs' offset' paths' = some s' →
      writeToFile malloc s = some (u, text) → writeToFile malloc' s' = some (u', text) →
        s.contents = s'.contents := by
  intro h
  let quotedContents : List (CString × List RecordT) := [("x".toList, [⟨twoRecords, 2⟩])]
  obtain ⟨s, hrun, hs⟩ := exists_run_plainFiles
  obtain ⟨s', hrun', hs'⟩ := Option.map_eq_some_iff.mp (show (indexFiles nextFree quotedFiles
    "d/".toList ["d/".toList ++ twoRecords]).map Indeces.contents = some quotedContents
    by decide +kernel)
  obtain ⟨u, hwrite⟩ := writeToFile_spec nextFree (indexFiles_some nextFree hrun).1
  obtain ⟨u', hwrite'⟩ := writeToFile_spec nextFree (indexFiles_some nextFree hrun').1
  have htexts : indexText s'.contents = indexText s.contents := by
    rw [hs, hs']
    decide +kernel
  rw [htexts] at hwrite'
  have heq := h nextFree nextFree _ _ _ _ _ _ s s' u u' _ (by decide) hrun hrun' hwrite hwrite'
  rw [hs, hs'] at heq
  exact absurd heq (by decide)

end Cs214.Indexer
