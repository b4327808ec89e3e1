import Cs214.Library.Separated
import Cs214.Tokenizer.Copies
import Cs214.Tokenizer.HashTable
import Cs214.Tokenizer.Retokenize

/-!
# The standalone tokenizer

`main` of the standalone program prints a line for each token of its arguments: the name of the
token, which two hash tables are asked for, and the token. At a control character it prints an
error and exits.

What it prints is what `report` says of the tokens that the copy of the indexer gives
(`main_eq`), as the hash tables hold just the keywords and the operators. A line can be read back
whatever follows it (`lineOf_inj`), so the output tells the tokens and their types.
-/

namespace Cs214.Tokenizer

open HashTable
open Indexer (charSum isascii Fits)

/-! ### The dictionaries -/

/-- `HASH_MAX`. -/
def hashMax : ℕ := 15

/-- The keywords of `createKeywordDictionary`. -/
def keywords : List CString :=
  ["auto".toList, "break".toList, "case".toList, "char".toList, "const".toList,
   "continue".toList, "default".toList, "do".toList, "double".toList, "else".toList,
   "enum".toList, "extern".toList, "float".toList, "for".toList, "goto".toList, "if".toList,
   "int".toList, "long".toList, "register".toList, "return".toList, "short".toList,
   "signed".toList, "sizeof".toList, "static".toList, "struct".toList, "switch".toList,
   "typedef".toList, "union".toList, "unsigned".toList, "void".toList, "volatile".toList,
   "while".toList]

/-- The names of the operators in `createCDictionary`. -/
def opNames : List CString :=
  ["left paren".toList, "right paren".toList, "left brace".toList, "right brace".toList,
   "tilde".toList, "question mark".toList, "colon".toList, "period".toList, "comma".toList,
   "asterisk".toList, "ampersand".toList, "minus".toList, "exclamation point".toList,
   "plus".toList, "solidus".toList, "percent".toList, "right bracket".toList,
   "left bracket".toList, "equals".toList, "caret".toList, "vertical bar".toList,
   "asterisk equals".toList, "double ampersand".toList, "double minus".toList,
   "exclamation equals".toList, "double plus".toList, "solidus equals".toList,
   "percent equals".toList, "double right bracket".toList, "double left bracket".toList,
   "double equals".toList, "caretequals".toList, "double vertical bar".toList,
   "ampersand equals".toList, "minus equals".toList, "plus equals".toList,
   "greater or equal".toList, "less or equal".toList, "vertical bar equals".toList,
   "pointer".toList, "double right equals".toList, "double left equals".toList]

def keywordEntries : List ListT := keywords.map fun kw => ⟨kw, " ".toList⟩

def operatorEntries : List ListT := operators.zipWith ListT.mk opNames

def createKeywordDictionary : Option HashTableT := addEntries (htCreate hashMax) keywordEntries

def createCDictionary : Option HashTableT := addEntries (htCreate hashMax) operatorEntries

/-! ### `main` -/

def malName : CString := "mal".toList
def decName : CString := "decimal".toList
def octalName : CString := "octal".toList
def floatName : CString := "float".toList
def hexName : CString := "hex".toList
def wordName : CString := "word".toList
def keywordName : CString := "C-keyword".toList
def operatorName : CString := "operator".toList

/-- **The name of a token**, by its type and the dictionaries. -/
def typeToString (type : TokenT) (token : CString) (cDict kDict : HashTableT) : Option CString :=
  match type with
  | .mal => some malName
  | .dec => some decName
  | .octal => some octalName
  | .float => some floatName
  | .word => do
    let temp ← find kDict token
    return if temp = none then wordName else keywordName
  | .hex => some hexName
  | .ope => do
    let temp ← find cDict token
    return temp.getD operatorName
  | .ctr => some []

/-- The line of a token. -/
def tokenLine (name token : CString) : CString :=
  name ++ " \"".toList ++ token ++ "\"\n".toList

/-- The line of the error at a control character. -/
def errorLine (c : Char) : CString := "Error: 0x".toList ++ Nat.toDigits 16 c.toNat ++ "\n".toList

def usage : CString := "usage: tokenizer tokens \n".toList

/-- What has been printed, and whether the program has exited. -/
structure Shown where
  text : CString
  exits : Bool
  deriving DecidableEq, Repr

/-- Something printed before. -/
def Shown.behind (shown : Shown) (text : CString) : Shown :=
  { shown with text := text ++ shown.text }

/-- **The loop over the tokens** of an argument, up to the exit at a control character. -/
def printTokens (cDict kDict : HashTableT) : ℕ → TokenizerT → Option Shown
  | 0, _ => none
  | fuel + 1, tk => do
    let (tk, token) ← tkGetNextToken exiting tk
    match token with
    | none => some ⟨[], false⟩
    | some token =>
      if tkGetType tk = .ctr then some ⟨errorLine (deref token), true⟩
      else do
        let name ← typeToString (tkGetType tk) token cDict kDict
        let shown ← printTokens cDict kDict fuel tk
        return shown.behind (tokenLine name token)

/-- The loop over the arguments. -/
def printArguments (cDict kDict : HashTableT) : List CString → Option Shown
  | [] => some ⟨[], false⟩
  | arg :: args => do
    let shown ← printTokens cDict kDict (arg.length + 1) (tkCreate exiting arg)
    if shown.exits then return shown
    else do
      let rest ← printArguments cDict kDict args
      return rest.behind shown.text

/-- What the program prints, and its exit status. -/
structure Exit where
  text : CString
  status : ℤ
  deriving DecidableEq, Repr

/-- **The standalone program** on `argv`. -/
def main (argv : List CString) : Option Exit :=
  if argv.length = 1 then some ⟨usage, 0⟩
  else do
    let cDict ← createCDictionary
    let kDict ← createKeywordDictionary
    let shown ← printArguments cDict kDict argv.tail
    return ⟨shown.text, if shown.exits then -1 else 0⟩

/-! ### What is shown -/

variable {name name' w rest x y : CString} {args args' : List CString} {t : TokenT}
  {p q : CString × TokenT} {l l' : List (CString × TokenT)} {cDict kDict : HashTableT} {fuel : ℕ}
  {tk : TokenizerT} {exit exit' : Exit} {c d : Char}

/-- The tokens of all arguments. -/
def tokensOf (args : List CString) : List (CString × TokenT) :=
  args.flatMap fun arg => (tokens indexer arg).getD []

/-- **The tokens that are shown**, up to the first control character. -/
def shown : List (CString × TokenT) → List (CString × TokenT)
  | [] => []
  | p :: l => if p.2 = .ctr then [p] else p :: shown l

/-- The name of a token, by the keywords and the operators themselves. -/
def nameOf (token : CString) : TokenT → CString
  | .mal => malName
  | .dec => decName
  | .octal => octalName
  | .float => floatName
  | .hex => hexName
  | .word => if token ∈ keywords then keywordName else wordName
  | .ope => ((operatorEntries.find? fun e => e.key = token).map ListT.value).getD operatorName
  | .ctr => []

/-- The line of a token, which is an error for a control character. -/
def lineOf (p : CString × TokenT) : CString :=
  if p.2 = .ctr then errorLine (deref p.1) else tokenLine (nameOf p.1 p.2) p.1

/-- A word is looked for in the array of the dictionary. -/
def Findable (p : CString × TokenT) : Prop := p.2 = .word → Fits hashMax (charSum p.1)

instance : DecidablePred Findable := fun p =>
  inferInstanceAs (Decidable (p.2 = .word → Fits hashMax (charSum p.1)))

/-- **What is shown of some tokens.** -/
def report : List (CString × TokenT) → Option Shown
  | [] => some ⟨[], false⟩
  | p :: l =>
    if p.2 = .ctr then some ⟨lineOf p, true⟩
    else if Findable p then (report l).map fun shown => shown.behind (lineOf p)
    else none

private theorem findable_of_ctr (h : p.2 = .ctr) : Findable p := fun hword => by
  rw [h] at hword
  cases hword

/-- The report is there if all words can be looked up, and has a line for each token shown. -/
private theorem report_eq (l : List (CString × TokenT)) : report l =
    if ∀ p ∈ shown l, Findable p then
      some ⟨(shown l).flatMap lineOf, (shown l).any fun p => p.2 = .ctr⟩
    else none := by
  induction l with
  | nil => rfl
  | cons p l ih =>
    rw [report, shown]
    by_cases hctr : p.2 = .ctr
    · have hall : ∀ q ∈ [p], Findable q := by simpa using findable_of_ctr hctr
      rw [if_pos hctr, if_pos hctr, if_pos hall]
      simp [hctr]
    rw [if_neg hctr, if_neg hctr, ih]
    by_cases hp : Findable p
    · by_cases hl : ∀ q ∈ shown l, Findable q
      · rw [if_pos hp, if_pos hl, if_pos (List.forall_mem_cons.mpr ⟨hp, hl⟩)]
        simp [Shown.behind, hctr]
      · rw [if_pos hp, if_neg hl, if_neg fun h => hl (List.forall_mem_cons.mp h).2]
        rfl
    · rw [if_neg hp, if_neg fun h => hp (List.forall_mem_cons.mp h).1]

/-- One argument after the other, up to the exit. -/
private theorem report_append (l l' : List (CString × TokenT)) : report (l ++ l') =
    (report l).bind fun first =>
      if first.exits then some first else (report l').map fun rest => rest.behind first.text := by
  induction l with
  | nil => cases h : report l' <;> simp [report, h, Shown.behind]
  | cons p l ih =>
    rw [List.cons_append, report, report, ih]
    split_ifs with hctr hp
    · rfl
    · cases report l with
      | none => rfl
      | some first =>
        cases hexits : first.exits with
        | true => simp [Shown.behind, hexits]
        | false => cases report l' <;> simp [Shown.behind, hexits]
    · rfl

/-! ### The characters of a token -/

/-- The visible characters, which are letters, digits and punctuation. -/
def isgraph (c : Char) : Bool := isalnum c || ispunct c

/-- The characters that are shown, as a range of codes. -/
private theorem isgraph_iff : isgraph c = true ↔ 33 ≤ c.toNat ∧ c.toNat ≤ 126 := by
  rw [isgraph, Bool.or_eq_true, ispunct_iff]
  cases halnum : isalnum c
  · simp
  · rw [isalnum_iff] at halnum
    simp only [true_or, true_iff]
    omega

private theorem isgraph_of_isalnum (h : isalnum c = true) :
    isgraph c = true := by rw [isgraph, h]; rfl

private theorem isgraph_of_isdigit (c : Char) (h : isdigit c = true) : isgraph c = true :=
  isgraph_of_isalnum (by rw [isalnum, h, Bool.or_true])

private theorem isgraph_of_beq (hd : isgraph d = true) (c : Char) (h : (c == d) = true) :
    isgraph c = true := by rwa [beq_iff_eq.mp h]

private theorem isgraph_of_beq_or (hc : isgraph c = true) (hd : isgraph d = true) (e : Char)
    (h : (e == c || e == d) = true) : isgraph e = true := by
  rw [Bool.or_eq_true] at h
  exact h.elim (isgraph_of_beq hc e) (isgraph_of_beq hd e)

/-- The letters of the number types are shown. -/
private theorem letters_digits : Letters isgraph digits := .many1 isgraph_of_isdigit

private theorem letters_point : Letters isgraph point := .letter (isgraph_of_beq (by decide))

private theorem letters_expSign : Letters isgraph expSign :=
  .mul (.letter (isgraph_of_beq_or (by decide) (by decide)))
    (.opt (.letter (isgraph_of_beq_or (by decide) (by decide))))

private theorem letters_pointed : Letters isgraph pointed :=
  .add (.mul (.mul letters_digits letters_point) (.many isgraph_of_isdigit))
    (.mul letters_point letters_digits)

private theorem letters_hexPrefix : Letters isgraph hexPrefix :=
  .mul (.letter (isgraph_of_beq (by decide)))
    (.letter (isgraph_of_beq_or (by decide) (by decide)))

/-- **A number** has visible characters only. -/
theorem Numeral.isgraph (h : Numeral t w rest) : ∀ c ∈ w, isgraph c = true := by
  have hexponent : Letters Tokenizer.isgraph exponent := .mul letters_expSign letters_digits
  cases h with
  | octal h =>
    have hoctal : Letters Tokenizer.isgraph Tokenizer.octal :=
      .mul (.letter (isgraph_of_beq (by decide)))
        (.many1 fun c hc => isgraph_of_isdigit c (isdigit_of_isodigit hc))
    exact hoctal w h
  | dec h => exact letters_digits w h.1
  | hex h =>
    have hhex : Letters Tokenizer.isgraph Tokenizer.hex :=
      .mul letters_hexPrefix (.many1 fun c hc => isgraph_of_isalnum (isalnum_of_isxdigit hc))
    exact hhex w h
  | float h =>
    have hfloat : Letters Tokenizer.isgraph Tokenizer.float :=
      .add (.mul letters_pointed (.opt hexponent)) (.mul letters_digits hexponent)
    exact hfloat w h
  | malHex h => exact letters_hexPrefix w h
  | malExp h =>
    have hmantissa : Letters Tokenizer.isgraph mantissa := .add letters_digits letters_pointed
    exact hmantissa.mul letters_expSign w h

/-- An operator has at most three characters, which are visible. -/
private theorem IsOperator.isgraph (h : IsOperator w rest) :
    w.length ≤ 3 ∧ ∀ c ∈ w, isgraph c = true := by
  have htable : ∀ u ∈ operators, u.length ≤ 3 ∧ u.all Tokenizer.isgraph = true :=
    forall_mem_of_all (by decide)
  rcases h with h | ⟨-, c, rfl, hc⟩
  · obtain ⟨hlength, hall⟩ := htable w h.mem
    exact ⟨hlength, List.all_eq_true.mp hall⟩
  · exact ⟨by simp, by simp [Tokenizer.isgraph, hc]⟩

/-- **What a token is** that is no control character. -/
theorem Lexeme.isgraph (h : Lexeme isalnum (some .ctr) t w rest) (ht : t ≠ .ctr) :
    ∀ c ∈ w, isgraph c = true := by
  cases h with
  | word h =>
    have hword : Letters Tokenizer.isgraph (letter isalpha * many isalnum) :=
      .mul (.letter fun c hc => isgraph_of_isalnum (by rw [isalnum, hc]; rfl))
        (.many fun c hc => isgraph_of_isalnum hc)
    exact hword w h
  | number h => exact h.isgraph
  | control hctr => exact absurd (Option.some.inj hctr).symm ht
  | ope h => exact h.isgraph.2

/-- **A token of an argument.** -/
structure IsToken (p : CString × TokenT) : Prop where
  lexeme : ∃ rest, Lexeme isalnum (some .ctr) p.2 p.1 rest
  length : p.1.length < 2 ^ 31

/-- What is met in the arguments are tokens. -/
private theorem isToken_of_mem (hargs : ∀ arg ∈ args, arg.length < 2 ^ 31) :
    ∀ p ∈ tokensOf args, IsToken p := by
  rintro ⟨w, t⟩ hp
  obtain ⟨arg, harg, hp⟩ := List.mem_flatMap.mp hp
  obtain ⟨l, hl, -⟩ := tokens_spec total_indexer arg
  rw [hl, Option.getD_some] at hp
  obtain ⟨hpiece, tk₁, tk', hcall, rfl⟩ := tokensFrom_mem total_indexer hl hp
  exact ⟨⟨_, (tkGetNextToken_lexeme (.inl rfl) hcall).2⟩,
    Nat.lt_of_le_of_lt hpiece.length_le (hargs arg harg)⟩

/-- A token that is no control character is shown. -/
private theorem IsToken.isgraph (h : IsToken p) (hctr : p.2 ≠ .ctr) :
    ∀ c ∈ p.1, Tokenizer.isgraph c = true := by
  obtain ⟨rest, hlexeme⟩ := h.lexeme
  exact hlexeme.isgraph hctr

private theorem isascii_of_isgraph (h : isgraph c = true) : isascii c := by
  rw [isgraph_iff] at h
  rw [isascii]
  omega

/-- A token of type CTR is one control character. -/
private theorem IsToken.control (h : IsToken p) (hctr : p.2 = .ctr) :
    ∃ c, p.1 = [c] ∧ iscntrl c = true := by
  obtain ⟨w, t⟩ := p
  obtain ⟨rest, hlexeme⟩ := h.lexeme
  obtain rfl : t = .ctr := hctr
  cases hlexeme with
  | number h => exact absurd rfl h.ne_ctr
  | @control t c rest ht hc => exact ⟨c, rfl, hc⟩

/-! ### The dictionaries hold the tables -/

/-- A dictionary with these entries. -/
structure Dictionary (entries : List ListT) (dict : HashTableT) : Prop where
  size : dict.size = hashMax
  holds : dict.Holds entries

/-- A dictionary can be made if no key hashes to an index outside the array. -/
private theorem exists_dictionary {entries : List ListT} (h : ∀ e ∈ entries, Placed hashMax e.key) :
    ∃ dict, addEntries (htCreate hashMax) entries = some dict ∧ Dictionary entries dict := by
  obtain ⟨dict, hdict, hsize, hholds⟩ :=
    addEntries_eq (holds_htCreate (show 0 < hashMax by decide)) h
  exact ⟨dict, hdict, hsize, hholds⟩

private theorem exists_keywordDictionary :
    ∃ kDict, createKeywordDictionary = some kDict ∧ Dictionary keywordEntries kDict :=
  exists_dictionary (forall_mem_of_all (by decide +kernel))

private theorem exists_cDictionary :
    ∃ cDict, createCDictionary = some cDict ∧ Dictionary operatorEntries cDict :=
  exists_dictionary (forall_mem_of_all (by decide +kernel))

/-- A word is looked up in a dictionary as in the list of its entries, if its hash is an index. -/
private theorem Dictionary.find {entries : List ListT} {dict : HashTableT}
    (h : Dictionary entries dict)
    (hascii : ∀ c ∈ w, isascii c) (hlength : w.length < 2 ^ 31) : find dict w =
      if Fits hashMax (charSum w) then
        some ((entries.find? fun e => e.key = w).map ListT.value)
      else none := by
  rw [find_eq h.holds, h.size]
  exact if_congr (placed_iff hascii hlength) rfl rfl

/-- The entry of a keyword. -/
private theorem find?_keywordEntries (w : CString) :
    (keywordEntries.find? fun e => e.key = w).isSome = true ↔ w ∈ keywords := by
  simp [keywordEntries, List.find?_isSome]

/-- **The name of a token** is the one of the tables. -/
theorem typeToString_eq (hc : Dictionary operatorEntries cDict)
    (hk : Dictionary keywordEntries kDict) (hp : IsToken p) (hctr : p.2 ≠ .ctr) :
    typeToString p.2 p.1 cDict kDict =
      if Findable p then some (nameOf p.1 p.2) else none := by
  obtain ⟨w, t⟩ := p
  have hascii : ∀ c ∈ w, isascii c := fun c hc => isascii_of_isgraph (hp.isgraph hctr c hc)
  have hfindable (h : t ≠ .word) : Findable (w, t) := fun hword => absurd hword h
  cases t with
  | ctr => exact absurd rfl hctr
  | mal | dec | octal | float | hex => exact (if_pos (hfindable (by decide))).symm
  | word =>
    have hiff : Findable (w, .word) ↔ Fits hashMax (charSum w) := by simp [Findable]
    have hkeyword := find?_keywordEntries w
    rw [typeToString, hk.find hascii hp.length, if_congr hiff rfl rfl, nameOf]
    split_ifs with hfits hmem
    · obtain ⟨e, he⟩ := Option.isSome_iff_exists.mp (hkeyword.mpr hmem)
      rw [he]
      rfl
    · have hnone : (keywordEntries.find? fun e => e.key = w) = none := by
        rwa [← hkeyword, Bool.not_eq_true, Option.isSome_eq_false_iff,
          Option.isNone_iff_eq_none] at hmem
      rw [hnone]
      rfl
    · rfl
  | ope =>
    obtain ⟨rest, hlexeme⟩ := hp.lexeme
    have hlength : w.length ≤ 3 := by
      cases hlexeme with
      | number h => cases h
      | control h => cases h
      | ope h => exact h.isgraph.1
    have hle := charSum_le hascii
    have hfits : Fits hashMax (charSum w) := .inl (by omega)
    rw [typeToString, hc.find hascii hp.length, if_pos hfits, if_pos (hfindable (by decide))]
    rfl

/-! ### The program -/

/-- **The loop over the tokens** shows them. -/
theorem printTokens_eq (hc : Dictionary operatorEntries cDict)
    (hk : Dictionary keywordEntries kDict) (hl : tokensFrom exiting fuel tk = some l)
    (hp : ∀ p ∈ l, IsToken p) : printTokens cDict kDict fuel tk = report l := by
  induction l generalizing fuel tk with
  | nil =>
    obtain ⟨n, rfl, ⟨tk', hnext, -⟩ | ⟨_, _, _, -, hnil, -⟩⟩ := tokensFrom_cases hl
    · simp [printTokens, hnext, report]
    · cases hnil
  | cons p l ih =>
    obtain ⟨n, rfl, ⟨_, -, hnil⟩ | ⟨tk', w, rest, hnext, hcons, hrest⟩⟩ := tokensFrom_cases hl
    · cases hnil
    obtain ⟨rfl, rfl⟩ := List.cons.inj hcons
    obtain ⟨hw, hp⟩ := List.forall_mem_cons.mp hp
    simp only [printTokens, hnext, Option.bind_eq_bind, Option.bind_some, report]
    by_cases hctr : tkGetType tk' = .ctr
    · rw [if_pos hctr, if_pos hctr, lineOf, if_pos hctr]
    · rw [if_neg hctr, if_neg hctr, typeToString_eq hc hk hw hctr, ih hrest hp, lineOf,
        if_neg hctr]
      split_ifs
      · cases report l <;> rfl
      · rfl

/-- With both dictionaries, the loop over the arguments prints the report. -/
private theorem printArguments_eq (hc : Dictionary operatorEntries cDict)
    (hk : Dictionary keywordEntries kDict) (hp : ∀ p ∈ tokensOf args, IsToken p) :
    printArguments cDict kDict args = report (tokensOf args) := by
  induction args with
  | nil => rfl
  | cons arg args ih =>
    obtain ⟨l, hl, -⟩ := tokens_spec total_indexer arg
    have hsplit : tokensOf (arg :: args) = l ++ tokensOf args := by
      rw [tokensOf, List.flatMap_cons, hl]
      rfl
    rw [hsplit] at hp ⊢
    obtain ⟨hfirst, hrest⟩ := List.forall_mem_append.mp hp
    have hexiting : tokensFrom exiting (arg.length + 1) (tkCreate exiting arg) = some l := by
      rw [tokensFrom_exiting]
      exact hl
    rw [printArguments, printTokens_eq hc hk hexiting hfirst, ih hrest, report_append]
    cases report l with
    | none => rfl
    | some first =>
      cases hexits : first.exits with
      | true => simp [hexits]
      | false => cases report (tokensOf args) <;> simp [hexits]

/-- **The program** shows the tokens of its arguments. -/
theorem main_eq (hne : args ≠ []) (hargs : ∀ arg ∈ args, arg.length < 2 ^ 31) :
    main (name :: args) = (report (tokensOf args)).map fun shown =>
      ⟨shown.text, if shown.exits then -1 else 0⟩ := by
  obtain ⟨cDict, hcDict, hc⟩ := exists_cDictionary
  obtain ⟨kDict, hkDict, hk⟩ := exists_keywordDictionary
  have hlength : (name :: args).length ≠ 1 := by simpa using hne
  rw [main, if_neg hlength, hcDict, hkDict, List.tail_cons]
  simp only [Option.bind_eq_bind, Option.bind_some,
    printArguments_eq hc hk (isToken_of_mem hargs)]
  cases report (tokensOf args) <;> rfl

/-! ### Reading the output back -/

/-- The type of a token with this name. -/
def typeNamed (name : CString) : TokenT :=
  if name = malName then .mal
  else if name = decName then .dec
  else if name = octalName then .octal
  else if name = floatName then .float
  else if name = hexName then .hex
  else if name ∈ [wordName, keywordName] then .word
  else .ope

/-- The names with the types that have them. -/
def typeNames : List (TokenT × CString) :=
  [(.mal, malName), (.dec, decName), (.octal, octalName), (.float, floatName), (.hex, hexName),
   (.word, wordName), (.word, keywordName)] ++ (operatorName :: opNames).map (Prod.mk .ope)

/-- The name that is printed is one of the names of its type. -/
private theorem mem_typeNames (w : CString) (ht : t ≠ .ctr) : (t, nameOf w t) ∈ typeNames := by
  cases t with
  | ctr => exact absurd rfl ht
  | mal | dec | octal | float | hex => simp [typeNames, nameOf]
  | word =>
    rw [nameOf]
    split_ifs <;> simp [typeNames]
  | ope =>
    refine List.mem_append_right _ (List.mem_map_of_mem ?_)
    rw [nameOf]
    cases h : operatorEntries.find? fun e => e.key = w with
    | none => exact List.mem_cons_self
    | some e =>
      have hvalues : ∀ e ∈ operatorEntries, e.value ∈ operatorName :: opNames :=
        forall_mem_of_all (by decide +kernel)
      exact hvalues e (List.mem_of_find?_eq_some h)

/-- **The name tells the type**, and it has no quote and no newline. -/
theorem nameOf_spec (w : CString) (ht : t ≠ .ctr) :
    typeNamed (nameOf w t) = t ∧ '"' ∉ nameOf w t ∧ '\n' ∉ nameOf w t := by
  have htable : ∀ e ∈ typeNames, typeNamed e.2 = e.1 ∧ '"' ∉ e.2 ∧ '\n' ∉ e.2 :=
    forall_mem_of_all (by decide +kernel)
  exact htable _ (mem_typeNames w ht)

/-- A line without its newline. -/
def bodyOf (p : CString × TokenT) : CString :=
  if p.2 = .ctr then "Error: 0x".toList ++ Nat.toDigits 16 (deref p.1).toNat
  else nameOf p.1 p.2 ++ [' '] ++ '"' :: (p.1 ++ ['"'])

/-- A line is what tells the token, and a newline. -/
private theorem lineOf_eq (p : CString × TokenT) : lineOf p = bodyOf p ++ ['\n'] := by
  rw [lineOf, bodyOf]
  split_ifs
  · rfl
  · simp [tokenLine]

/-- The hexadecimal digits of the characters of ASCII. -/
private theorem toDigits_ascii : (∀ n < 128, '"' ∉ Nat.toDigits 16 n ∧ '\n' ∉ Nat.toDigits 16 n) ∧
    ((List.range 128).map (Nat.toDigits 16)).Nodup := by decide +kernel

/-- A line ends at its newline; the quote tells errors from tokens. -/
private theorem bodyOf_spec (hp : IsToken p) :
    '\n' ∉ bodyOf p ∧ ('"' ∈ bodyOf p ↔ p.2 ≠ .ctr) := by
  rw [bodyOf]
  split_ifs with hctr
  · obtain ⟨c, hc, hcntrl⟩ := hp.control hctr
    rw [iscntrl_iff] at hcntrl
    obtain ⟨hquote, hnewline⟩ := toDigits_ascii.1 c.toNat (by omega)
    rw [hc, deref_cons]
    simp [hctr, hquote, hnewline]
  · obtain ⟨-, -, hname⟩ := nameOf_spec p.1 hctr
    have hword : '\n' ∉ p.1 := fun hmem => by
      have := isgraph_iff.mp (hp.isgraph hctr _ hmem)
      simp at this
    simp [hctr, hname, hword]

/-- **A line is read back**, whatever follows it. -/
theorem lineOf_inj (hp : IsToken p) (hq : IsToken q) (h : lineOf p ++ x = lineOf q ++ y) :
    p = q ∧ x = y := by
  rw [lineOf_eq, lineOf_eq, List.append_assoc, List.append_assoc] at h
  obtain ⟨hbody, hrest⟩ := eq_of_append_cons (bodyOf_spec hp).1 (bodyOf_spec hq).1 h
  refine ⟨?_, hrest⟩
  have hiff : p.2 ≠ .ctr ↔ q.2 ≠ .ctr := by
    rw [← (bodyOf_spec hp).2, ← (bodyOf_spec hq).2, hbody]
  by_cases hctr : p.2 = .ctr
  · have hctr' : q.2 = .ctr := not_not.mp fun hne => hiff.mpr hne hctr
    obtain ⟨c, hc, hcntrl⟩ := hp.control hctr
    obtain ⟨d, hd, hcntrl'⟩ := hq.control hctr'
    rw [iscntrl_iff] at hcntrl hcntrl'
    rw [bodyOf, bodyOf, if_pos hctr, if_pos hctr', hc, hd] at hbody
    have hnat : c.toNat = d.toNat :=
      List.inj_on_of_nodup_map toDigits_ascii.2 (List.mem_range.mpr (by omega))
        (List.mem_range.mpr (by omega)) (List.append_cancel_left hbody)
    exact Prod.ext (by rw [hc, hd, Char.toNat_inj.mp hnat]) (hctr.trans hctr'.symm)
  · have hctr' : q.2 ≠ .ctr := hiff.mp hctr
    obtain ⟨htype, hquote, -⟩ := nameOf_spec p.1 hctr
    obtain ⟨htype', hquote', -⟩ := nameOf_spec q.1 hctr'
    rw [bodyOf, bodyOf, if_neg hctr, if_neg hctr'] at hbody
    obtain ⟨hname, htoken⟩ :=
      eq_of_append_cons (by simpa using hquote) (by simpa using hquote') hbody
    refine Prod.ext (List.append_cancel_right htoken) ?_
    rw [← htype, List.append_cancel_right hname, htype']

private theorem lineOf_ne_nil (p : CString × TokenT) : lineOf p ≠ [] := by
  rw [lineOf_eq]
  exact List.concat_ne_nil '\n' (bodyOf p)

/-- What is shown are tokens that are met, in their order. -/
private theorem shown_sublist (l : List (CString × TokenT)) : List.Sublist (shown l) l := by
  induction l with
  | nil => exact .slnil
  | cons p l ih =>
    rw [shown]
    split_ifs
    · exact (List.nil_sublist l).cons_cons p
    · exact ih.cons_cons p

/-- What is shown is shown again. -/
private theorem shown_shown (l : List (CString × TokenT)) : shown (shown l) = shown l := by
  induction l with
  | nil => rfl
  | cons p l ih =>
    rw [shown]
    split_ifs with hctr
    · rw [shown, if_pos hctr]
    · rw [shown, if_neg hctr, ih]

/-- The exit status, which tells whether the last line is an error. -/
def exitStatus (l : List (CString × TokenT)) : ℤ := if l.any fun p => p.2 = .ctr then -1 else 0

/-! ### What the program shows -/

/-- **The program prints the tokens of its arguments**, each with its name, up to the first
control character, where it exits with an error. It gets there if every word that it meets can be
looked for in the array of the keywords, and only then: the hash of a long word may be negative. -/
theorem main_shows (name : CString) (hne : args ≠ [])
    (hargs : ∀ arg ∈ args, arg.length < 2 ^ 31) : main (name :: args) =
      if ∀ p ∈ shown (tokensOf args), Findable p then
        some ⟨(shown (tokensOf args)).flatMap lineOf, exitStatus (shown (tokensOf args))⟩
      else none := by
  rw [main_eq hne hargs, report_eq]
  split_ifs
  · rfl
  · rfl

/-- Two arguments, of which the second stops the program. -/
theorem main_shows_control :
    main ["tokenizer".toList, "if x>=08".toList, "a\x16b".toList, "c".toList] =
      some ⟨"C-keyword \"if\"\nword \"x\"\ngreater or equal \">=\"\n".toList ++
        "decimal \"0\"\ndecimal \"8\"\nword \"a\"\nError: 0x16\n".toList, -1⟩ :=
  (main_shows "tokenizer".toList (List.cons_ne_nil _ _) (by decide +kernel)).trans
    (by decide +kernel)

/-- **The output tells the tokens**: two runs that print the same have met the same tokens with
the same types, and the same control character if they exit. -/
theorem main_injective (hne : args ≠ []) (hne' : args' ≠ [])
    (hargs : ∀ arg ∈ args, arg.length < 2 ^ 31) (hargs' : ∀ arg ∈ args', arg.length < 2 ^ 31)
    (h : main (name :: args) = some exit) (h' : main (name' :: args') = some exit')
    (htext : exit.text = exit'.text) : shown (tokensOf args) = shown (tokensOf args') := by
  have hprints {name : CString} {args : List CString} {exit : Exit} (hne : args ≠ [])
      (hargs : ∀ arg ∈ args, arg.length < 2 ^ 31) (h : main (name :: args) = some exit) :
      exit.text = (shown (tokensOf args)).flatMap lineOf ∧
        ∀ p ∈ shown (tokensOf args), IsToken p := by
    rw [main_eq hne hargs, report_eq] at h
    split_ifs at h
    · cases h
      exact ⟨rfl, fun p hp => isToken_of_mem hargs p ((shown_sublist _).subset hp)⟩
    · cases h
  obtain ⟨htext₁, htokens⟩ := hprints hne hargs h
  obtain ⟨htext₂, htokens'⟩ := hprints hne' hargs' h'
  rw [htext₁, htext₂] at htext
  exact flatMap_inj (fun _ _ _ _ => lineOf_inj) lineOf_ne_nil htokens htokens' htext

/-- A single argument. -/
private theorem tokensOf_singleton (h : tokens indexer w = some l) : tokensOf [w] = l := by
  rw [tokensOf, List.flatMap_singleton, h, Option.getD_some]

/-- One argument or two. -/
theorem main_injective_two : shown (tokensOf ["a".toList, "+".toList]) =
    shown (tokensOf ["a +".toList]) := by
  have hmain : main ["tokenizer".toList, "a".toList, "+".toList] =
      some ⟨"word \"a\"\nplus \"+\"\n".toList, 0⟩ := by decide +kernel
  have hmain' : main ["tokenizer".toList, "a +".toList] =
      some ⟨"word \"a\"\nplus \"+\"\n".toList, 0⟩ := by decide +kernel
  exact main_injective (List.cons_ne_nil _ _) (List.cons_ne_nil _ _) (by decide +kernel)
    (by decide +kernel) hmain hmain' rfl

/-- The tokens of arguments are found again. -/
private theorem settled_of_mem (hargs : ∀ arg ∈ args, nul ∉ arg) : ∀ p ∈ tokensOf args,
    Settled indexer p := by
  intro p hp
  obtain ⟨arg, harg, hp⟩ := List.mem_flatMap.mp hp
  obtain ⟨l, hl, -⟩ := tokens_spec total_indexer arg
  rw [hl, Option.getD_some] at hp
  exact tokensFrom_settled (hargs arg harg) hl p hp

/-- **The output of the output**: run on its own tokens, with spaces between them, the program
prints what it has printed, and exits where it has exited. -/
theorem main_again (hne : args ≠ []) (hargs : ∀ arg ∈ args, nul ∉ arg ∧ arg.length < 2 ^ 31)
    (hagain : (spaced (shown (tokensOf args))).length < 2 ^ 31) :
    main [name', spaced (shown (tokensOf args))] = main (name :: args) := by
  have hsettled : ∀ p ∈ shown (tokensOf args), Settled indexer p := fun p hp =>
    settled_of_mem (fun arg harg => (hargs arg harg).1) p ((shown_sublist _).subset hp)
  have htokens : tokensOf [spaced (shown (tokensOf args))] = shown (tokensOf args) :=
    tokensOf_singleton (tokensFrom_spaced hsettled (nul_notMem_spaced hsettled)
      (dropWhile_spaced hsettled) (Nat.lt_succ_of_le (length_le_spaced hsettled)))
  rw [main_eq hne fun arg harg => (hargs arg harg).2, main_eq (List.cons_ne_nil _ _)
    (by simpa using hagain), htokens, report_eq, report_eq, shown_shown]

/-- The digits that the tokenizer has cut off are read back with a space in front of them. -/
theorem main_again_cut : main ["again".toList, "0 8 /".toList] =
    main ["tokenizer".toList, "08".toList, "/".toList] := by
  have hspaced : spaced (shown (tokensOf ["08".toList, "/".toList])) = "0 8 /".toList := by
    decide +kernel
  rw [← hspaced]
  exact main_again (List.cons_ne_nil _ _) (by decide +kernel) (by decide +kernel)

end Cs214.Tokenizer
