/-
# Pieces of written expressions

A written expression is a sequence of numbers, words, signs, operators and punctuation. No
blanks separate a word from its surroundings, and the character that starts a negative number
is a sign as well. Still the characters tell what the pieces are: behind a word or a number
comes a character that neither of them contains, and behind a sign comes no digit. The first
piece is then determined by the first character and the longest run of characters that belong
to it, and so are the pieces behind it.
-/

import LoopNest.Expr.Operator
import Mathlib.Data.List.TakeWhile

namespace LoopNest

/-- Whether a character lies between two others. -/
def isBetween (first last c : Char) : Bool :=
  decide (first.toNat ≤ c.toNat) && decide (c.toNat ≤ last.toNat)

/-- Letters of the Latin alphabet, and all characters beyond ASCII. -/
def isLetter (c : Char) : Bool :=
  isBetween 'A' 'Z' c || isBetween 'a' 'z' c || decide (127 < c.toNat)

/-- The characters of names. -/
def isNameChar (c : Char) : Bool :=
  isLetter c || c.isDigit || c = '.' || c = '_'

/-- The characters of operators, which stand between blanks. -/
def isSymbolChar (c : Char) : Bool :=
  c ≠ ' '

/-- A word of letters, digits, dots and underscores that starts with a letter. -/
def IsWord (text : String) : Prop :=
  text.toList.head?.any isLetter = true ∧ text.toList.all isNameChar = true

instance (text : String) : Decidable (IsWord text) :=
  inferInstanceAs (Decidable (_ ∧ _))

/-- A word starts with a letter. -/
theorem IsWord.exists_cons {text : String} (h : IsWord text) :
    ∃ c tail, text.toList = c :: tail ∧ isLetter c = true := by
  obtain ⟨c, hc, hletter⟩ := (Option.any_eq_true _ _).mp h.1
  obtain ⟨tail, htail⟩ := List.head?_eq_some_iff.mp hc
  exact ⟨c, tail, htail, hletter⟩

/-- The operators with one operand, which are written in front of it. -/
inductive Sign
  | minus
  | bang
  deriving DecidableEq, Repr

/-- The character of a sign. -/
def Sign.symbol : Sign → Char
  | minus => '-'
  | bang => '!'

/-- The pieces that a written expression consists of. -/
inductive Token
  | number (value : Int)
  | word (text : String)
  | opening
  | closing
  | comma
  | sign (mark : Sign)
  | operator (op : BinaryOp)
  deriving DecidableEq, Repr

namespace Token

/-- The characters that a piece is written with. -/
def text : Token → List Char
  | number value => (toString value).toList
  | word text => text.toList
  | opening => ['(']
  | closing => [')']
  | comma => [',', ' ']
  | sign mark => [mark.symbol]
  | operator op => ' ' :: (op.symbol?.getD "").toList ++ [' ']

/-- A word that is one, or an operator that has a symbol. -/
def Valid : Token → Prop
  | word text => IsWord text
  | operator op => op.symbol?.isSome = true
  | _ => True

/-- A piece ends where the given characters start. -/
def EndsBefore (rest : List Char) : Token → Prop
  | number _ | word _ => ∀ c ∈ rest.head?, isNameChar c = false
  | sign .minus => ∀ c ∈ rest.head?, c.isDigit = false
  | _ => True

end Token

/-- The operator that is written with some symbol. -/
def operatorOf? (symbol : List Char) : Option BinaryOp :=
  [.add, .sub, .mul, .floorDiv, .floorMod, .lt, .le, .eq, .ne, .and, .or].find? fun op =>
    decide (op.symbol?.map String.toList = some symbol)

/-- The first piece of a text and what comes behind it. -/
def scan : List Char → Option (Token × List Char)
  | [] => none
  | c :: rest =>
    if c = '(' then some (.opening, rest)
    else if c = ')' then some (.closing, rest)
    else if c = ',' then some (.comma, rest.tail)
    else if c = '!' then some (.sign .bang, rest)
    else if c = ' ' then
      (operatorOf? (rest.takeWhile isSymbolChar)).map fun op =>
        (.operator op, (rest.dropWhile isSymbolChar).tail)
    else if c = '-' then
      match rest.takeWhile Char.isDigit with
      | [] => some (.sign .minus, rest)
      | digits => some (.number (-Nat.ofDigitChars 10 digits 0), rest.dropWhile Char.isDigit)
    else if c.isDigit then
      some (.number (Nat.ofDigitChars 10 ((c :: rest).takeWhile Char.isDigit) 0),
        (c :: rest).dropWhile Char.isDigit)
    else
      some (.word (String.ofList ((c :: rest).takeWhile isNameChar)),
        (c :: rest).dropWhile isNameChar)

section Runs

variable {test : Char → Bool} {run rest : List Char}

/-- A run of characters is found again in front of a character that is none of them. -/
theorem takeWhile_run (hrun : ∀ c ∈ run, test c = true) (hrest : ∀ c ∈ rest.head?, test c = false) :
    (run ++ rest).takeWhile test = run := by
  rw [List.takeWhile_append_of_pos hrun]
  cases rest with
  | nil => simp
  | cons c rest => simp [hrest c rfl]

theorem dropWhile_run (hrun : ∀ c ∈ run, test c = true) (hrest : ∀ c ∈ rest.head?, test c = false) :
    (run ++ rest).dropWhile test = rest := by
  rw [List.dropWhile_append_of_pos hrun]
  cases rest with
  | nil => rfl
  | cons c rest => simp [hrest c rfl]

end Runs

theorem isNameChar_of_isLetter {c : Char} (h : isLetter c = true) : isNameChar c = true := by
  simp [isNameChar, h]

theorem isNameChar_of_isDigit {c : Char} (h : c.isDigit = true) : isNameChar c = true := by
  simp [isNameChar, h]

theorem isDigit_of_isLetter {c : Char} (h : isLetter c = true) : c.isDigit = false := by
  simp only [isLetter, isBetween, Bool.or_eq_true, Bool.and_eq_true, decide_eq_true_eq] at h
  rw [← Bool.not_eq_true, Char.isDigit_iff_toNat]
  simp only [Char.reduceToNat] at h ⊢
  omega

theorem isDigit_of_mem_toDigits {c : Char} {n : Nat} (h : c ∈ Nat.toDigits 10 n) :
    c.isDigit = true :=
  Nat.isDigit_of_mem_toDigits (by decide) (by decide) h

theorem operatorOf?_symbol {op : BinaryOp} (h : op.symbol?.isSome = true) :
    operatorOf? (op.symbol?.getD "").toList = some op := by
  cases op <;> first | decide | cases h

theorem isSymbolChar_of_mem_symbol (op : BinaryOp) :
    ∀ c ∈ (op.symbol?.getD "").toList, isSymbolChar c = true := by
  have hall : (op.symbol?.getD "").toList.all isSymbolChar = true := by cases op <;> decide
  exact List.all_eq_true.mp hall

section Scan

variable {c : Char} {run rest : List Char}

/-- A character of names starts a number or a word, depending on whether it is a digit. -/
theorem scan_of_isNameChar (h : isNameChar c = true) : scan (c :: rest) =
    if c.isDigit then
      some (.number (Nat.ofDigitChars 10 ((c :: rest).takeWhile Char.isDigit) 0),
        (c :: rest).dropWhile Char.isDigit)
    else
      some (.word (String.ofList ((c :: rest).takeWhile isNameChar)),
        (c :: rest).dropWhile isNameChar) := by
  have hmark : ∀ mark, isNameChar mark = false → c ≠ mark := by
    rintro mark hmark rfl
    rw [h] at hmark
    cases hmark
  rw [scan, if_neg (hmark '(' (by decide)), if_neg (hmark ')' (by decide)),
    if_neg (hmark ',' (by decide)), if_neg (hmark '!' (by decide)),
    if_neg (hmark ' ' (by decide)), if_neg (hmark '-' (by decide))]

variable (hrest : ∀ c ∈ rest.head?, isNameChar c = false)
include hrest

theorem forall_head_not_isDigit : ∀ c ∈ rest.head?, c.isDigit = false := by
  intro c hc
  have hname := hrest c hc
  simp only [isNameChar, Bool.or_eq_false_iff] at hname
  exact hname.1.1.2

theorem scan_digits (n : Nat) : scan (Nat.toDigits 10 n ++ rest) = some (.number n, rest) := by
  have hdigits : ∀ c ∈ Nat.toDigits 10 n, c.isDigit = true := fun c => isDigit_of_mem_toDigits
  have htake := takeWhile_run hdigits (forall_head_not_isDigit hrest)
  have hdrop := dropWhile_run hdigits (forall_head_not_isDigit hrest)
  have hvalue : Nat.ofDigitChars 10 (Nat.toDigits 10 n) 0 = n := Nat.ofDigitChars_ten_toDigits
  cases hn : Nat.toDigits 10 n with
  | nil => exact absurd hn Nat.toDigits_ne_nil
  | cons c digits =>
      rw [hn] at htake hdrop hvalue
      have hc : c.isDigit = true := hdigits c (by simp [hn])
      rw [List.cons_append] at htake hdrop ⊢
      rw [scan_of_isNameChar (isNameChar_of_isDigit hc), if_pos hc, htake, hdrop, hvalue]

theorem scan_negative (n : Nat) :
    scan ('-' :: Nat.toDigits 10 n ++ rest) = some (.number (-n), rest) := by
  have hdigits : ∀ c ∈ Nat.toDigits 10 n, c.isDigit = true := fun c => isDigit_of_mem_toDigits
  have htake := takeWhile_run hdigits (forall_head_not_isDigit hrest)
  have hdrop := dropWhile_run hdigits (forall_head_not_isDigit hrest)
  have hvalue : Nat.ofDigitChars 10 (Nat.toDigits 10 n) 0 = n := Nat.ofDigitChars_ten_toDigits
  cases hn : Nat.toDigits 10 n with
  | nil => exact absurd hn Nat.toDigits_ne_nil
  | cons c digits =>
      rw [hn] at htake hdrop hvalue
      rw [List.cons_append] at htake hdrop
      simp [scan, htake, hdrop, hvalue]

theorem scan_word {name : String} (h : IsWord name) :
    scan (name.toList ++ rest) = some (.word name, rest) := by
  have htake := takeWhile_run (List.all_eq_true.mp h.2) hrest
  have hdrop := dropWhile_run (List.all_eq_true.mp h.2) hrest
  obtain ⟨c, tail, htail, hletter⟩ := h.exists_cons
  rw [htail, List.cons_append] at htake hdrop ⊢
  rw [scan_of_isNameChar (isNameChar_of_isLetter hletter), isDigit_of_isLetter hletter, htake,
    hdrop, ← htail, String.ofList_toList]
  rfl

end Scan

/-- Scanning finds the piece that a text starts with. -/
theorem scan_text {token : Token} {rest : List Char} (hvalid : token.Valid)
    (hends : token.EndsBefore rest) : scan (token.text ++ rest) = some (token, rest) := by
  cases token with
  | opening | closing | comma => simp [scan, Token.text]
  | number value =>
      rw [Token.text, Int.toString_eq_repr, Int.repr_eq_if]
      split
      · rename_i hnonneg
        rw [Nat.toList_repr, scan_digits hends, Int.toNat_of_nonneg hnonneg]
      · rename_i hneg
        rw [String.toList_append, Nat.toList_repr]
        have h := scan_negative hends (-value).toNat
        rw [Int.toNat_of_nonneg (by omega), Int.neg_neg] at h
        exact h
  | word name => exact scan_word hends hvalid
  | sign mark =>
      cases mark with
      | minus =>
          have hnone : ∀ c ∈ ([] : List Char), c.isDigit = true := nofun
          have htake : rest.takeWhile Char.isDigit = [] := takeWhile_run hnone hends
          simp [scan, Token.text, Sign.symbol, htake]
      | bang => simp [scan, Token.text, Sign.symbol]
  | operator op =>
      have hblank : ∀ c ∈ (' ' :: rest).head?, isSymbolChar c = false := by simp [isSymbolChar]
      have htake := takeWhile_run (isSymbolChar_of_mem_symbol op) hblank
      have hdrop := dropWhile_run (isSymbolChar_of_mem_symbol op) hblank
      simp [scan, Token.text, htake, hdrop, operatorOf?_symbol hvalid]

/-- The characters that a sequence of pieces is written with. -/
def texts (tokens : List Token) : List Char :=
  tokens.flatMap Token.text

/-- Every piece is valid and ends where the next one starts. Behind the last piece come the
given characters. -/
def Separated : List Token → List Char → Prop
  | [], _ => True
  | token :: tokens, rest =>
    token.Valid ∧ token.EndsBefore (texts tokens ++ rest) ∧ Separated tokens rest

section Texts

variable {token : Token} {tokens tokens' : List Token} {rest : List Char}

@[simp] theorem texts_nil : texts [] = [] := rfl

@[simp] theorem texts_cons : texts (token :: tokens) = token.text ++ texts tokens := rfl

@[simp] theorem texts_append : texts (tokens ++ tokens') = texts tokens ++ texts tokens' :=
  List.flatMap_append

theorem separated_append : Separated (tokens ++ tokens') rest ↔
    Separated tokens (texts tokens' ++ rest) ∧ Separated tokens' rest := by
  induction tokens with
  | nil => simp [Separated]
  | cons token tokens ih =>
      simp only [List.cons_append, Separated, texts_append, List.append_assoc, ih, and_assoc]

theorem Separated.scan_texts (h : Separated (token :: tokens) []) :
    scan (texts (token :: tokens)) = some (token, texts tokens) := by
  obtain ⟨hvalid, hends, -⟩ := h
  rw [List.append_nil] at hends
  exact scan_text hvalid hends

/-- Separated pieces that are written with the same characters are the same. -/
theorem Separated.eq_of_texts_eq (h : Separated tokens []) (h' : Separated tokens' [])
    (htexts : texts tokens = texts tokens') : tokens = tokens' := by
  induction tokens generalizing tokens' with
  | nil =>
      cases tokens' with
      | nil => rfl
      | cons token' tokens' =>
          have hscan := h'.scan_texts
          rw [← htexts] at hscan
          cases hscan
  | cons token tokens ih =>
      have hscan := h.scan_texts
      rw [htexts] at hscan
      cases tokens' with
      | nil => cases hscan
      | cons token' tokens' =>
          rw [h'.scan_texts] at hscan
          obtain ⟨rfl, hrest⟩ := Prod.mk.inj (Option.some.inj hscan)
          rw [ih h.2.2 h'.2.2 hrest.symm]

end Texts

end LoopNest
