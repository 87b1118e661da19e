/-
# Written expressions tell their structure

Two expressions that are built by the constructors are written alike just when they are the same
up to types and to which variables of one name they mention. In particular the parentheses that
are left out are not needed.

What the constructors contribute concerns literals. The opposite of a literal is a literal, so
that `-5` is always a negative number and never a negated one; only the least word stays under a
negation, and is negative itself. A truth value is zero or one. Names have to be words and may not
be those of the truth values. Names of types and of calls need not be excluded, since behind these
there is a parenthesis.
-/

import LoopNest.Proofs.Expr.Built
import LoopNest.Proofs.Expr.Grammar

namespace LoopNest

open LoopNest.Expr (atomPrecedence unaryPrecedence)

/-- A word that is not a truth value. -/
structure IsIdentifier (text : String) : Prop where
  isWord : IsWord text
  ne_true : text ≠ "true"
  ne_false : text ≠ "false"

instance (text : String) : Decidable (IsIdentifier text) :=
  decidable_of_iff (IsWord text ∧ text ≠ "true" ∧ text ≠ "false")
    ⟨fun h => ⟨h.1, h.2.1, h.2.2⟩, fun h => ⟨h.isWord, h.ne_true, h.ne_false⟩⟩

namespace IsWord

variable {text : String}

theorem head_not_isDigit (h : IsWord text) (rest : List Char) :
    ∀ c ∈ (text.toList ++ rest).head?, c.isDigit = false := by
  obtain ⟨c, tail, htail, hletter⟩ := h.exists_cons
  intro d hd
  rw [htail] at hd
  obtain rfl : c = d := Option.some.inj hd
  exact isDigit_of_isLetter hletter

theorem truth (holds : Bool) : IsWord (if holds then "true" else "false") := by
  cases holds <;> decide

theorem dtype_name (dtype : DType) : IsWord dtype.name := by
  cases dtype <;> decide

theorem call_name {op : BinaryOp} (hop : op.symbol? = none) : IsWord op.name.toLower := by
  have hmin : BinaryOp.min.name.toLower = "min" := by decide +kernel
  have hmax : BinaryOp.max.name.toLower = "max" := by decide +kernel
  cases op <;> cases hop
  · rw [hmin]
    decide
  · rw [hmax]
    decide

end IsWord

/-- Put pieces in parentheses where these are needed. -/
def enclose (needed : Bool) (tokens : List Token) : List Token :=
  if needed then .opening :: tokens ++ [.closing] else tokens

namespace Shape

/-- How tightly the outermost node binds. -/
def precedence : Shape → Nat
  | literal _ _ | name _ | cast _ _ => atomPrecedence
  | unary _ _ => unaryPrecedence
  | binary op _ _ => if op.symbol?.isNone then atomPrecedence else op.precedence

/-- The piece that a literal is written as. -/
def literalToken (isTruth : Bool) (value : Int) : Token :=
  if isTruth then .word (if decide (value ≠ 0) then "true" else "false") else .number value

/-- The pieces of the written form. -/
def tokens : Shape → List Token
  | literal isTruth value => [literalToken isTruth value]
  | name text => [.word text]
  | cast dtype source => .word dtype.name :: .opening :: source.tokens ++ [.closing]
  | unary mark operand =>
    .sign mark :: enclose (decide (operand.precedence < atomPrecedence)) operand.tokens
  | binary op lhs rhs =>
    if op.symbol? = none then
      .word op.name.toLower :: .opening :: lhs.tokens ++ .comma :: rhs.tokens ++ [.closing]
    else
      enclose (decide (lhs.precedence < op.precedence)) lhs.tokens ++
        .operator op :: enclose (decide (rhs.precedence ≤ op.precedence)) rhs.tokens

/-- Names are identifiers, truth values are zero or one, and no number that is not negative
stands under a minus sign. -/
def Readable : Shape → Prop
  | literal isTruth value => isTruth = true → value = 0 ∨ value = 1
  | name text => IsIdentifier text
  | cast _ source => source.Readable
  | unary mark operand =>
    operand.Readable ∧ (mark = .minus → ∀ value, operand = literal false value → value < 0)
  | binary _ lhs rhs => lhs.Readable ∧ rhs.Readable

end Shape

theorem Reads.exists_enclose {level : Nat} {tokens : List Token} {shape : Shape}
    (h : Reads level tokens shape) {bound : Nat} {needed : Bool}
    (hneeded : needed = false → bound ≤ level) (hbound : bound ≤ atomPrecedence) :
    ∃ inner, bound ≤ inner ∧ Reads inner (enclose needed tokens) shape := by
  cases needed with
  | false => exact ⟨level, hneeded rfl, h⟩
  | true => exact ⟨atomPrecedence, hbound, .parens h⟩

/-- What may stand behind an operand: no character that would continue a word. -/
def EndsNames (rest : List Char) : Prop :=
  ∀ c ∈ rest.head?, isNameChar c = false

theorem endsNames_cons {c : Char} (h : isNameChar c = false) (rest : List Char) :
    EndsNames (c :: rest) := by
  simpa [EndsNames] using h

theorem separated_enclose {tokens : List Token} {rest : List Char} (needed : Bool)
    (h : ∀ rest, EndsNames rest → Separated tokens rest) (hrest : EndsNames rest) :
    Separated (enclose needed tokens) rest := by
  cases needed with
  | false => exact h rest hrest
  | true =>
      have hinner := h (texts [.closing] ++ rest) (endsNames_cons (by decide) _)
      exact ⟨trivial, trivial, separated_append.mpr ⟨hinner, trivial, trivial, trivial⟩⟩

namespace Shape

variable {shape operand : Shape} {rest : List Char}

theorem leaf?_literalToken {isTruth : Bool} {value : Int}
    (h : isTruth = true → value = 0 ∨ value = 1) :
    (literalToken isTruth value).leaf? = some (literal isTruth value) := by
  cases isTruth with
  | false => rfl
  | true => rcases h rfl with rfl | rfl <;> rfl

namespace Readable

/-- The written form is read as what was written. -/
theorem reads_tokens (h : shape.Readable) : Reads shape.precedence shape.tokens shape := by
  induction shape with
  | literal isTruth value => exact .leaf (leaf?_literalToken h)
  | name text => exact .leaf (by simp [Token.leaf?, h.ne_true, h.ne_false])
  | cast dtype source ih => exact .cast dtype (ih h)
  | unary mark operand ih =>
      obtain ⟨inner, hinner, hreads⟩ := (ih h.1).exists_enclose
        (fun hneeded => Nat.le_of_not_lt (of_decide_eq_false hneeded)) le_rfl
      exact .unary mark hreads (lt_of_lt_of_le (by decide) hinner)
  | binary op lhs rhs ihl ihr =>
      have hatom := BinaryOp.precedence_lt_atom op
      cases hop : op.symbol? with
      | none =>
          have hcall := Reads.call op hop (ihl h.1) (ihr h.2)
          simpa [precedence, tokens, hop] using hcall
      | some symbol =>
          obtain ⟨left, hleft, hlhs⟩ := (ihl h.1).exists_enclose
            (fun hneeded => Nat.le_of_not_lt (of_decide_eq_false hneeded)) hatom.le
          obtain ⟨right, hright, hrhs⟩ := (ihr h.2).exists_enclose
            (fun hneeded => Nat.lt_of_not_le (of_decide_eq_false hneeded)) hatom
          have hbetween := Reads.between op hlhs hleft hrhs hright
          simpa [precedence, tokens, hop] using hbetween

/-- Behind a minus sign comes no digit. -/
theorem head_not_isDigit (h : operand.Readable)
    (hnegative : ∀ value, operand = literal false value → value < 0) (rest : List Char) :
    ∀ c ∈ (texts (enclose (decide (operand.precedence < atomPrecedence)) operand.tokens) ++
      rest).head?, c.isDigit = false := by
  have hword : ∀ {word : String} (tokens : List Token), IsWord word →
      ∀ c ∈ (texts (.word word :: tokens) ++ rest).head?, c.isDigit = false := by
    intro word tokens hword
    rw [texts_cons, List.append_assoc]
    exact hword.head_not_isDigit _
  have hmark : ∀ {mark : Char} (tail : List Char), mark.isDigit = false →
      ∀ c ∈ (mark :: tail).head?, c.isDigit = false := by
    intro mark tail hmark c hc
    rwa [← Option.some.inj hc]
  cases operand with
  | literal isTruth value =>
      cases isTruth with
      | true => exact hword [] (IsWord.truth _)
      | false =>
          have htext : (toString value).toList = '-' :: Nat.toDigits 10 (-value).toNat := by
            rw [Int.toString_eq_repr, Int.repr_eq_if, if_neg (Int.not_le.mpr (hnegative value rfl)),
              String.toList_append, Nat.toList_repr]
            rfl
          show ∀ c ∈ ((toString value).toList ++ [] ++ rest).head?, c.isDigit = false
          rw [htext]
          exact hmark _ (by decide)
  | name text => exact hword [] h.isWord
  | cast dtype source => exact hword _ (IsWord.dtype_name dtype)
  | unary => exact hmark _ (by decide)
  | binary op lhs rhs =>
      cases hop : op.symbol? with
      | none =>
          have hatom : (binary op lhs rhs).precedence = atomPrecedence := by simp [precedence, hop]
          simp only [hatom, lt_irrefl, decide_false, enclose, tokens, hop, if_true, if_false,
            Bool.false_eq_true]
          exact hword _ (IsWord.call_name hop)
      | some symbol =>
          have hnode : (binary op lhs rhs).precedence < atomPrecedence := by
            simpa [precedence, hop] using op.precedence_lt_atom
          rw [decide_eq_true hnode]
          exact hmark _ (by decide)

/-- The pieces of a written form are told apart. -/
theorem separated_tokens (h : shape.Readable) (hrest : EndsNames rest) :
    Separated shape.tokens rest := by
  induction shape generalizing rest with
  | literal isTruth value =>
      cases isTruth with
      | true => exact ⟨IsWord.truth _, hrest, trivial⟩
      | false => exact ⟨trivial, hrest, trivial⟩
  | name text => exact ⟨h.isWord, hrest, trivial⟩
  | cast dtype source ih =>
      have hsource : Separated source.tokens (texts [.closing] ++ rest) :=
        ih h (endsNames_cons (by decide) _)
      exact ⟨IsWord.dtype_name dtype, endsNames_cons (by decide) _, trivial, trivial,
        separated_append.mpr ⟨hsource, trivial, trivial, trivial⟩⟩
  | unary mark operand ih =>
      refine ⟨trivial, ?_, separated_enclose _ (fun _ => ih h.1) hrest⟩
      cases mark with
      | minus => exact h.1.head_not_isDigit (h.2 rfl) rest
      | bang => trivial
  | binary op lhs rhs ihl ihr =>
      cases hop : op.symbol? with
      | none =>
          have hrhs : Separated (rhs.tokens ++ [.closing]) rest :=
            separated_append.mpr ⟨ihr h.2 (endsNames_cons (by decide) _), trivial, trivial, trivial⟩
          have hlhs : Separated (lhs.tokens ++ .comma :: (rhs.tokens ++ [.closing])) rest :=
            separated_append.mpr ⟨ihl h.1 (endsNames_cons (by decide) _), trivial, trivial, hrhs⟩
          simp only [tokens, hop, List.cons_append, List.append_assoc, if_true]
          exact ⟨IsWord.call_name hop, endsNames_cons (by decide) _, trivial, trivial, hlhs⟩
      | some symbol =>
          have hvalid : (Token.operator op).Valid := by simp [Token.Valid, hop]
          simp only [tokens, hop, reduceCtorEq, if_false]
          refine separated_append.mpr ⟨separated_enclose _ (fun _ => ihl h.1) ?_, hvalid, trivial,
            separated_enclose _ (fun _ => ihr h.2) hrest⟩
          exact endsNames_cons (by decide) _

end Readable

end Shape

namespace Expr

variable {e e' lhs rhs : Expr} {op : BinaryOp} {joins : BinaryOp → Expr → Expr → Prop}

/-- The tree without types, except for the targets of casts and whether a literal is a truth value,
and with names in place of variables. -/
def forget : Expr → Shape
  | const dtype value => .literal dtype.isBool value
  | var v => .name v.name
  | cast dtype source => .cast dtype source.forget
  | neg operand => .unary .minus operand.forget
  | not operand => .unary .bang operand.forget
  | binary op lhs rhs => .binary op lhs.forget rhs.forget

@[simp] theorem precedence_forget (e : Expr) : e.forget.precedence = e.precedence := by
  cases e <;> rfl

theorem toList_parenthesize {text : String} {tokens : List Token} (h : text.toList = texts tokens)
    (needed : Bool) : (parenthesize needed text).toList = texts (enclose needed tokens) := by
  cases needed with
  | false => exact h
  | true =>
      show ("(" ++ text ++ ")").toList = texts (.opening :: tokens ++ [.closing])
      simp [h, Token.text]

/-- What is written depends on what is left after forgetting. -/
theorem toList_render (e : Expr) : e.render.toList = texts e.forget.tokens := by
  induction e with
  | const dtype value =>
      simp only [render, literalText, forget, Shape.tokens, Shape.literalToken, texts_cons,
        texts_nil, List.append_nil]
      cases dtype.isBool with
      | false => rfl
      | true => simp [Token.text]
  | var v => simp [render, forget, Shape.tokens, Token.text]
  | cast dtype source ih => simp [render, forget, Shape.tokens, Token.text, ih]
  | neg operand ih =>
      simp [render, forget, Shape.tokens, Token.text, toList_parenthesize ih, Sign.symbol]
  | not operand ih =>
      simp [render, forget, Shape.tokens, Token.text, toList_parenthesize ih, Sign.symbol]
  | binary op lhs rhs ihl ihr =>
      cases hop : op.symbol? with
      | none => simp [render, forget, Shape.tokens, Token.text, hop, ihl, ihr]
      | some symbol =>
          simp [render, forget, Shape.tokens, Token.text, hop, toList_parenthesize ihl,
            toList_parenthesize ihr]

/-- Literals lie in their types, and a literal under a negation is negative. -/
def PlainLiterals : Expr → Prop
  | const dtype value => dtype.contains value = true
  | var _ => True
  | cast _ source => source.PlainLiterals
  | neg operand => operand.PlainLiterals ∧ ∀ value, operand.value? = some value → value < 0
  | not operand => operand.PlainLiterals
  | binary _ lhs rhs => lhs.PlainLiterals ∧ rhs.PlainLiterals

theorem plainLiterals_literal (dtype : DType) (value : Int) :
    (literal dtype value).PlainLiterals :=
  DType.contains_truncate dtype value

theorem plainLiterals_castTo (h : e.PlainLiterals) (dtype : DType) :
    (e.castTo dtype).PlainLiterals := by
  unfold castTo
  split
  · exact h
  · split
    · exact plainLiterals_literal _ _
    · exact h

theorem plainLiterals_negate (h : e.PlainLiterals) : e.negate.PlainLiterals := by
  unfold negate
  split
  · exact plainLiterals_literal _ _
  · rename_i hnone
    refine ⟨h, fun value hvalue => ?_⟩
    rw [hvalue, Option.bind_some, Word.negate?, Word.check, ite_eq_right_iff] at hnone
    have hliteral := eq_const_of_value? hvalue
    rw [hliteral] at h
    have hfits := DType.fits_of_contains h
    by_contra hnonneg
    have hopposite : Word.fits (-value) = true := by
      rw [Word.fits_iff, Word.least, Word.greatest] at hfits ⊢
      omega
    exact absurd (hnone hopposite) (Option.some_ne_none _)

theorem plainLiterals_complement (h : e.PlainLiterals) : e.complement.PlainLiterals := by
  unfold complement
  split
  · exact plainLiterals_literal _ _
  · exact h

theorem plainLiterals_combine (hlhs : lhs.PlainLiterals) (hrhs : rhs.PlainLiterals) :
    (combine op lhs rhs).PlainLiterals := by
  have hleft := plainLiterals_castTo hlhs (promote lhs rhs).1.dtype
  have hright := plainLiterals_castTo hrhs (promote lhs rhs).1.dtype
  rw [combine, promote_eq_castTo]
  exact foldNode_cases plainLiterals_literal hleft hright ⟨hleft, hright⟩
    fun _ _ _ => ⟨hleft, plainLiterals_literal _ _⟩

namespace Built

theorem plainLiterals (h : Built joins e) : e.PlainLiterals := by
  induction h with
  | literal dtype value => exact plainLiterals_literal dtype value
  | var v => trivial
  | castTo _ dtype ih => exact plainLiterals_castTo ih dtype
  | negate _ ih => exact plainLiterals_negate ih
  | complement _ ih => exact plainLiterals_complement ih
  | combine op _ _ _ ihl ihr => exact plainLiterals_combine ihl ihr

end Built

theorem value?_of_forget_eq {isTruth : Bool} {value : Int} (h : e.forget = .literal isTruth value) :
    e.value? = some value := by
  cases e with
  | const => exact congrArg some (Shape.literal.inj h).2
  | _ => cases h

/-- An expression with plain literals and identifiers is readable. -/
theorem readable_forget (h : e.PlainLiterals)
    (hnames : ∀ v, e.mentions v = true → IsIdentifier v.name) : e.forget.Readable := by
  induction e with
  | const dtype value =>
      intro hbool
      obtain rfl : dtype = .bool := of_decide_eq_true hbool
      exact DType.contains_bool_iff.mp h
  | var v => exact hnames v (mentions_var_self v)
  | cast dtype source ih => exact ih h hnames
  | neg operand ih =>
      exact ⟨ih h.1 hnames, fun _ value hliteral => h.2 value (value?_of_forget_eq hliteral)⟩
  | not operand ih => exact ⟨ih h hnames, nofun⟩
  | binary op lhs rhs ihl ihr =>
      exact ⟨ihl h.1 fun v hv => hnames v ((Bool.or_eq_true _ _).mpr (.inl hv)),
        ihr h.2 fun v hv => hnames v ((Bool.or_eq_true _ _).mpr (.inr hv))⟩

/-- Expressions over identifiers that are put together by the constructors are written alike just
when they are the same up to what is forgotten. -/
theorem Built.render_eq_iff (he : e.Built JoinsAll) (he' : e'.Built JoinsAll)
    (hnames : ∀ v, e.mentions v = true → IsIdentifier v.name)
    (hnames' : ∀ v, e'.mentions v = true → IsIdentifier v.name) :
    e.render = e'.render ↔ e.forget = e'.forget := by
  have hreadable := readable_forget he.plainLiterals hnames
  have hreadable' := readable_forget he'.plainLiterals hnames'
  have hnothing : EndsNames [] := nofun
  rw [← String.toList_inj, toList_render, toList_render]
  constructor
  · intro htexts
    have htokens : e.forget.tokens = e'.forget.tokens :=
      (hreadable.separated_tokens hnothing).eq_of_texts_eq
        (hreadable'.separated_tokens hnothing) htexts
    exact (htokens ▸ hreadable.reads_tokens).shape_eq hreadable'.reads_tokens
  · intro hforget
    rw [hforget]

section Sample

/-- An index of a given type. -/
def outerIndex (dtype : DType) : Expr := var ⟨.iteration 0, "i.outer", dtype⟩

/-- A size of a given type. -/
def sizeParameter (dtype : DType) : Expr := var ⟨.parameter 0, "n", dtype⟩

/-- An expression whose written form has fewer parentheses than nodes, and a negative number as
well as a negation. -/
def nested (dtype : DType) : Expr :=
  ((((outerIndex dtype).sub ((sizeParameter dtype).sub
    ((outerIndex dtype).mul (literal dtype (-5))))).mul
      ((outerIndex dtype).min (sizeParameter dtype)).negate).lt (sizeParameter dtype)).complement

example : (nested .int32).render =
    "!((i.outer - (n - i.outer * -5)) * -min(i.outer, n) < n)" := by decide +kernel

theorem built_nested (dtype : DType) : (nested dtype).Built JoinsAll := by
  have hindex : (outerIndex dtype).Built JoinsAll := .var _
  have hsize : (sizeParameter dtype).Built JoinsAll := .var _
  have hproduct : ((outerIndex dtype).mul (literal dtype (-5))).Built JoinsAll :=
    .combine .mul hindex (.literal _ _) trivial
  have hleast : ((outerIndex dtype).min (sizeParameter dtype)).Built JoinsAll :=
    .combine .min hindex hsize trivial
  have hdifference := Built.combine .sub hindex (.combine .sub hsize hproduct trivial) trivial
  exact .complement (.combine .lt (.combine .mul hdifference hleast.negate trivial) hsize trivial)

theorem isIdentifier_of_nested {dtype : DType} {v : Var} (hv : (nested dtype).mentions v = true) :
    IsIdentifier v.name := by
  by_contra hname
  have hindex : (outerIndex dtype).mentions v = false :=
    decide_eq_false fun h => hname (h ▸ (by decide : IsIdentifier "i.outer"))
  have hsize : (sizeParameter dtype).mentions v = false :=
    decide_eq_false fun h => hname (h ▸ (by decide : IsIdentifier "n"))
  have hdifference : ((outerIndex dtype).sub ((sizeParameter dtype).sub
      ((outerIndex dtype).mul (literal dtype (-5))))).mentions v = false :=
    mentions_combine hindex (mentions_combine hsize (mentions_combine hindex rfl))
  have hfree : (nested dtype).mentions v = false :=
    mentions_complement (mentions_combine (mentions_combine hdifference
      (mentions_negate (mentions_combine hindex hsize))) hsize)
  rw [hfree] at hv
  cases hv

theorem forget_nested :
    (nested .int32).render = (nested .int64).render ∧
      (nested .int32).forget = (nested .int64).forget := by
  have hrender : (nested .int32).render = (nested .int64).render := by decide +kernel
  exact ⟨hrender, ((built_nested _).render_eq_iff (built_nested _)
    (fun _ => isIdentifier_of_nested) fun _ => isIdentifier_of_nested).mp hrender⟩

end Sample

/-- Without the constructors a negated number is written like a negative one. -/
example : (neg (const .int32 5)).render = (const .int32 (-5)).render ∧
    (neg (const .int32 5)).forget ≠ (const .int32 (-5)).forget := by
  decide +kernel

end Expr

end LoopNest
