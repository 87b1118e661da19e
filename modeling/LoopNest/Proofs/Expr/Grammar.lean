/-
# How written expressions are read

A sequence of pieces is read as a tree at some level, which says how tightly the outermost node
binds. The grammar is that of the written form, except that parentheses may stand anywhere. No
sequence has two readings, so writing fewer parentheses loses nothing as long as the operands of
a node bind tightly enough.

Sequences are compared from their ends, since operators associate to the left: the right operand
binds more tightly than the operator in front of it, so where it starts is known before the
operator is. What precedes an operand therefore ends in a piece at which reading stops, which is
a parenthesis, a comma, or an operator or a sign that binds less tightly.
-/

import LoopNest.Expr.Print
import LoopNest.Proofs.Expr.Tokens

namespace LoopNest

open LoopNest.Expr (atomPrecedence unaryPrecedence)

/-- An expression without its types, other than the targets of casts and whether a literal is a
truth value. Variables are known by their names. -/
inductive Shape
  | literal (isTruth : Bool) (value : Int)
  | name (text : String)
  | cast (dtype : DType) (source : Shape)
  | unary (mark : Sign) (operand : Shape)
  | binary (op : BinaryOp) (lhs rhs : Shape)
  deriving DecidableEq, Repr

namespace Token

/-- The tree that a single piece is read as. -/
def leaf? : Token → Option Shape
  | number value => some (.literal false value)
  | word text =>
    if text = "true" then some (.literal true 1)
    else if text = "false" then some (.literal true 0)
    else some (.name text)
  | _ => none

/-- Whether reading at a level stops at a piece on its way to the front. -/
def Stops (level : Nat) : Token → Prop
  | opening | comma => True
  | sign _ => unaryPrecedence < level
  | operator op => op.precedence < level
  | _ => False

theorem Stops.mono {token : Token} {level level' : Nat} (h : token.Stops level)
    (hle : level ≤ level') : token.Stops level' := by
  cases token <;> simp only [Stops] at h ⊢ <;> omega

end Token

/-- What precedes an operand at a level ends in a piece at which reading stops. -/
def FrontStops (level : Nat) (front : List Token) : Prop :=
  ∀ token ∈ front.getLast?, token.Stops level

/-- Pieces that are read as a tree whose outermost node binds at a level. -/
inductive Reads : Nat → List Token → Shape → Prop
  | leaf {token : Token} {shape : Shape} (h : token.leaf? = some shape) :
      Reads atomPrecedence [token] shape
  | parens {level : Nat} {tokens : List Token} {shape : Shape} (h : Reads level tokens shape) :
      Reads atomPrecedence (.opening :: tokens ++ [.closing]) shape
  | cast (dtype : DType) {level : Nat} {tokens : List Token} {source : Shape}
      (h : Reads level tokens source) :
      Reads atomPrecedence (.word dtype.name :: .opening :: tokens ++ [.closing])
        (.cast dtype source)
  | call (op : BinaryOp) {level level' : Nat} {tokens tokens' : List Token} {lhs rhs : Shape}
      (hop : op.symbol? = none) (hlhs : Reads level tokens lhs) (hrhs : Reads level' tokens' rhs) :
      Reads atomPrecedence
        (.word op.name.toLower :: .opening :: tokens ++ .comma :: tokens' ++ [.closing])
        (.binary op lhs rhs)
  | unary (mark : Sign) {level : Nat} {tokens : List Token} {operand : Shape}
      (h : Reads level tokens operand) (hlevel : unaryPrecedence < level) :
      Reads unaryPrecedence (.sign mark :: tokens) (.unary mark operand)
  | between (op : BinaryOp) {level level' : Nat} {tokens tokens' : List Token} {lhs rhs : Shape}
      (hlhs : Reads level tokens lhs) (hlevel : op.precedence ≤ level)
      (hrhs : Reads level' tokens' rhs) (hlevel' : op.precedence < level') :
      Reads op.precedence (tokens ++ .operator op :: tokens') (.binary op lhs rhs)

theorem DType.name_injective {first second : DType} (h : first.name = second.name) :
    first = second := by
  cases first <;> cases second <;> first | rfl | exact absurd h (by decide)

/-- The names of calls are told apart. -/
theorem BinaryOp.eq_of_toLower_name_eq {op op' : BinaryOp} (hop : op.symbol? = none)
    (hop' : op'.symbol? = none) (h : op.name.toLower = op'.name.toLower) : op = op' := by
  cases op <;> cases hop <;> cases op' <;> cases hop' <;>
    first | rfl | exact absurd h (by decide +kernel)

theorem BinaryOp.precedence_ne_unary (op : BinaryOp) : op.precedence ≠ unaryPrecedence := by
  cases op <;> decide

theorem BinaryOp.precedence_lt_atom (op : BinaryOp) : op.precedence < atomPrecedence := by
  cases op <;> decide

variable {level level' bound : Nat} {front front' tokens tokens' : List Token}
  {shape shape' : Shape}

namespace FrontStops

theorem mono (h : FrontStops level front) (hle : level ≤ level') : FrontStops level' front :=
  fun token htoken => (h token htoken).mono hle

@[simp] theorem append_singleton_iff {token : Token} :
    FrontStops level (front ++ [token]) ↔ token.Stops level := by
  simp [FrontStops]

end FrontStops

/-- The pieces at the end of a sequence are read at a level that is high enough for what precedes
them. -/
structure ReadsEnd (bound level : Nat) (front tokens : List Token) (shape : Shape) : Prop where
  reads : Reads level tokens shape
  bound_le : bound ≤ level
  stops : FrontStops bound front

/-- Shorter ends of sequences have one reading each, and one beginning. -/
def UniqueBelow (length : Nat) : Prop :=
  ∀ ⦃bound level level' : Nat⦄ ⦃front front' tokens tokens' : List Token⦄ ⦃shape shape' : Shape⦄,
    tokens.length + tokens'.length < length → ReadsEnd bound level front tokens shape →
    ReadsEnd bound level' front' tokens' shape' → front ++ tokens = front' ++ tokens' →
    front = front' ∧ shape = shape'

theorem UniqueBelow.mono {length length' : Nat} (h : UniqueBelow length) (hle : length' ≤ length) :
    UniqueBelow length' :=
  fun _ _ _ _ _ _ _ _ _ hlength => h (hlength.trans_le hle)

namespace Reads

theorem level_le (h : Reads level tokens shape) : level ≤ atomPrecedence := by
  cases h with
  | leaf | parens | cast | call => exact le_rfl
  | unary => exact Nat.le_of_lt (by decide)
  | between op => exact (BinaryOp.precedence_lt_atom op).le

/-- A node that binds less tightly than an atom ends in its last operand, which binds more tightly
and is preceded by a piece at which reading stops at the higher levels only. -/
theorem exists_last_operand (h : Reads level tokens shape) (hlevel : level < atomPrecedence) :
    ∃ before token rest inner operand, tokens = before ++ [token] ++ rest ∧
      Reads inner rest operand ∧ level < inner ∧ ∀ bound, token.Stops bound ↔ level < bound := by
  cases h with
  | leaf | parens | cast | call => exact absurd hlevel (lt_irrefl _)
  | unary mark h hinner => exact ⟨[], _, _, _, _, rfl, h, hinner, fun _ => Iff.rfl⟩
  | @between op _ _ before rest _ _ hlhs _ hrhs hinner =>
      exact ⟨before, .operator op, rest, _, _, by simp, hrhs, hinner, fun _ => Iff.rfl⟩

/-- How an atom with parentheses begins: what precedes its last parenthesis or comma, that piece,
the operand behind it and the whole tree. -/
inductive Opens : List Token → Token → Shape → Shape → Prop
  | parens (operand : Shape) : Opens [] .opening operand operand
  | cast (dtype : DType) (operand : Shape) :
      Opens [.word dtype.name] .opening operand (.cast dtype operand)
  | call (op : BinaryOp) {level : Nat} {tokens : List Token} {lhs : Shape} (operand : Shape)
      (hop : op.symbol? = none) (hlhs : Reads level tokens lhs) :
      Opens (.word op.name.toLower :: .opening :: tokens) .comma operand (.binary op lhs operand)

/-- An atom is a single piece or ends in a closing parenthesis behind its last operand. -/
theorem leaf_or_opens (h : Reads level tokens shape) (hlevel : level = atomPrecedence) :
    (∃ token : Token, tokens = [token] ∧ token.leaf? = some shape) ∨
      ∃ before last rest inner operand, tokens = before ++ [last] ++ rest ++ [.closing] ∧
        Reads inner rest operand ∧ Opens before last operand shape := by
  cases h with
  | unary => exact absurd hlevel (by decide)
  | between op => exact absurd hlevel (BinaryOp.precedence_lt_atom op).ne
  | leaf h => exact .inl ⟨_, rfl, h⟩
  | parens h => exact .inr ⟨_, _, _, _, _, rfl, h, .parens _⟩
  | cast dtype h => exact .inr ⟨_, _, _, _, _, rfl, h, .cast dtype _⟩
  | call op hop hlhs hrhs => exact .inr ⟨_, _, _, _, _, by simp, hrhs, .call op _ hop hlhs⟩

namespace Opens

variable {before before' : List Token} {last : Token} {operand : Shape}

/-- Behind such a beginning an operand may be read at any level. -/
theorem readsEnd (h : Opens before last operand shape) (front : List Token)
    (hreads : Reads level tokens operand) :
    ReadsEnd 0 level (front ++ before ++ [last]) tokens operand := by
  refine ⟨hreads, Nat.zero_le level, FrontStops.append_singleton_iff.mpr ?_⟩
  cases h <;> trivial

/-- Beginnings that end alike are the same, since no word stands in front of an atom. -/
theorem unique_shape (unique : UniqueBelow (before.length + before'.length))
    (h : Opens before last operand shape) (h' : Opens before' last operand shape')
    (hstops : FrontStops bound front) (hstops' : FrontStops bound front')
    (hfronts : front ++ before = front' ++ before') : front = front' ∧ shape = shape' := by
  cases h with
  | parens =>
      rw [List.append_nil] at hfronts
      cases h' with
      | parens => exact ⟨by simpa using hfronts, rfl⟩
      | cast dtype =>
          rw [hfronts, FrontStops.append_singleton_iff] at hstops
          exact hstops.elim
  | cast dtype =>
      cases h' with
      | parens =>
          rw [List.append_nil] at hfronts
          rw [← hfronts, FrontStops.append_singleton_iff] at hstops'
          exact hstops'.elim
      | cast dtype' =>
          obtain ⟨rfl, hword⟩ := List.append_singleton_inj.mp hfronts
          rw [DType.name_injective (Token.word.inj hword)]
          exact ⟨rfl, rfl⟩
  | @call op _ tokens lhs _ hop hlhs =>
      cases h' with
      | @call op' _ tokens' lhs' _ hop' hlhs' =>
          have hopening : ∀ (front : List Token) (op : BinaryOp),
              FrontStops 0 (front ++ [.word op.name.toLower, .opening]) := by
            intro front op
            simp [FrontStops, Token.Stops]
          obtain ⟨hheads, rfl⟩ := unique (by simp; omega)
            ⟨hlhs, Nat.zero_le _, hopening front op⟩
            ⟨hlhs', Nat.zero_le _, hopening front' op'⟩ (by simpa using hfronts)
          obtain ⟨rfl, hwords⟩ := List.append_inj' hheads rfl
          rw [BinaryOp.eq_of_toLower_name_eq hop hop' (Token.word.inj (List.cons.inj hwords).1)]
          exact ⟨rfl, rfl⟩

end Opens

end Reads

namespace ReadsEnd

/-- Sequences that end alike are not read at different levels: the last operand of the one that
binds less tightly would have to be the other one, and then there is nothing to stop at. -/
theorem not_lt_of_append_eq (unique : UniqueBelow (tokens.length + tokens'.length))
    (h : ReadsEnd bound level front tokens shape) (h' : ReadsEnd bound level' front' tokens' shape')
    (hfronts : front ++ tokens = front' ++ tokens') : ¬level < level' := by
  intro hlt
  obtain ⟨before, token, rest, inner, operand, rfl, hrest, hinner, htoken⟩ :=
    h.reads.exists_last_operand (hlt.trans_le h'.reads.level_le)
  have hoperand : ReadsEnd (level + 1) inner (front ++ before ++ [token]) rest operand :=
    ⟨hrest, hinner, FrontStops.append_singleton_iff.mpr ((htoken _).mpr (Nat.lt_succ_self level))⟩
  have hwhole : ReadsEnd (level + 1) level' front' tokens' shape' :=
    ⟨h'.reads, hlt, h'.stops.mono (h.bound_le.trans (Nat.le_succ level))⟩
  have hfront : front ++ before ++ [token] = front' := by
    refine (unique ?_ hoperand hwhole (by simpa using hfronts)).1
    simp only [List.length_append, List.length_singleton]
    omega
  have hstops := h'.stops
  rw [← hfront, FrontStops.append_singleton_iff, htoken] at hstops
  exact absurd h.bound_le (Nat.not_le_of_lt hstops)

/-- Atoms that end alike are the same. -/
theorem unique_atom (unique : UniqueBelow (tokens.length + tokens'.length))
    (h : ReadsEnd bound level front tokens shape) (h' : ReadsEnd bound level' front' tokens' shape')
    (hlevel : level = atomPrecedence) (hlevel' : level' = atomPrecedence)
    (hfronts : front ++ tokens = front' ++ tokens') : front = front' ∧ shape = shape' := by
  rcases h.reads.leaf_or_opens hlevel with
    ⟨token, rfl, hleaf⟩ | ⟨before, last, rest, _, operand, rfl, hrest, hopens⟩ <;>
  rcases h'.reads.leaf_or_opens hlevel' with
    ⟨token', rfl, hleaf'⟩ | ⟨before', last', rest', _, operand', rfl, hrest', hopens'⟩
  · obtain ⟨rfl, rfl⟩ := List.append_singleton_inj.mp hfronts
    exact ⟨rfl, Option.some.inj (hleaf.symm.trans hleaf')⟩
  · rw [← List.append_assoc] at hfronts
    obtain ⟨-, rfl⟩ := List.append_singleton_inj.mp hfronts
    cases hleaf
  · rw [← List.append_assoc] at hfronts
    obtain ⟨-, rfl⟩ := List.append_singleton_inj.mp hfronts
    cases hleaf'
  · simp only [← List.append_assoc] at hfronts
    obtain ⟨hoperands, -⟩ := List.append_singleton_inj.mp hfronts
    obtain ⟨hheads, rfl⟩ := unique (by simp; omega) (hopens.readsEnd front hrest)
      (hopens'.readsEnd front' hrest') hoperands
    obtain ⟨hbefore, rfl⟩ := List.append_singleton_inj.mp hheads
    exact hopens.unique_shape (unique.mono (by simp; omega)) hopens' h.stops h'.stops hbefore

/-- Nodes of one level that bind less tightly than atoms and end alike are the same. -/
theorem unique_node (unique : UniqueBelow (tokens.length + tokens'.length))
    (h : ReadsEnd bound level front tokens shape) (h' : ReadsEnd bound level' front' tokens' shape')
    (hlevels : level = level') (hlevel : level < atomPrecedence)
    (hfronts : front ++ tokens = front' ++ tokens') : front = front' ∧ shape = shape' := by
  obtain ⟨hreads, hbound, hstops⟩ := h
  obtain ⟨hreads', -, hstops'⟩ := h'
  cases hreads with
  | leaf | parens | cast | call => exact absurd hlevel (lt_irrefl _)
  | unary mark h hinner =>
      cases hreads' with
      | leaf | parens | cast | call => exact absurd hlevels (by decide)
      | between op => exact absurd hlevels.symm (BinaryOp.precedence_ne_unary op)
      | unary mark' h' hinner' =>
          have hsigns : ∀ (front : List Token) (mark : Sign),
              FrontStops (unaryPrecedence + 1) (front ++ [.sign mark]) := fun _ _ =>
            FrontStops.append_singleton_iff.mpr (Nat.lt_succ_self _)
          obtain ⟨hheads, rfl⟩ := unique (by simp; omega) ⟨h, hinner, hsigns front mark⟩
            ⟨h', hinner', hsigns front' mark'⟩ (by simpa using hfronts)
          obtain ⟨rfl, hmark⟩ := List.append_singleton_inj.mp hheads
          rw [Token.sign.inj hmark]
          exact ⟨rfl, rfl⟩
  | between op hlhs houter hrhs hinner =>
      cases hreads' with
      | leaf | parens | cast | call => exact absurd hlevels (BinaryOp.precedence_lt_atom op).ne
      | unary => exact absurd hlevels (BinaryOp.precedence_ne_unary op)
      | between op' hlhs' houter' hrhs' hinner' =>
          rw [← hlevels] at houter' hinner'
          have hoperators : ∀ (front tokens : List Token) (op' : BinaryOp),
              op'.precedence = op.precedence →
                FrontStops (op.precedence + 1) (front ++ tokens ++ [.operator op']) :=
            fun _ _ op' hop' => FrontStops.append_singleton_iff.mpr (hop' ▸ Nat.lt_succ_self _)
          -- The right operands tell where the operators stand, and these what the left ones are.
          obtain ⟨hheads, rfl⟩ := unique (by simp; omega)
            ⟨hrhs, hinner, hoperators front _ op rfl⟩
            ⟨hrhs', hinner', hoperators front' _ op' hlevels.symm⟩ (by simpa using hfronts)
          obtain ⟨hheads, hop⟩ := List.append_singleton_inj.mp hheads
          obtain ⟨rfl, rfl⟩ := unique (by simp; omega) ⟨hlhs, hbound.trans houter, hstops⟩
            ⟨hlhs', hbound.trans houter', hstops'⟩ hheads
          rw [Token.operator.inj hop]
          exact ⟨rfl, rfl⟩

end ReadsEnd

/-- Sequences that end alike are the same, with one reading, by induction on their length. -/
theorem uniqueBelow (length : Nat) : UniqueBelow length := by
  induction length with
  | zero => exact fun _ _ _ _ _ _ _ _ _ hlength => absurd hlength (Nat.not_lt_zero _)
  | succ length ih =>
      intro bound level level' front front' tokens tokens' shape shape' hlength h h' hfronts
      have unique := ih.mono (Nat.le_of_lt_succ hlength)
      have unique' : UniqueBelow (tokens'.length + tokens.length) := by rwa [Nat.add_comm]
      have hlevels : level = level' := Nat.le_antisymm
        (Nat.le_of_not_lt (h'.not_lt_of_append_eq unique' h hfronts.symm))
        (Nat.le_of_not_lt (h.not_lt_of_append_eq unique h' hfronts))
      rcases h.reads.level_le.eq_or_lt with hatom | hnode
      · exact h.unique_atom unique h' hatom (hlevels ▸ hatom) hfronts
      · exact h.unique_node unique h' hlevels hnode hfronts

/-- The grammar is unambiguous. -/
theorem Reads.shape_eq (h : Reads level tokens shape) (h' : Reads level' tokens shape') :
    shape = shape' := by
  have hnone : FrontStops 0 [] := fun _ htoken => nomatch htoken
  exact (uniqueBelow _ (Nat.lt_succ_self _) ⟨h, Nat.zero_le _, hnone⟩
    ⟨h', Nat.zero_le _, hnone⟩ rfl).2

end LoopNest
