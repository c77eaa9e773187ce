import DeskCalculator.Proofs.Expr.OfParseTree
import DeskCalculator.Proofs.PostfixOrder.Progress

/-!
# Too deep without a parenthesis

Chains, towers and repeated signs are stored flat, but a minus in an exponent stands between two towers
and costs two levels. The expression of a text without parentheses has two levels for each such exponent
of one power, and at most five more, so that with five hundred of them the text is refused.
-/

namespace DeskCalculator

open DeskCalculator.Except Grammar Expr

/-! ## Signs of a phrase -/

namespace ParseTree

/-- An odd number of minus signs stands before the phrase. -/
def isNegated : ParseTree → Bool
  | plus operand => operand.isNegated
  | minus operand => !operand.isNegated
  | _ => false

/-- The phrase behind its signs. -/
def unsigned : ParseTree → ParseTree
  | plus operand | minus operand => operand.unsigned
  | t => t

def isLeaf : ParseTree → Bool
  | number _ | constant _ => true
  | _ => false

/-- How many exponents of one power are negated, at most; a power begins anew in parentheses. -/
def negatedExponents : ParseTree → Nat
  | number _ | constant _ | call _ _ | group _ => 0
  | power _ exponent => exponent.isNegated.toNat + exponent.negatedExponents
  | plus operand | minus operand => operand.negatedExponents
  | binary _ left right => max left.negatedExponents right.negatedExponents

end ParseTree

/-! ## Heights of what is built -/

namespace Expr

theorem flat_of_isTower {e : Expr} (h : e.isTower = true) :
    e.isNegation = false ∧ e.isChain = false := by
  cases e with
  | tower => exact ⟨rfl, rfl⟩
  | _ => cases h

namespace Built

theorem negate_of_isNegation {x : Built} {e : Expr} (h : x.expr = .negation e) : x.negate.expr = e := by
  simp only [negate, h]

theorem negate_of_not_isNegation {x : Built} (h : x.expr.isNegation = false) :
    x.negate.expr = .negation x.expr := by
  obtain ⟨e, n⟩ := x
  cases e with
  | negation e => cases h
  | _ => rfl

theorem isTower_raise (a b : Built) : (a.raise b).expr.isTower = true := by
  obtain ⟨e, n⟩ := b
  cases e <;> rfl

theorem isChain_link (o : Op) (a b : Built) : (a.link o b).expr.isChain = true := by
  obtain ⟨e, n⟩ := a
  cases e <;> rfl

theorem height_raise (a b : Built) : (a.raise b).expr.height =
    if b.expr.isTower then max b.expr.height (a.expr.height + 1)
    else max a.expr.height b.expr.height + 1 := by
  obtain ⟨e, n⟩ := b
  cases e with
  | tower members =>
      simp only [raise, Expr.height, memberHeight, isTower, if_true]
      omega
  | _ => simp [raise, Expr.height, memberHeight, isTower]

theorem height_link (o : Op) (a b : Built) : (a.link o b).expr.height =
    if a.expr.isChain then max a.expr.height (b.expr.height + 1)
    else max a.expr.height b.expr.height + 1 := by
  obtain ⟨e, n⟩ := a
  cases e with
  | chain head links =>
      simp only [link, Expr.height, linkHeight_append, isChain, if_true]
      omega
  | _ => simp [link, Expr.height, linkHeight, isChain]

end Built

end Expr

/-- How many levels a chain without parentheses has, at most, beside two for each negated exponent. -/
def Grammar.Level.margin : Level → Nat
  | .sum => 5
  | .product => 4

theorem Grammar.Level.le_margin (l : Level) : 4 ≤ l.margin := by
  cases l <;> decide

namespace ParseTree

/-! ## Operands -/

/-- What an operand without parentheses builds: a number, a constant or a tower, perhaps under one
negation. -/
structure IsOperand (t : ParseTree) : Prop where
  nesting : t.nesting = 0
  expr : t.built.expr = if t.isNegated then .negation t.unsigned.built.expr else t.unsigned.built.expr
  flat : t.unsigned.built.expr.isNegation = false ∧ t.unsigned.built.expr.isChain = false
  leaf : t.unsigned.built.expr.isTower = false → t.unsigned.height = 1 ∧ t.negatedExponents = 0
  tower : t.unsigned.built.expr.isTower = true → 2 ≤ t.unsigned.height
  lower : 2 * t.negatedExponents + 1 ≤ t.unsigned.height
  upper : t.unsigned.height ≤ 2 * t.negatedExponents + 2
  peak : t.peak ≤ 2 * t.negatedExponents + 3

namespace IsOperand

variable {a t : ParseTree}

theorem of_isLeaf (h : t.isLeaf = true) : IsOperand t := by
  cases t with
  | number | constant =>
      constructor <;> simp [ParseTree.nesting, isNegated, unsigned, built, Built.leaf, isNegation,
        isChain, isTower, ParseTree.height, Expr.height, negatedExponents, ParseTree.peak]
  | _ => cases h

theorem height_eq (h : IsOperand t) : t.height = t.unsigned.height + t.isNegated.toNat := by
  simp only [ParseTree.height, h.expr]
  cases t.isNegated <;> rfl

theorem plus (h : IsOperand t) : IsOperand (.plus t) where
  nesting := h.nesting
  expr := h.expr
  flat := h.flat
  leaf := h.leaf
  tower := h.tower
  lower := h.lower
  upper := h.upper
  peak := h.peak

theorem minus_expr (h : IsOperand t) : (minus t).built.expr =
    if t.isNegated then t.unsigned.built.expr else .negation t.unsigned.built.expr := by
  have he := h.expr
  cases hn : t.isNegated with
  | true =>
      rw [hn] at he
      exact Built.negate_of_isNegation he
  | false =>
      rw [hn] at he
      have hf : t.built.expr.isNegation = false := he ▸ h.flat.1
      exact (Built.negate_of_not_isNegation hf).trans (congrArg Expr.negation he)

/-- A second sign cancels the first one, so that the tower stays under one negation at most. -/
theorem minus (h : IsOperand t) : IsOperand (.minus t) where
  nesting := h.nesting
  expr := by
    rw [h.minus_expr]
    cases hn : t.isNegated <;> simp [isNegated, unsigned, hn]
  flat := h.flat
  leaf := h.leaf
  tower := h.tower
  lower := h.lower
  upper := h.upper
  peak := by
    have hh : (ParseTree.minus t).height ≤ t.unsigned.height + 1 := by
      simp only [ParseTree.height, h.minus_expr]
      cases t.isNegated <;> simp [Expr.height]
    have := h.upper
    have := h.peak
    simp only [ParseTree.peak, negatedExponents]
    omega

theorem isLeaf_cases (ha : a.isLeaf = true) : a.nesting = 0 ∧ a.height = 1 ∧ a.peak = 1 := by
  cases a with
  | number | constant => exact ⟨rfl, rfl, rfl⟩
  | _ => cases ha

/-- A negated exponent is a tower of its own, below a negation; any other one continues the tower. -/
theorem power_height (ha : a.isLeaf = true) (h : IsOperand t) : (ParseTree.power a t).height =
    if t.isNegated then t.unsigned.height + 2 else max t.unsigned.height 2 := by
  have hr := Built.height_raise a.built t.built
  have ha := (isLeaf_cases ha).2.1
  simp only [ParseTree.height] at ha
  simp only [ParseTree.height, built, hr, ha, h.expr]
  cases t.isNegated with
  | true =>
      simp only [if_true, isTower, Expr.height, Bool.false_eq_true, if_false]
      omega
  | false =>
      simp only [Bool.false_eq_true, if_false]
      cases ht : t.unsigned.built.expr.isTower with
      | true => rfl
      | false =>
          have := (h.leaf ht).1
          simp only [ParseTree.height] at this
          simp [this]

theorem power (ha : a.isLeaf = true) (h : IsOperand t) : IsOperand (.power a t) := by
  obtain ⟨han, -, hap⟩ := isLeaf_cases ha
  have ht : (ParseTree.power a t).built.expr.isTower = true := Built.isTower_raise a.built t.built
  have hh := h.power_height ha
  have hl := h.lower
  have hu := h.upper
  have hp := h.peak
  -- A leaf has no negated exponent, and the height of a tower is that of its exponent's tower.
  have hk : 2 * (ParseTree.power a t).negatedExponents + 1 ≤ (ParseTree.power a t).height ∧
      2 ≤ (ParseTree.power a t).height ∧
      (ParseTree.power a t).height ≤ 2 * (ParseTree.power a t).negatedExponents + 2 := by
    rw [hh, negatedExponents]
    cases t.isNegated with
    | true =>
        simp only [if_true, Bool.toNat_true]
        omega
    | false =>
        simp only [Bool.false_eq_true, if_false, Bool.toNat_false]
        omega
  have hn : (ParseTree.power a t).nesting = 0 := by simp [ParseTree.nesting, han, h.nesting]
  refine ⟨hn, rfl, flat_of_isTower ht, ?_, fun _ => hk.2.1, hk.1, hk.2.2, ?_⟩
  · intro hf
    exact absurd (hf.symm.trans ht) Bool.false_ne_true
  · have : t.negatedExponents ≤ (ParseTree.power a t).negatedExponents := Nat.le_add_left ..
    simp only [ParseTree.peak, hap]
    omega

end IsOperand

/-! ## Chains -/

/-- What a chain without parentheses builds; before a second operand it is a mere operand. -/
structure IsRow (l : Level) (t : ParseTree) : Prop where
  nesting : t.nesting = 0
  single : t.built.expr.isChain = false → t.height ≤ 2 * t.negatedExponents + 3
  lower : 2 * t.negatedExponents + 1 ≤ t.height
  upper : t.height ≤ 2 * t.negatedExponents + l.margin
  peak : t.peak ≤ 2 * t.negatedExponents + l.margin

/-- What can be joined to a chain of the level. -/
structure IsLink (l : Level) (t : ParseTree) : Prop where
  nesting : t.nesting = 0
  lower : 2 * t.negatedExponents + 1 ≤ t.height
  upper : t.height + 1 ≤ 2 * t.negatedExponents + l.margin
  peak : t.peak ≤ 2 * t.negatedExponents + l.margin

theorem IsOperand.bounds {t : ParseTree} (h : IsOperand t) :
    2 * t.negatedExponents + 1 ≤ t.height ∧ t.height ≤ 2 * t.negatedExponents + 3 := by
  have hh := h.height_eq
  have hl := h.lower
  have hu := h.upper
  have := Bool.toNat_le t.isNegated
  omega

theorem IsOperand.isRow {t : ParseTree} (h : IsOperand t) (l : Level) : IsRow l t := by
  have hb := h.bounds
  have hp := h.peak
  have hm := l.le_margin
  exact ⟨h.nesting, fun _ => hb.2, hb.1, by omega, by omega⟩

theorem IsOperand.isLink {t : ParseTree} (h : IsOperand t) : IsLink .product t := by
  have hb := h.bounds
  have hp := h.peak
  exact ⟨h.nesting, hb.1, by simp only [Level.margin]; omega, by simp only [Level.margin]; omega⟩

theorem IsRow.to_sum {t : ParseTree} (h : IsRow .product t) : IsRow .sum t :=
  ⟨h.nesting, h.single, h.lower, Nat.le_succ_of_le h.upper, Nat.le_succ_of_le h.peak⟩

theorem IsRow.isLink {t : ParseTree} (h : IsRow .product t) : IsLink .sum t :=
  ⟨h.nesting, h.lower, Nat.succ_le_succ h.upper, Nat.le_succ_of_le h.peak⟩

/-- Another operand does not make a chain higher than what is in it. -/
theorem IsRow.join {l : Level} {a b : ParseTree} (ha : IsRow l a) (hb : IsLink l b) (o : Op) :
    IsRow l (.binary o a b) := by
  have hh : (ParseTree.binary o a b).height =
      if a.built.expr.isChain then max a.height (b.height + 1) else max a.height b.height + 1 :=
    Built.height_link o a.built b.built
  have hm := l.le_margin
  have hal := ha.lower
  have hau := ha.upper
  have hap := ha.peak
  have hbl := hb.lower
  have hbu := hb.upper
  have hbp := hb.peak
  have hbounds : 2 * max a.negatedExponents b.negatedExponents + 1 ≤ (ParseTree.binary o a b).height ∧
      (ParseTree.binary o a b).height ≤ 2 * max a.negatedExponents b.negatedExponents + l.margin := by
    rw [hh]
    cases hc : a.built.expr.isChain with
    | true =>
        simp only [if_true]
        omega
    | false =>
        have := ha.single hc
        simp only [Bool.false_eq_true, if_false]
        omega
  refine ⟨by simp [ParseTree.nesting, ha.nesting, hb.nesting], fun hf => ?_, hbounds.1, hbounds.2, ?_⟩
  · have hc : (ParseTree.binary o a b).built.expr.isChain = true := Built.isChain_link o a.built b.built
    exact absurd (hf.symm.trans hc) Bool.false_ne_true
  · simp only [ParseTree.peak, negatedExponents]
    omega

end ParseTree

/-! ## Phrases -/

namespace Grammar

open ParseTree

/-- The tree is as low as one of the category without parentheses. -/
def Category.IsLow : Category → ParseTree → Prop
  | .chain l, t => IsRow l t
  | .rest l left, t => IsRow l left → IsRow l t
  | .signed, t | .power, t => IsOperand t
  | .atom, t => t.isLeaf = true

theorem Level.isRow_of_operand {l : Level} {t : ParseTree} (h : l.operand.IsLow t) : IsRow l t := by
  cases l with
  | sum => exact IsRow.to_sum h
  | product => exact IsOperand.isRow h .product

theorem Level.isLink_of_operand {l : Level} {t : ParseTree} (h : l.operand.IsLow t) : IsLink l t := by
  cases l with
  | sum => exact IsRow.isLink h
  | product => exact IsOperand.isLink h

theorem Derives.isLow {c : Category} {ts : List Token} {t : ParseTree} (h : Derives c ts t)
    (hn : .opening ∉ ts) :
    c.IsLow t := by
  induction h with
  | number | constant => rfl
  | call _ _ | group _ _ => simp at hn
  | bare _ ih => exact .of_isLeaf (ih hn)
  | raised _ _ iha ihb =>
      simp only [List.mem_append, List.mem_cons, reduceCtorEq, false_or, not_or] at hn
      exact IsOperand.power (iha hn.1) (ihb hn.2)
  | unsigned _ ih => exact ih hn
  | plus _ ih => exact IsOperand.plus (ih (by simpa using hn))
  | minus _ ih => exact IsOperand.minus (ih (by simpa using hn))
  | chain _ _ iha ihr =>
      simp only [List.mem_append, not_or] at hn
      exact ihr hn.2 (Level.isRow_of_operand (iha hn.1))
  | done => exact id
  | @join _ o _ _ _ _ _ _ _ _ ihb ihr =>
      simp only [List.mem_append, List.mem_cons, reduceCtorEq, false_or, not_or] at hn
      exact fun ha => ihr hn.2 (ha.join (Level.isLink_of_operand (ihb hn.1)) o)

end Grammar

/-! ## Putting in order -/

namespace PostfixOrder.State

theorem step_ne_tooDeep {s : State} {t : Token} {next : Option Token} (h : t ≠ .opening) :
    s.step t next ≠ .error .tooDeep := by
  cases t with
  | opening => exact absurd rfl h
  | number x =>
      simp only [step, value]
      split <;> simp
  | name n =>
      simp only [step, name, value]
      repeat' split
      all_goals simp
  | closing =>
      simp only [step, closeParenthesis]
      repeat' split
      all_goals simp
  | op o =>
      simp only [step, binary]
      repeat' split
      all_goals simp
  | power =>
      simp only [step, binary]
      split <;> simp
  | negation => simp [step]

theorem run_ne_tooDeep {ts : List Token} (s : State) (h : .opening ∉ ts) :
    s.run ts ≠ .error .tooDeep := by
  induction ts generalizing s with
  | nil => simp [run]
  | cons t ts ih =>
      simp only [List.mem_cons, not_or] at h
      rw [run_cons]
      cases hs : s.step t ts.head? with
      | ok s' => exact ih s' h.2
      | error fault =>
          rintro ⟨⟩
          exact step_ne_tooDeep (Ne.symm h.1) hs

end PostfixOrder.State

theorem PostfixOrder.ofTokens_ne_tooDeep {ts : List Token} (h : .opening ∉ ts) :
    ofTokens ts ≠ .error .tooDeep := by
  unfold ofTokens
  split
  · simp
  · cases hr : State.initial.run ts with
    | error fault =>
        rintro ⟨⟩
        exact State.run_ne_tooDeep .initial h hr
    | ok s =>
        show s.finish ≠ _
        unfold State.finish
        repeat' split
        all_goals simp

/-! ## Texts without parentheses -/

namespace Grammar

/-- Without parentheses a sentence is too deep exactly where its tree is, which has two levels for each
negated exponent of one power and at most five more; nothing else is ever too deep. -/
theorem tooDeep_of_no_parenthesis (ts : List Token) (h : .opening ∉ ts) :
    (∀ t, Sentence ts t →
      (do Expr.ofPostfixOrder (← PostfixOrder.ofTokens ts)) =
          (if Expr.maxHeight < t.peak then .error .tooDeep else .ok t.built.expr) ∧
        2 * t.negatedExponents + 1 ≤ t.peak ∧ t.peak ≤ 2 * t.negatedExponents + 5) ∧
      ((∀ t, ¬ Sentence ts t) →
        (do Expr.ofPostfixOrder (← PostfixOrder.ofTokens ts)) ≠ .error .tooDeep) := by
  refine ⟨fun t ht => ?_, fun hs => ?_⟩
  · have hr : ParseTree.IsRow .sum t := ht.isLow h
    have ho : PostfixOrder.ofTokens ts = .ok t.postorder := by
      rw [ht.ofTokens, hr.nesting]
      rfl
    refine ⟨?_, Nat.le_trans hr.lower t.height_le_peak, hr.peak⟩
    rw [ho]
    exact Expr.ofPostfixOrder_postorder_eq t
  · cases ho : PostfixOrder.ofTokens ts with
    | ok order =>
        obtain ⟨t, ht, -⟩ := exists_sentence ho
        exact absurd ht (hs t)
    | error fault =>
        rintro ⟨⟩
        exact PostfixOrder.ofTokens_ne_tooDeep h ho

/-- The tokens of `1^-1^-1…`, with so many negated exponents. -/
def alternation : Nat → List Token
  | 0 => [.number 1]
  | n + 1 => .number 1 :: .power :: .op .sub :: alternation n

def alternationTree : Nat → ParseTree
  | 0 => .number 1
  | n + 1 => .power (.number 1) (.minus (alternationTree n))

theorem derives_alternation (n : Nat) : Derives .power (alternation n) (alternationTree n) := by
  induction n with
  | zero => exact .bare (.number 1)
  | succ n ih => exact @Derives.raised [.number 1] (.number 1) _ _ (.number 1) (.minus (.unsigned ih))

theorem negatedExponents_alternationTree (n : Nat) : (alternationTree n).negatedExponents = n := by
  induction n with
  | zero => rfl
  | succ n ih =>
      have : (alternationTree n).isNegated = false := by cases n <;> rfl
      simp only [alternationTree, ParseTree.negatedExponents, ParseTree.isNegated, this, ih]
      exact Nat.add_comm 1 n

theorem opening_not_mem_alternation (n : Nat) : .opening ∉ alternation n := by
  induction n with
  | zero => simp [alternation]
  | succ n ih => simpa [alternation] using ih

theorem tooDeep_of_alternation : .opening ∉ alternation 500 ∧
    (do Expr.ofPostfixOrder (← PostfixOrder.ofTokens (alternation 500))) = .error .tooDeep := by
  have ho := opening_not_mem_alternation 500
  have hs : Sentence (alternation 500) (alternationTree 500) :=
    (derives_alternation 500).unsigned.of_signed
  obtain ⟨he, hl, -⟩ := (tooDeep_of_no_parenthesis (alternation 500) ho).1 _ hs
  have hp : Expr.maxHeight < (alternationTree 500).peak := by
    rw [negatedExponents_alternationTree] at hl
    exact hl
  exact ⟨ho, he.trans (if_pos hp)⟩

end Grammar

end DeskCalculator
