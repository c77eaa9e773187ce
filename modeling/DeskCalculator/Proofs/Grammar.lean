import DeskCalculator.PostfixOrder

/-!
# The grammar of token lists

A sum joins products with `+` and `-`, a product joins signed operands with `*` and `/`, a sign
stands before another sign or before a power, and the exponent of a power may have signs of its own.
Every list of tokens has at most one parse tree.
-/

namespace DeskCalculator

/-! ## Parse trees -/

inductive ParseTree where
  | number (x : Float)
  | constant (c : Constant)
  | call (f : NamedFunction) (argument : ParseTree)
  | group (inner : ParseTree)
  | power (base exponent : ParseTree)
  | plus (operand : ParseTree)
  | minus (operand : ParseTree)
  | binary (o : Op) (left right : ParseTree)

namespace ParseTree

/-- The tokens of the tree with each operator behind its operands. -/
def postorder : ParseTree → List Token
  | number x => [.number x]
  | constant c => [.name c.name]
  | call f argument => argument.postorder ++ [.name f.name]
  | group inner => inner.postorder
  | power base exponent => base.postorder ++ exponent.postorder ++ [.power]
  | plus operand => operand.postorder
  | minus operand => operand.postorder ++ [.negation]
  | binary o left right => left.postorder ++ right.postorder ++ [.op o]

/-- How deep the parentheses nest. -/
def nesting : ParseTree → Nat
  | number _ | constant _ => 0
  | call _ argument => argument.nesting + 1
  | group inner => inner.nesting + 1
  | power base exponent => max base.nesting exponent.nesting
  | plus operand | minus operand => operand.nesting
  | binary _ left right => max left.nesting right.nesting

end ParseTree

/-! ## Phrases -/

namespace Grammar

/-- The operators of one chain bind equally. -/
inductive Level where
  | sum
  | product

def Level.ofOp : Op → Level
  | .add | .sub => .sum
  | .mul | .div => .product

inductive Category where
  | chain (l : Level)
  /-- What may follow the part of a chain that was read before. -/
  | rest (l : Level) (left : ParseTree)
  | signed
  | power
  | atom

/-- What a chain joins. -/
def Level.operand : Level → Category
  | .sum => .chain .product
  | .product => .signed

/-- The tokens are a phrase of the category, and this is its tree. -/
inductive Derives : Category → List Token → ParseTree → Prop
  | number (x : Float) : Derives .atom [.number x] (.number x)
  | constant (c : Constant) : Derives .atom [.name c.name] (.constant c)
  | call {f : NamedFunction} {ts t} : Derives (.chain .sum) ts t →
      Derives .atom (.name f.name :: .opening :: (ts ++ [.closing])) (.call f t)
  | group {ts t} : Derives (.chain .sum) ts t → Derives .atom (.opening :: (ts ++ [.closing])) (.group t)
  | bare {ts t} : Derives .atom ts t → Derives .power ts t
  | raised {ts a us b} : Derives .atom ts a → Derives .signed us b →
      Derives .power (ts ++ .power :: us) (.power a b)
  | unsigned {ts t} : Derives .power ts t → Derives .signed ts t
  | plus {ts t} : Derives .signed ts t → Derives .signed (.op .add :: ts) (.plus t)
  | minus {ts t} : Derives .signed ts t → Derives .signed (.op .sub :: ts) (.minus t)
  | chain {l : Level} {ts a us t} : Derives l.operand ts a → Derives (.rest l a) us t →
      Derives (.chain l) (ts ++ us) t
  | done (l : Level) (a : ParseTree) : Derives (.rest l a) [] a
  | join {l : Level} {o : Op} {a us b vs t} : Level.ofOp o = l → Derives l.operand us b →
      Derives (.rest l (.binary o a b)) vs t → Derives (.rest l a) (.op o :: (us ++ vs)) t

/-- A whole list of tokens that can be read. -/
abbrev Sentence (ts : List Token) (t : ParseTree) : Prop := Derives (.chain .sum) ts t

namespace Derives

theorem of_operand {l : Level} {ts : List Token} {t : ParseTree} (h : Derives l.operand ts t) :
    Derives (.chain l) ts t := by
  simpa using chain h (done l t)

theorem of_product {ts : List Token} {t : ParseTree} (h : Derives (.chain .product) ts t) :
    Derives (.chain .sum) ts t :=
  of_operand (l := .sum) h

theorem of_signed {l : Level} {ts : List Token} {t : ParseTree} (h : Derives .signed ts t) :
    Derives (.chain l) ts t := by
  have hp : Derives (.chain .product) ts t := of_operand (l := .product) h
  cases l with
  | sum => exact hp.of_product
  | product => exact hp

theorem of_atom {ts : List Token} {t : ParseTree} (h : Derives .atom ts t) : Derives .signed ts t :=
  unsigned (bare h)

theorem rest_snoc {l : Level} {o : Op} {left a b : ParseTree} {ts us : List Token}
    (ho : Level.ofOp o = l) (ha : Derives (.rest l left) ts a) (hb : Derives l.operand us b) :
    Derives (.rest l left) (ts ++ .op o :: us) (.binary o a b) := by
  generalize hc : Category.rest l left = c at ha
  induction ha generalizing left with
  | done l' a =>
      cases hc
      simpa using join ho hb (done ..)
  | join ho' hx _ _ ih =>
      cases hc
      simpa using join ho' hx (ih rfl)
  | _ => cases hc

theorem snoc {l : Level} {o : Op} {a b : ParseTree} {ts us : List Token} (ho : Level.ofOp o = l)
    (ha : Derives (.chain l) ts a) (hb : Derives l.operand us b) :
    Derives (.chain l) (ts ++ .op o :: us) (.binary o a b) := by
  cases ha with
  | chain hx hr => simpa using chain hx (rest_snoc ho hr hb)

theorem quotient_of_atoms {ts us vs : List Token} {a b c : ParseTree} (ha : Derives .atom ts a)
    (hb : Derives .atom us b) (hc : Derives .atom vs c) :
    Sentence (ts ++ .op .mul :: us ++ .op .div :: vs) (.binary .div (.binary .mul a b) c) := by
  have hab : Derives (.chain .product) (ts ++ .op .mul :: us) (.binary .mul a b) :=
    snoc (l := .product) (o := .mul) rfl ha.of_atom.of_signed hb.of_atom
  exact (snoc (l := .product) (o := .div) rfl hab hc.of_atom).of_product

theorem negation_not_mem {c : Category} {ts : List Token} {t : ParseTree} (h : Derives c ts t) :
    .negation ∉ ts := by
  induction h <;> simp_all

end Derives

/-! ## Strengths -/

/-- What binds at least so tightly. -/
def Category.ofStrength : Nat → Category
  | 0 | 1 => .chain .sum
  | 2 => .chain .product
  | 3 => .signed
  | 4 => .power
  | _ + 5 => .atom

theorem Category.ofStrength_op (o : Op) : ofStrength (PostfixOrder.strength o) = .chain (Level.ofOp o) ∧
    ofStrength (PostfixOrder.strength o + 1) = (Level.ofOp o).operand := by
  cases o <;> exact ⟨rfl, rfl⟩

section

variable {ts us : List Token} {t u : ParseTree}

theorem Derives.weaken {n : Nat} (h : Derives (Category.ofStrength (n + 1)) ts t) :
    Derives (Category.ofStrength n) ts t := by
  match n with
  | 0 => exact h
  | 1 => exact h.of_product
  | 2 => exact h.of_signed
  | 3 => exact .unsigned h
  | 4 => exact .bare h
  | _ + 5 => exact h

theorem Derives.of_le {m n : Nat} (hm : m ≤ n) (h : Derives (Category.ofStrength n) ts t) :
    Derives (Category.ofStrength m) ts t := by
  induction hm with
  | refl => exact h
  | step _ ih => exact ih h.weaken

/-- Two operands of the operator's strength, the second of more. -/
theorem Derives.binary {o : Op} (h : Derives (Category.ofStrength (PostfixOrder.strength o)) ts t)
    (h' : Derives (Category.ofStrength (PostfixOrder.strength o + 1)) us u) :
    Derives (Category.ofStrength (PostfixOrder.strength o)) (ts ++ .op o :: us) (.binary o t u) := by
  obtain ⟨hchain, hoperand⟩ := Category.ofStrength_op o
  rw [hchain] at h ⊢
  rw [hoperand] at h'
  exact h.snoc rfl h'

end

/-! ## One tree at most -/

def Level.continues : Level → Token → Bool
  | .sum, .op _ => true
  | .product, .op o => match Level.ofOp o with
    | .sum => false
    | .product => true
  | _, .power => true
  | _, _ => false

/-- A phrase of the category goes on where this token follows. -/
def Category.continues : Category → Token → Bool
  | .chain l, t | .rest l _, t => l.continues t
  | .signed, t | .power, t => match t with
    | .power => true
    | _ => false
  | .atom, _ => false

theorem Level.continues_op (o : Op) : (Level.ofOp o).continues (.op o) = true := by
  cases o <;> rfl

theorem Level.operand_continues_op (o : Op) : (Level.ofOp o).operand.continues (.op o) = false := by
  cases o <;> rfl

/-- A phrase of the category ends where these tokens follow. -/
abbrev Category.Ends (c : Category) (rest : List Token) : Prop :=
  ∀ t ∈ rest.head?, c.continues t = false

theorem Category.atom_ends (rest : List Token) : Category.atom.Ends rest :=
  fun _ _ => rfl

theorem Category.ends_nil (c : Category) : c.Ends [] := by
  simp [Category.Ends]

theorem Category.ends_closing (rest : List Token) : (Category.chain .sum).Ends (.closing :: rest) := by
  intro t ht
  obtain rfl : Token.closing = t := by simpa using ht
  rfl

theorem Category.Ends.of_cons {c : Category} {t : Token} {rest : List Token} (h : c.Ends (t :: rest)) :
    c.continues t = false :=
  h t (by simp)

theorem Category.Ends.operand {l : Level} {rest : List Token} (h : (Category.chain l).Ends rest) :
    l.operand.Ends rest := by
  intro t ht
  have := h t ht
  cases l <;> cases t <;> simp_all [Category.continues, Level.continues, Level.operand]

theorem Derives.operand_ends {l : Level} {left t : ParseTree} {ts rest : List Token}
    (hd : Derives (.rest l left) ts t) (h : (Category.chain l).Ends rest) :
    l.operand.Ends (ts ++ rest) := by
  cases hd with
  | done => exact h.operand
  | join ho _ _ =>
      intro t ht
      obtain rfl : Token.op _ = t := by simpa using ht
      exact ho ▸ Level.operand_continues_op _

theorem Derives.not_op {c : Category} {ts : List Token} {t : ParseTree} (h : Derives c ts t)
    (hc : c = .atom ∨ c = .power) {o : Op} {rest rest' : List Token} : ts ++ rest ≠ .op o :: rest' := by
  induction h generalizing rest with
  | number | constant | call | group => simp
  | bare _ ih => exact ih (.inl rfl)
  | raised _ _ ih _ => simpa using ih (.inl rfl)
  | _ => simp at hc

/-- Two phrases of one category at the start of the same tokens are the same, with the same tree. -/
theorem Derives.unique {c : Category} {ts ts' rest rest' : List Token} {t t' : ParseTree}
    (h : Derives c ts t) (h' : Derives c ts' t') (he : ts ++ rest = ts' ++ rest') (hr : c.Ends rest)
    (hr' : c.Ends rest') :
    ts = ts' ∧ t = t' := by
  -- What follows stays general, since an inner phrase is followed by more of the outer one.
  induction h generalizing ts' t' rest rest' with
  | number x =>
      cases h' with
      | number => simp_all
      | _ => simp at he
  | constant c =>
      cases h' with
      | constant c' =>
          obtain rfl : c = c' := Constant.eq_of_name_eq (by simp_all)
          exact ⟨rfl, rfl⟩
      | call =>
          have hn := (List.cons.inj he).1
          exact absurd (Token.name.inj hn) (Constant.name_ne_name _ _)
      | _ => simp at he
  | call hs ih =>
      cases h' with
      | constant =>
          have hn := (List.cons.inj he).1
          exact absurd (Token.name.inj hn).symm (Constant.name_ne_name _ _)
      | call hs' =>
          simp only [List.cons_append, List.append_assoc, List.cons.injEq, Token.name.injEq,
            true_and] at he
          obtain ⟨hn, he⟩ := he
          obtain rfl := NamedFunction.eq_of_name_eq hn
          obtain ⟨rfl, rfl⟩ := ih hs' he (Category.ends_closing _) (Category.ends_closing _)
          exact ⟨rfl, rfl⟩
      | _ => simp at he
  | group hs ih =>
      cases h' with
      | group hs' =>
          simp only [List.cons_append, List.append_assoc, List.cons.injEq, true_and] at he
          obtain ⟨rfl, rfl⟩ := ih hs' he (Category.ends_closing _) (Category.ends_closing _)
          exact ⟨rfl, rfl⟩
      | _ => simp at he
  | bare ha ih =>
      cases h' with
      | bare ha' => exact ih ha' he (Category.atom_ends _) (Category.atom_ends _)
      | raised ha' hb' =>
          rw [List.append_assoc] at he
          obtain ⟨rfl, rfl⟩ := ih ha' he (Category.atom_ends _) (Category.atom_ends _)
          obtain rfl := List.append_cancel_left he
          exact absurd hr.of_cons (by decide)
  | raised ha hb iha ihb =>
      cases h' with
      | bare ha' =>
          rw [List.append_assoc] at he
          obtain ⟨rfl, rfl⟩ := iha ha' he (Category.atom_ends _) (Category.atom_ends _)
          obtain rfl := List.append_cancel_left he
          exact absurd hr'.of_cons (by decide)
      | raised ha' hb' =>
          simp only [List.append_assoc, List.cons_append] at he
          obtain ⟨rfl, rfl⟩ := iha ha' he (Category.atom_ends _) (Category.atom_ends _)
          have he := (List.cons.inj (List.append_cancel_left he)).2
          obtain ⟨rfl, rfl⟩ := ihb hb' he hr hr'
          exact ⟨rfl, rfl⟩
  | unsigned hp ih =>
      cases h' with
      | unsigned hp' => exact ih hp' he hr hr'
      | plus | minus => exact absurd he (hp.not_op (.inr rfl))
  | plus hs ih =>
      cases h' with
      | unsigned hp' => exact absurd he.symm (hp'.not_op (.inr rfl))
      | plus hs' =>
          obtain ⟨rfl, rfl⟩ := ih hs' (List.cons.inj he).2 hr hr'
          exact ⟨rfl, rfl⟩
      | minus => simp at he
  | minus hs ih =>
      cases h' with
      | unsigned hp' => exact absurd he.symm (hp'.not_op (.inr rfl))
      | minus hs' =>
          obtain ⟨rfl, rfl⟩ := ih hs' (List.cons.inj he).2 hr hr'
          exact ⟨rfl, rfl⟩
      | plus => simp at he
  | chain ha hs iha ihs =>
      cases h' with
      | chain ha' hs' =>
          simp only [List.append_assoc] at he
          obtain ⟨rfl, rfl⟩ := iha ha' he (hs.operand_ends hr) (hs'.operand_ends hr')
          obtain ⟨rfl, rfl⟩ := ihs hs' (List.append_cancel_left he) hr hr'
          exact ⟨rfl, rfl⟩
  | done l a =>
      cases h' with
      | done => exact ⟨rfl, rfl⟩
      | join ho _ _ =>
          obtain rfl : rest = _ := he
          exact absurd hr.of_cons (by simp [Category.continues, ← ho, Level.continues_op])
  | join ho hb hs ihb ihs =>
      cases h' with
      | done =>
          obtain rfl : _ = rest' := he
          exact absurd hr'.of_cons (by simp [Category.continues, ← ho, Level.continues_op])
      | join ho' hb' hs' =>
          simp only [List.cons_append, List.append_assoc, List.cons.injEq, Token.op.injEq] at he
          obtain ⟨rfl, he⟩ := he
          obtain ⟨rfl, rfl⟩ := ihb hb' he (hs.operand_ends hr) (hs'.operand_ends hr')
          obtain ⟨rfl, rfl⟩ := ihs hs' (List.append_cancel_left he) hr hr'
          exact ⟨rfl, rfl⟩

theorem Sentence.unique {ts : List Token} {t t' : ParseTree} (h : Sentence ts t) (h' : Sentence ts t') :
    t = t' :=
  (Derives.unique h h' rfl (Category.ends_nil _) (Category.ends_nil _)).2

end Grammar

end DeskCalculator
