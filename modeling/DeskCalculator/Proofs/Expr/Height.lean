import DeskCalculator.Proofs.Expr.Normal

/-!
# How high expressions are

The height that is kept beside an expression while it is built is its true height. So no expression is
higher than the bound, nor is any part of it, and it is valued within that many levels.
-/

namespace DeskCalculator.Expr

open DeskCalculator.Except

/-! ## Heights -/

mutual

/-- The number of levels of the expression. -/
def height : Expr → Nat
  | .number _ | .constant _ => 1
  | .negation e => e.height + 1
  | .chain head links => max head.height (linkHeight links) + 1
  | .tower members => memberHeight members + 1
  | .call _ argument => argument.height + 1

def linkHeight : List (Op × Expr) → Nat
  | [] => 0
  | (_, e) :: links => max e.height (linkHeight links)

def memberHeight : List Expr → Nat
  | [] => 0
  | e :: rest => max e.height (memberHeight rest)

end

theorem linkHeight_append (links : List (Op × Expr)) (op : Op) (e : Expr) :
    linkHeight (links ++ [(op, e)]) = max (linkHeight links) e.height := by
  induction links with
  | nil => simp [linkHeight]
  | cons link links ih => simp [linkHeight, ih, Nat.max_assoc]

theorem height_le_linkHeight {links : List (Op × Expr)} {op : Op} {e : Expr} (h : (op, e) ∈ links) :
    e.height ≤ linkHeight links := by
  induction links with
  | nil => cases h
  | cons link links ih =>
      rcases List.mem_cons.mp h with rfl | h
      · exact Nat.le_max_left ..
      · exact Nat.le_trans (ih h) (Nat.le_max_right ..)

theorem height_le_memberHeight {members : List Expr} {e : Expr} (h : e ∈ members) :
    e.height ≤ memberHeight members := by
  induction members with
  | nil => cases h
  | cons member members ih =>
      rcases List.mem_cons.mp h with rfl | h
      · exact Nat.le_max_left ..
      · exact Nat.le_trans (ih h) (Nat.le_max_right ..)

/-! ## Parts -/

/-- The second expression is the first one, or one of those that are valued for it. -/
inductive Part : Expr → Expr → Prop
  | whole (e : Expr) : Part e e
  | negation {e part : Expr} : Part e part → Part (.negation e) part
  | head {head part : Expr} {links : List (Op × Expr)} : Part head part → Part (.chain head links) part
  | link {head e part : Expr} {links : List (Op × Expr)} {op : Op} : (op, e) ∈ links → Part e part →
      Part (.chain head links) part
  | member {members : List Expr} {e part : Expr} : e ∈ members → Part e part → Part (.tower members) part
  | argument {f : NamedFunction} {e part : Expr} : Part e part → Part (.call f e) part

theorem Part.height_le {e part : Expr} (h : Part e part) : part.height ≤ e.height := by
  induction h with
  | whole => exact Nat.le_refl _
  | negation _ ih | argument _ ih => exact Nat.le_succ_of_le ih
  | head _ ih => exact Nat.le_succ_of_le (Nat.le_trans ih (Nat.le_max_left ..))
  | link hm _ ih =>
      exact Nat.le_succ_of_le
        (Nat.le_trans ih (Nat.le_trans (height_le_linkHeight hm) (Nat.le_max_right ..)))
  | member hm _ ih => exact Nat.le_succ_of_le (Nat.le_trans ih (height_le_memberHeight hm))

/-! ## Values within a number of levels -/

/-- The value of an expression when no part is valued more than `n` levels below it; `limit` is reported
for a part that is. -/
def valueWithin (limit : Fault) : (n : Nat) → Expr → Except Fault Float
  | 0, _ => .error limit
  | _ + 1, .number x => defined x
  | _ + 1, .constant c => defined c.value
  | n + 1, .negation e => do defined (-(← valueWithin limit n e))
  | n + 1, .chain head links => do
    links.foldlM (fun x link => do defined (← link.1.apply x (← valueWithin limit n link.2)))
      (← valueWithin limit n head)
  | n + 1, .tower members => do raiseAll (← members.mapM (valueWithin limit n))
  | n + 1, .call f argument => do f.apply (← valueWithin limit n argument)

section

variable {valued : Expr → Except Fault Float}

theorem foldlM_eq_chainValue {links : List (Op × Expr)}
    (h : ∀ link ∈ links, valued link.2 = link.2.value) (x : Float) :
    links.foldlM (fun x link => do defined (← link.1.apply x (← valued link.2))) x =
      chainValue x links := by
  induction links generalizing x with
  | nil => rfl
  | cons link links ih =>
      obtain ⟨op, e⟩ := link
      have he : valued e = e.value := h (op, e) (by simp)
      simp only [List.foldlM_cons, chainValue, he, ih fun link hm => h link (by simp [hm]), bind_assoc]

theorem mapM_eq_values {members : List Expr} (h : ∀ e ∈ members, valued e = e.value) :
    members.mapM valued = values members := by
  induction members with
  | nil => rfl
  | cons e members ih =>
      simp only [List.mapM_cons, values, h e (by simp), ih fun e hm => h e (by simp [hm])]

end

/-- As many levels as the expression is high are enough. -/
theorem valueWithin_eq_value (limit : Fault) {n : Nat} {e : Expr} (h : e.height ≤ n) :
    valueWithin limit n e = e.value := by
  induction n generalizing e with
  | zero => cases e <;> simp [height] at h
  | succ n ih =>
      cases e with
      | number x | constant c => simp only [valueWithin, value]
      | negation e => simp only [valueWithin, value, ih (Nat.le_of_succ_le_succ h)]
      | call f argument => simp only [valueWithin, value, ih (e := argument) (Nat.le_of_succ_le_succ h)]
      | chain head links =>
          obtain ⟨hhead, hlinks⟩ := Nat.max_le.mp (Nat.le_of_succ_le_succ h)
          have hl : ∀ link ∈ links, valueWithin limit n link.2 = link.2.value := fun link hm =>
            ih (Nat.le_trans (@height_le_linkHeight _ link.1 _ hm) hlinks)
          simp only [valueWithin, value, ih hhead, foldlM_eq_chainValue hl]
      | tower members =>
          have hm : ∀ e ∈ members, valueWithin limit n e = e.value := fun e hm =>
            ih (Nat.le_trans (height_le_memberHeight hm) (Nat.le_of_succ_le_succ h))
          simp only [valueWithin, value, mapM_eq_values hm]

/-! ## Recorded heights -/

namespace Built

/-- The height that is recorded is the height of the expression. -/
def IsMeasured (x : Built) : Prop := x.height = x.expr.height

theorem call_isMeasured {f : NamedFunction} {x : Built} (h : x.IsMeasured) : (x.call f).IsMeasured :=
  congrArg (· + 1) h

theorem negate_isMeasured {x : Built} (h : x.IsMeasured) : x.negate.IsMeasured := by
  obtain ⟨e, n⟩ := x
  obtain rfl : n = e.height := h
  cases e <;> rfl

theorem raise_isMeasured {a b : Built} (ha : a.IsMeasured) (hb : b.IsMeasured) :
    (a.raise b).IsMeasured := by
  obtain ⟨d, m⟩ := a
  obtain ⟨e, n⟩ := b
  obtain rfl : m = d.height := ha
  obtain rfl : n = e.height := hb
  cases e with
  | tower members =>
      simp only [IsMeasured, raise, Expr.height, memberHeight]
      omega
  | _ => simp [IsMeasured, raise, Expr.height, memberHeight]

theorem link_isMeasured {op : Op} {a b : Built} (ha : a.IsMeasured) (hb : b.IsMeasured) :
    (a.link op b).IsMeasured := by
  obtain ⟨d, m⟩ := a
  obtain ⟨e, n⟩ := b
  obtain rfl : m = d.height := ha
  obtain rfl : n = e.height := hb
  cases d with
  | chain head links =>
      simp only [IsMeasured, link, Expr.height, linkHeight_append]
      omega
  | _ => simp [IsMeasured, link, Expr.height, linkHeight]

end Built

theorem Pushes.isMeasured {t : Token} {stack stack' : List Built} (h : Pushes t stack stack')
    (hs : ∀ x ∈ stack, x.IsMeasured) : ∀ x ∈ stack', x.IsMeasured := by
  cases h with
  | number _ _ | constant _ _ => simpa [Built.IsMeasured, Built.leaf, height] using hs
  | call f x stack =>
      simp only [List.forall_mem_cons] at hs ⊢
      exact ⟨Built.call_isMeasured hs.1, hs.2⟩
  | negation x stack =>
      simp only [List.forall_mem_cons] at hs ⊢
      exact ⟨Built.negate_isMeasured hs.1, hs.2⟩
  | power a b stack =>
      simp only [List.forall_mem_cons] at hs ⊢
      exact ⟨Built.raise_isMeasured hs.2.1 hs.1, hs.2.2⟩
  | op o a b stack =>
      simp only [List.forall_mem_cons] at hs ⊢
      exact ⟨Built.link_isMeasured hs.2.1 hs.1, hs.2.2⟩

theorem Pushes.under_subset {t : Token} {stack under : List Built} {x : Built}
    (h : Pushes t stack (x :: under)) :
    under ⊆ stack := by
  cases h <;> simp

/-- What a stack holds while an expression is built: measured expressions that are not too high. -/
def IsBounded (stack : List Built) : Prop := ∀ x ∈ stack, x.IsMeasured ∧ x.expr.height ≤ maxHeight

namespace IsBounded

theorem nil : IsBounded [] := by simp [IsBounded]

variable {t : Token} {order : List Token} {stack stack' : List Built}

theorem measured_head {x : Built} {under : List Built} (hs : IsBounded stack)
    (h : Pushes t stack (x :: under)) :
    x.height = x.expr.height :=
  h.isMeasured (fun y hy => (hs y hy).1) x (by simp)

theorem push (hs : IsBounded stack) (h : Expr.push stack t = .ok stack') : IsBounded stack' := by
  have hp := pushes_of_push h
  obtain ⟨x, under, rfl⟩ : ∃ x under, stack' = x :: under := by cases hp <;> exact ⟨_, _, rfl⟩
  have hx := hs.measured_head hp
  rw [hp.push_eq] at h
  have hle := (pushBuilt_eq_ok_iff.mp h).1
  rintro y (_ | ⟨_, hy⟩)
  · exact ⟨hx, hx ▸ hle⟩
  · exact hs y (hp.under_subset hy)

theorem pushAll (hs : IsBounded stack) (h : Expr.pushAll stack order = .ok stack') :
    IsBounded stack' := by
  induction order generalizing stack with
  | nil =>
      obtain rfl := Except.ok.inj h
      exact hs
  | cons t order ih =>
      obtain ⟨stack₁, h₁, h⟩ := bind_eq_ok_iff.mp h
      exact ih (hs.push h₁) h

/-- A token is refused as too deep just if what it would push is truly higher than the bound. -/
theorem push_eq_tooDeep_iff (hs : IsBounded stack) :
    Expr.push stack t = .error .tooDeep ↔
    ∃ x under, Pushes t stack (x :: under) ∧ maxHeight < x.expr.height := by
  constructor
  · intro h
    rcases pushes_or_fails stack t with ⟨x, under, hp⟩ | ⟨fault, he, hne⟩
    · rw [hp.push_eq, pushBuilt_eq_error_iff, hs.measured_head hp] at h
      exact ⟨x, under, hp, h⟩
    · rw [he] at h
      exact absurd (Except.error.inj h) hne
  · rintro ⟨x, under, hp, hx⟩
    rwa [hp.push_eq, pushBuilt_eq_error_iff, hs.measured_head hp]

end IsBounded

/-- After each token that was read, every expression on the stack has its true height beside it, and it
is within the bound; the next token is refused as too deep just if what it would push is truly higher. No
part of the expression that results is higher than the bound, and it is valued within as many levels. -/
theorem recorded_heights (order : List Token) :
    (∀ read rest stack, order = read ++ rest → pushAll [] read = .ok stack →
      (∀ x ∈ stack, x.height = x.expr.height ∧ x.expr.height ≤ maxHeight) ∧
      ∀ t ∈ rest.head?, push stack t = .error .tooDeep ↔
        ∃ x under, Pushes t stack (x :: under) ∧ maxHeight < x.expr.height) ∧
    ∀ e, ofPostfixOrder order = .ok e → (∀ part, Part e part → part.height ≤ maxHeight) ∧
      ∀ limit, valueWithin limit maxHeight e = e.value := by
  refine ⟨fun read rest stack _ h => ?_, fun e h => ?_⟩
  · have hs := IsBounded.nil.pushAll h
    exact ⟨hs, fun t _ => hs.push_eq_tooDeep_iff⟩
  · obtain ⟨stack, hs, h⟩ := bind_eq_ok_iff.mp h
    match stack, h with
    | [x], h =>
        obtain rfl := Except.ok.inj h
        have hx := (IsBounded.nil.pushAll hs x (by simp)).2
        exact ⟨fun part hp => Nat.le_trans hp.height_le hx, fun limit => valueWithin_eq_value limit hx⟩

end DeskCalculator.Expr
