import DeskCalculator.Proofs.PostfixOrder.Reading

/-!
# What was read so far

The pending operators and the output always show how the tokens that were read begin a sentence:
which phrases are complete, and which phrase is wanted next. So what is put in order to its end is a
sentence.
-/

namespace DeskCalculator.Grammar

open DeskCalculator.Except PostfixOrder PostfixOrder.State

/-! ## The phrase that is wanted -/

/-- After the tokens a phrase of the category is wanted, with these pending operators and this output. -/
inductive Wanted : Category → List Token → List Pending → List Token → Prop
  | start : Wanted (.chain .sum) [] [] []
  | opened {us K out} :
      Wanted .atom us K out → Wanted (.chain .sum) (us ++ [.opening]) (.opening :: K) out
  | called {f : NamedFunction} {us K out} : Wanted .atom us K out →
      Wanted (.chain .sum) (us ++ [.name f.name, .opening]) (.opening :: .call f :: K) out
  | first {l us K out} : Wanted (.chain l) us K out → Wanted l.operand us K out
  | joined {l o us K out vs a} :
      Level.ofOp o = l → Wanted (.chain l) us K out → Derives (.chain l) vs a →
      Wanted l.operand (us ++ vs ++ [.op o]) (.op o :: K) (a.postorder.reverse ++ out)
  | plus {us K out} : Wanted .signed us K out → Wanted .signed (us ++ [.op .add]) K out
  | minus {us K out} : Wanted .signed us K out → Wanted .signed (us ++ [.op .sub]) (.negation :: K) out
  | unsigned {us K out} : Wanted .signed us K out → Wanted .power us K out
  | base {us K out} : Wanted .power us K out → Wanted .atom us K out
  | raised {us K out vs a} : Wanted .power us K out → Derives .atom vs a →
      Wanted .signed (us ++ vs ++ [.power]) (.power :: K) (a.postorder.reverse ++ out)

namespace Wanted

variable {us : List Token} {K : List Pending} {out : List Token}

theorem signed {l : Level} (h : Wanted (.chain l) us K out) : Wanted .signed us K out := by
  cases l with
  | sum => exact h.first.first
  | product => exact h.first

theorem operand_signed {l : Level} (h : Wanted l.operand us K out) : Wanted .signed us K out := by
  cases l with
  | sum => exact h.signed
  | product => exact h

theorem atom (h : Wanted .signed us K out) : Wanted .atom us K out :=
  h.unsigned.base

theorem power_of_atom (h : Wanted .atom us K out) : Wanted .power us K out := by
  generalize hc : Category.atom = c at h
  cases h with
  | base h => exact h
  | @first l => cases l <;> cases hc
  | @joined l => cases l <;> cases hc
  | _ => cases hc

theorem sum_cases (h : Wanted (.chain .sum) us K out) :
    (us = [] ∧ K = [] ∧ out = []) ∨
      (∃ us' K', Wanted .atom us' K' out ∧ us = us' ++ [.opening] ∧ K = .opening :: K') ∨
      (∃ f us' K', Wanted .atom us' K' out ∧ us = us' ++ [.name (NamedFunction.name f), .opening] ∧
        K = .opening :: .call f :: K') := by
  generalize hc : Category.chain .sum = c at h
  cases h with
  | start => exact .inl ⟨rfl, rfl, rfl⟩
  | opened h => exact .inr (.inl ⟨_, _, h, rfl, rfl⟩)
  | called h => exact .inr (.inr ⟨_, _, _, h, rfl, rfl⟩)
  | @first l => cases l <;> cases hc
  | @joined l => cases l <;> cases hc
  | _ => cases hc

theorem not_released {l : Level} (h : Wanted (.chain l) us K out) :
    ∀ p ∈ K.head?, l.releases p = false := by
  have hs : ∀ {us K out}, Wanted (.chain .sum) us K out → ∀ l : Level,
      ∀ p ∈ K.head?, l.releases p = false := by
    intro us K out h l p hp
    rcases h.sum_cases with ⟨-, rfl, -⟩ | ⟨_, _, -, -, rfl⟩ | ⟨_, _, _, -, -, rfl⟩
    · simp at hp
    · obtain rfl : Pending.opening = p := by simpa using hp
      cases l <;> rfl
    · obtain rfl : Pending.opening = p := by simpa using hp
      cases l <;> rfl
  cases l with
  | sum => exact hs h _
  | product =>
      generalize hc : Category.chain .product = c at h
      cases h with
      | @first l _ _ _ h =>
          cases l with
          | sum => exact hs h _
          | product => cases hc
      | @joined l o =>
          cases l with
          | sum =>
              intro p hp
              obtain rfl : Pending.op o = p := by simpa using hp
              rename_i ho _ _
              cases o <;> first | rfl | cases ho
          | product => cases hc
      | _ => cases hc

theorem not_call {c : Category} (h : Wanted c us K out) : ∀ p ∈ K.head?, isCall p = false := by
  induction h with
  | start => simp
  | first _ ih | plus _ ih | unsigned _ ih | base _ ih => exact ih
  | _ =>
      intro p hp
      obtain rfl : _ = p := Option.some.inj hp
      rfl

end Wanted

/-! ## The chain around a phrase -/

/-- The tokens end with a chain of the level, which is complete once the nearest operators are released. -/
def Level.Complete (l : Level) (ts : List Token) (K : List Pending) (out : List Token) : Prop :=
  ∃ us K' out' vs a newer, Wanted (.chain l) us K' out' ∧ Derives (.chain l) vs a ∧ ts = us ++ vs ∧
    K = newer ++ K' ∧ (∀ p ∈ newer, l.releases p = true) ∧
    (newer.map Pending.token).reverse ++ out = a.postorder.reverse ++ out'

theorem Level.Complete.push {l : Level} {ts : List Token} {K : List Pending} {out : List Token}
    {p : Pending} (h : l.Complete ts K (p.token :: out)) (hp : l.releases p = true) :
    l.Complete ts (p :: K) out := by
  obtain ⟨us, K', out', vs, a, newer, hw, ha, ht, hK, hn, ho⟩ := h
  refine ⟨us, K', out', vs, a, p :: newer, hw, ha, ht, by simp [hK], ?_, by simpa using ho⟩
  intro q hq
  rcases List.mem_cons.mp hq with rfl | hq
  · exact hp
  · exact hn q hq

/-- The category is part of a chain of the level. -/
def Category.Within (l : Level) : Category → Prop
  | .chain .sum => l = .sum
  | .rest .. => False
  | _ => True

theorem Category.Within.of_operand {l l' : Level} (h : l'.operand.Within l)
    (hc : l'.operand ≠ .chain l) :
    (Category.chain l').Within l := by
  cases l' with
  | product => trivial
  | sum =>
      cases l with
      | sum => rfl
      | product => exact absurd rfl hc

theorem Level.releases_op {l l' : Level} {o : Op} (ho : Level.ofOp o = l')
    (h : (Category.chain l').Within l) :
    l.releases (.op o) = true := by
  subst ho
  cases o <;> cases l <;> first | rfl | cases h

theorem Wanted.complete_here {l : Level} {us vs : List Token} {K : List Pending} {out : List Token}
    {a : ParseTree} (h : Wanted (.chain l) us K out) (hv : Derives (.chain l) vs a) :
    l.Complete (us ++ vs) K (a.postorder.reverse ++ out) :=
  ⟨us, K, out, vs, a, [], h, hv, rfl, rfl, by simp, rfl⟩

/-- A phrase that was wanted completes the chain around it. -/
theorem Wanted.complete {c : Category} {l : Level} {us vs : List Token} {K : List Pending}
    {out : List Token} {a : ParseTree} (h : Wanted c us K out) (hv : Derives c vs a) (hc : c.Within l) :
    l.Complete (us ++ vs) K (a.postorder.reverse ++ out) := by
  induction h generalizing vs a with
  | start =>
      obtain rfl : l = .sum := hc
      exact Wanted.start.complete_here hv
  | opened hw =>
      obtain rfl : l = .sum := hc
      exact hw.opened.complete_here hv
  | called hw =>
      obtain rfl : l = .sum := hc
      exact hw.called.complete_here hv
  | @first l' _ _ _ hw ih =>
      by_cases hl : l'.operand = .chain l
      · exact (hl ▸ hw.first : Wanted (.chain l) _ _ _).complete_here (hl ▸ hv)
      · exact ih hv.of_operand (hc.of_operand hl)
  | @joined l' o us K out vs' b ho hw hb ih =>
      by_cases hl : l'.operand = .chain l
      · exact (hl ▸ hw.joined ho hb : Wanted (.chain l) _ _ _).complete_here (hl ▸ hv)
      · have hc := hc.of_operand hl
        have := ih (hb.snoc ho hv) hc
        exact .push (by simpa [ParseTree.postorder, Pending.token] using this) (Level.releases_op ho hc)
  | plus _ ih =>
      have := ih hv.plus hc
      simpa [ParseTree.postorder] using this
  | minus _ ih =>
      have := ih hv.minus hc
      exact .push (by simpa [ParseTree.postorder, Pending.token] using this) (by cases l <;> rfl)
  | unsigned _ ih => exact ih hv.unsigned trivial
  | base _ ih => exact ih hv.bare trivial
  | raised _ hb ih =>
      have := ih (hb.raised hv) trivial
      exact .push (by simpa [ParseTree.postorder, Pending.token] using this) (by cases l <;> rfl)

/-! ## One token -/

/-- The tokens `ts` lead to the state, and `rest` follows them. -/
inductive Progress : (ts : List Token) → State → (rest : List Token) → Prop
  | wanted {ts K out d rest} : Wanted .signed ts K out → Progress ts ⟨out, K, false, d⟩ rest
  | value {us K out vs a d rest} : Wanted .atom us K out → Derives .atom vs a →
      Progress (us ++ vs) ⟨a.postorder.reverse ++ out, K, true, d⟩ rest
  | named {us K out d} {f : NamedFunction} {rest} : Wanted .atom us K out → rest.head? = some .opening →
      Progress (us ++ [.name f.name]) ⟨out, .call f :: K, false, d⟩ rest

namespace Progress

variable {ts rest : List Token} {t : Token} {s s' : State} {us K out d}

theorem step_wanted (h : Wanted .signed ts K out) (hs : step ⟨out, K, false, d⟩ t rest.head? = .ok s') :
    Progress (ts ++ [t]) s' rest := by
  cases t with
  | number x =>
      obtain rfl := Except.ok.inj hs
      exact .value h.atom (.number x)
  | name n =>
      simp only [step, State.name, Bool.false_eq_true, if_false] at hs
      cases hf : NamedFunction.ofName? n with
      | some f =>
          obtain rfl := NamedFunction.ofName?_eq_some_iff.mp hf
          simp only [hf] at hs
          split at hs
          · rename_i hn
            obtain rfl := Except.ok.inj hs
            exact .named h.atom hn
          · cases hs
      | none =>
          simp only [hf] at hs
          split at hs
          · rename_i hc
            obtain ⟨c, hc⟩ := Option.isSome_iff_exists.mp hc
            obtain rfl := Constant.ofName?_eq_some_iff.mp hc
            obtain rfl := Except.ok.inj hs
            exact .value h.atom (.constant c)
          · cases hs
  | opening =>
      simp only [step, openParenthesis, Bool.false_eq_true, if_false] at hs
      split at hs
      · cases hs
      · obtain rfl := Except.ok.inj hs
        exact .wanted h.atom.opened.signed
  | op o =>
      cases o with
      | add =>
          obtain rfl := Except.ok.inj hs
          exact .wanted h.plus
      | sub =>
          obtain rfl := Except.ok.inj hs
          exact .wanted h.minus
      | mul | div => cases hs
  | closing | power | negation => cases hs

theorem step_named {f : NamedFunction} (h : Wanted .atom us K out)
    (hs : step ⟨out, .call f :: K, false, d⟩ .opening rest.head? = .ok s') :
    Progress (us ++ [.name f.name] ++ [.opening]) s' rest := by
  simp only [step, openParenthesis, Bool.false_eq_true, if_false] at hs
  split at hs
  · cases hs
  · obtain rfl := Except.ok.inj hs
    simpa using wanted (h.called (f := f)).signed

theorem step_closing {vs : List Token} {a : ParseTree} (h : Wanted .atom us K out)
    (ha : Derives .atom vs a) (hs : closeParenthesis ⟨a.postorder.reverse ++ out, K, true, d⟩ = .ok s') :
    Progress (us ++ vs ++ [.closing]) s' rest := by
  obtain ⟨us', K', out', vs', b, newer, hw, hb, hts, rfl, hn, ho⟩ := h.complete (l := .sum) ha trivial
  have hr :=
    release_append (s := ⟨a.postorder.reverse ++ out, newer ++ K', true, d⟩) (p := (· != .opening)) rfl
    fun q hq => ne_opening_of_releases (hn q hq)
  simp only [closeParenthesis, Bool.not_true, Bool.false_eq_true, if_false] at hs
  rw [hts]
  rcases hw.sum_cases with ⟨-, rfl, -⟩ | ⟨us'', K'', hw', rfl, rfl⟩ | ⟨f, us'', K'', hw', rfl, rfl⟩
  · simp only [hr (by simp), reduceCtorEq] at hs
  · simp only [hr (by simp), ho] at hs
    have hc : completeCall ⟨b.postorder.reverse ++ out', K'', true, d - 1⟩ = _ :=
      Category.Fits.completeCall
      fun p hp => by simp [Category.follows, hw'.not_call p hp]
    rw [hc] at hs
    obtain rfl := Except.ok.inj hs
    simpa [ParseTree.postorder] using value hw' (.group hb)
  · simp only [hr (by simp), ho, completeCall] at hs
    obtain rfl := Except.ok.inj hs
    simpa [ParseTree.postorder] using value hw' (.call hb)

theorem step_value {vs : List Token} {a : ParseTree} (h : Wanted .atom us K out)
    (ha : Derives .atom vs a)
    (hs : step ⟨a.postorder.reverse ++ out, K, true, d⟩ t rest.head? = .ok s') :
    Progress (us ++ vs ++ [t]) s' rest := by
  cases t with
  | op o =>
      obtain ⟨us', K', out', vs', b, newer, hw, hb, hts, rfl, hn, ho⟩ :=
        h.complete (l := Level.ofOp o) ha trivial
      have hr :=
        release_append (s := ⟨a.postorder.reverse ++ out, newer ++ K', true, d⟩) rfl hn hw.not_released
      have hs : binary ⟨a.postorder.reverse ++ out, newer ++ K', true, d⟩ (.op o) o.symbol
          (Pending.goesBefore o) = .ok s' := by
        cases o <;> exact hs
      simp only [binary, Bool.not_true, Bool.false_eq_true, if_false, Level.goesBefore_eq, hr, ho] at hs
      obtain rfl := Except.ok.inj hs
      rw [hts]
      exact .wanted (hw.joined rfl hb).operand_signed
  | power =>
      have hr := release_append (s := ⟨a.postorder.reverse ++ out, K, true, d⟩) (p := fun _ => false)
        (List.nil_append K).symm (by simp) (by simp)
      simp only [step, binary, Bool.not_true, Bool.false_eq_true, if_false, hr] at hs
      obtain rfl := Except.ok.inj hs
      exact .wanted (h.power_of_atom.raised ha)
  | closing => exact step_closing h ha hs
  | number | name | opening | negation => cases hs

theorem step (h : Progress ts s (t :: rest)) (hs : s.step t rest.head? = .ok s') :
    Progress (ts ++ [t]) s' rest := by
  cases h with
  | wanted h => exact step_wanted h hs
  | value h ha => exact step_value h ha hs
  | named h ht =>
      obtain rfl := Option.some.inj ht
      exact step_named h hs

/-! ## All tokens -/

theorem run (h : Progress ts s rest) (hs : s.run rest = .ok s') : Progress (ts ++ rest) s' [] := by
  induction rest generalizing ts s with
  | nil =>
      obtain rfl := Except.ok.inj hs
      simpa using h
  | cons t rest ih =>
      rw [run_cons, bind_eq_ok_iff] at hs
      obtain ⟨s₁, h₁, hs⟩ := hs
      simpa using ih (h.step h₁) hs

theorem finish {order : List Token} (h : Progress ts s []) (hs : s.finish = .ok order) :
    ∃ t, Sentence ts t ∧ order = t.postorder := by
  cases h with
  | wanted h => cases hs
  | named h ht => cases ht
  | @value us K out vs a d _ h ha =>
      obtain ⟨us', K', out', vs', b, newer, hw, hb, hts, rfl, hn, ho⟩ :=
        h.complete (l := .sum) ha trivial
      have hr := release_append (s := ⟨a.postorder.reverse ++ out, newer ++ K', true, d⟩)
        (p := fun _ => true) rfl
        (by simp)
      simp only [State.finish, Bool.not_true, Bool.false_eq_true, if_false] at hs
      rcases hw.sum_cases with ⟨rfl, rfl, rfl⟩ | ⟨us'', K'', -, rfl, rfl⟩ | ⟨f, us'', K'', -, rfl, rfl⟩
      · split at hs
        · cases hs
        · simp only [hr (by simp), ho, Except.ok.injEq] at hs
          exact ⟨b, hts ▸ hb, by simpa using hs.symm⟩
      · simp at hs
      · simp at hs

end Progress

/-! ## The language -/

theorem exists_sentence {ts order : List Token} (h : PostfixOrder.ofTokens ts = .ok order) :
    ∃ t, Sentence ts t ∧ order = t.postorder := by
  unfold PostfixOrder.ofTokens at h
  split at h
  · cases h
  · obtain ⟨s, hr, hf⟩ := bind_eq_ok_iff.mp h
    have hp : Progress [] .initial ts := .wanted Wanted.start.signed
    exact (hp.run hr).finish hf

/-- The sentences whose parentheses do not nest too deep are put in order, and nothing else is: the order
is the postorder of the only parse tree. -/
theorem ofTokens_eq_ok_iff (ts : List Token) :
    (∀ order, PostfixOrder.ofTokens ts = .ok order ↔
        ∃ t, Sentence ts t ∧ t.nesting ≤ maxDepth ∧ t.postorder = order) ∧
      (∀ t t', Sentence ts t → Sentence ts t' → t = t') ∧
      (.negation ∈ ts → ∀ t, ¬ Sentence ts t) := by
  refine ⟨fun order => ⟨fun h => ?_, ?_⟩, fun t t' h h' => h.unique h',
    fun hn t h => h.negation_not_mem hn⟩
  · obtain ⟨t, ht, rfl⟩ := exists_sentence h
    rw [ht.ofTokens] at h
    split at h
    · rename_i hn
      exact ⟨t, ht, hn, rfl⟩
    · cases h
  · rintro ⟨t, ht, hn, rfl⟩
    rw [ht.ofTokens, if_pos hn]

end DeskCalculator.Grammar
