import DeskCalculator.Proofs.Checked.Evaluation
import DeskCalculator.Proofs.PostfixOrder.Reading

/-!
# The pending operators

Directly above a function waits its parenthesis, and above an operator waits only what did not release
it: one that binds tighter, a sign, or a power above a power. So the operators within one parenthesis are
in their order, and no function is among those that an operator or the end of the tokens looks at.
-/

namespace DeskCalculator.PostfixOrder

open DeskCalculator.Except Grammar

/-! ## Operators above others -/

namespace Pending

def isOperator : Pending → Bool
  | op _ | negation | power => true
  | opening | call _ => false

/-- How tightly a pending operator binds. -/
def strength : Pending → Nat
  | op o => PostfixOrder.strength o
  | negation => 3
  | power => 4
  | opening | call _ => 0

/-- The operator, when it is read, releases the pending one. -/
def releases : Pending → Pending → Bool
  | op o => goesBefore o
  | _ => fun _ => false

/-- The operator may wait above the other. -/
def Above (q p : Pending) : Prop :=
  p.strength < q.strength ∨ q = negation ∨ (q = power ∧ p = power)

/-- What may lie directly on a pending operator. -/
def Rests (q p : Pending) : Prop :=
  q = opening ∨ (isCall p = false ∧ q.releases p = false)

section

variable {p q r : Pending}

theorem strength_op_lt (o : Op) : (op o).strength < negation.strength := by
  cases o <;> decide

theorem lt_power_or_eq (p : Pending) : p.strength < power.strength ∨ p = power := by
  cases p with
  | power => exact .inr rfl
  | op o => exact .inl (Nat.lt_trans (strength_op_lt o) (by decide))
  | _ => exact .inl (by simp [strength])

theorem eq_power_of_lt (h : negation.strength < q.strength) : q = power := by
  cases q with
  | power => rfl
  | op o => exact absurd h (Nat.lt_asymm (strength_op_lt o))
  | _ => simp [strength] at h

/-- An operator may wait above just those that it does not release. -/
theorem above_iff (hq : q.isOperator = true) (hp : p.isOperator = true) :
    q.Above p ↔ q.releases p = false := by
  cases q with
  | opening | call => cases hq
  | negation => simp [Above, releases]
  | power => simpa [Above, releases] using lt_power_or_eq p
  | op o =>
      have ho := strength_op_lt o
      cases p with
      | opening | call => cases hp
      | op o' => simp [Above, releases, goesBefore, strength]
      | negation => simp [Above, releases, goesBefore, Nat.lt_asymm ho]
      | power =>
          simp [Above, releases, goesBefore,
            Nat.lt_asymm (Nat.lt_trans ho (by decide : _ < power.strength))]

theorem Above.trans (hqr : q.Above r) (hrp : r.Above p) : q.Above p := by
  rcases hqr with hqr | rfl | ⟨rfl, rfl⟩
  · rcases hrp with hrp | rfl | ⟨rfl, rfl⟩
    · exact .inl (Nat.lt_trans hrp hqr)
    · obtain rfl := eq_power_of_lt hqr
      exact (lt_power_or_eq p).imp_right fun hp => .inr ⟨rfl, hp⟩
    · obtain rfl := eq_power_of_lt (Nat.lt_trans (by decide) hqr)
      exact absurd hqr (Nat.lt_irrefl _)
  · exact .inr (.inl rfl)
  · exact (lt_power_or_eq p).imp_right fun hp => .inr ⟨rfl, hp⟩

/-- Within one parenthesis each operator waits above all that came before it. -/
theorem above_of_isChain {between older : List Pending}
    (h : (q :: (between ++ p :: older)).IsChain Rests) (hb : opening ∉ between)
    (hq : q.isOperator = true) (hp : p.isOperator = true) : q.Above p := by
  induction between generalizing q with
  | nil =>
      rcases (List.isChain_cons.mp h).1 p rfl with rfl | ⟨-, hr⟩
      · cases hq
      · exact (above_iff hq hp).mpr hr
  | cons r between ih =>
      obtain ⟨hhead, htail⟩ := List.isChain_cons.mp h
      simp only [List.mem_cons, not_or] at hb
      rcases hhead r rfl with rfl | ⟨hc, hr⟩
      · cases hq
      · have hro : r.isOperator = true := by
          cases r with
          | opening => exact absurd rfl hb.1
          | call => cases hc
          | _ => rfl
        exact ((above_iff hq hro).mpr hr).trans (ih htail hb.2 hro)

end

end Pending

/-! ## What is looked at -/

/-- The pending operators that are looked at while those that fulfil `before` are released: these and the
next one. -/
def lookedAt (before : Pending → Bool) (pending : List Pending) : List Pending :=
  pending.takeWhile before ++ (pending.dropWhile before).head?.toList

/-- Behind an operator that is released waits no function, as only a parenthesis lies on one. -/
theorem not_call_of_lookedAt {before : Pending → Bool} {pending : List Pending}
    (hb : before .opening = false) (h : pending.IsChain Pending.Rests)
    (ht : ∀ p ∈ pending.head?, isCall p = false) :
    ∀ p ∈ lookedAt before pending, isCall p = false := by
  induction pending with
  | nil => simp [lookedAt]
  | cons q pending ih =>
      have hq : isCall q = false := ht q rfl
      obtain ⟨hhead, htail⟩ := List.isChain_cons.mp h
      cases hbq : before q with
      | false => simpa [lookedAt, hbq] using hq
      | true =>
          have hne : q ≠ .opening := by
            rintro rfl
            simp [hb] at hbq
          have hl : lookedAt before (q :: pending) = q :: lookedAt before pending := by
            simp [lookedAt, hbq]
          rw [hl]
          refine List.forall_mem_cons.mpr ⟨hq, ih htail fun p hp => ?_⟩
          rcases hhead p hp with rfl | ⟨hc, -⟩
          · exact absurd rfl hne
          · exact hc

namespace State

/-! ## One token -/

/-- Each pending operator lies on one on which it may, and on a function that waits for its parenthesis
nothing lies. -/
structure Layered (s : State) (next : Option Token) : Prop where
  chain : s.pending.IsChain Pending.Rests
  top : ∀ p ∈ s.pending.head?, isCall p = true → s.afterValue = false ∧ next = some .opening

section

variable {s s' : State} {next : Option Token}

theorem Layered.of_head (hc : s.pending.IsChain Pending.Rests)
    (ht : ∀ p ∈ s.pending.head?, isCall p = false) :
    s.Layered next where
  chain := hc
  top p hp hcall := by simp [ht p hp] at hcall

theorem Layered.head (h : s.Layered next) (hn : s.afterValue = true ∨ next ≠ some .opening) :
    ∀ p ∈ s.pending.head?, isCall p = false := by
  intro p hp
  cases hc : isCall p with
  | false => rfl
  | true =>
      obtain ⟨hv, ho⟩ := h.top p hp hc
      rcases hn with hn | hn
      · simp [hv] at hn
      · exact absurd ho hn

theorem Layered.value {t : Token} (hc : s.pending.IsChain Pending.Rests)
    (ht : ∀ p ∈ s.pending.head?, isCall p = false) (hs : s.value t = .ok s') : s'.Layered next := by
  unfold State.value at hs
  split at hs
  · cases hs
  · obtain rfl := Except.ok.inj hs
    exact .of_head hc ht

theorem Layered.name {n : String} (h : s.Layered (some (.name n))) (hs : s.name n next = .ok s') :
    s'.Layered next := by
  have ht := h.head (.inr (by simp))
  unfold State.name at hs
  split at hs
  · cases hs
  split at hs
  · rename_i hv _ f _
    split at hs
    · rename_i hn
      obtain rfl := Except.ok.inj hs
      refine ⟨List.isChain_cons.mpr ⟨fun p hp => .inr ⟨ht p hp, rfl⟩, h.chain⟩, fun _ _ _ => ⟨?_, hn⟩⟩
      simpa using hv
    · cases hs
  · split at hs
    · exact .value h.chain ht hs
    · cases hs

theorem Layered.openParenthesis (h : s.Layered (some .opening)) (hs : s.openParenthesis = .ok s') :
    s'.Layered next := by
  unfold State.openParenthesis at hs
  split at hs
  · cases hs
  split at hs
  · cases hs
  · obtain rfl := Except.ok.inj hs
    refine .of_head (List.isChain_cons.mpr ⟨fun p _ => .inl rfl, h.chain⟩) ?_
    simp [isCall]

/-- When the call is complete, no function is the nearest, as none lies on another. -/
theorem Layered.completeCall (hc : s.pending.IsChain Pending.Rests) : s.completeCall.Layered next := by
  unfold State.completeCall
  split
  · rename_i f rest hp
    rw [hp, List.isChain_cons] at hc
    refine .of_head hc.2 fun p hp => ?_
    rcases hc.1 p hp with hf | ⟨hf, -⟩
    · cases hf
    · exact hf
  · rename_i hp
    refine .of_head hc fun p hhead => ?_
    cases p with
    | call f =>
        obtain ⟨rest, hrest⟩ := List.head?_eq_some_iff.mp hhead
        exact absurd hrest (hp f rest)
    | _ => rfl

theorem Layered.closeParenthesis (h : s.Layered (some .closing)) (hs : s.closeParenthesis = .ok s') :
    s'.Layered next := by
  unfold State.closeParenthesis at hs
  split at hs
  · cases hs
  dsimp only at hs
  split at hs
  · cases hs
  · rename_i p rest hp
    obtain rfl := Except.ok.inj hs
    have hr : (p :: rest).IsChain Pending.Rests := hp ▸ h.chain.suffix (List.dropWhile_suffix _)
    exact .completeCall hr.tail

theorem Layered.binary {t : Token} {q : Pending} {symbol : String} (h : s.Layered (some t))
    (ht : t ≠ .opening) (hq : q.isOperator = true) (hs : s.binary q symbol q.releases = .ok s') :
    s'.Layered next := by
  have hb : q.releases .opening = false := by cases q <;> rfl
  have hlook := not_call_of_lookedAt hb h.chain (h.head (.inr (by simpa using ht)))
  unfold State.binary at hs
  split at hs
  · cases hs
  · obtain rfl := Except.ok.inj hs
    refine .of_head
      (List.isChain_cons.mpr ⟨fun p hp => .inr ⟨?_, ?_⟩, h.chain.suffix (List.dropWhile_suffix _)⟩) ?_
    · exact hlook p (List.mem_append_right _ (Option.mem_toList.mpr hp))
    · have hnot := List.head?_dropWhile_not q.releases s.pending
      rw [show (s.pending.dropWhile q.releases).head? = some p from hp] at hnot
      exact hnot
    · rintro p ⟨⟩
      cases q <;> first | rfl | cases hq

theorem Layered.step {t : Token} (h : s.Layered (some t)) (hs : s.step t next = .ok s') :
    s'.Layered next := by
  cases t with
  | number x => exact .value h.chain (h.head (.inr (by simp))) hs
  | name n => exact h.name hs
  | opening => exact h.openParenthesis hs
  | closing => exact h.closeParenthesis hs
  | power => exact h.binary (q := .power) (by simp) rfl hs
  | negation => cases hs
  | op o =>
      have ht := h.head (.inr (by simp))
      simp only [State.step] at hs
      split at hs
      · obtain rfl := Except.ok.inj hs
        exact .of_head h.chain ht
      · obtain rfl := Except.ok.inj hs
        refine .of_head (List.isChain_cons.mpr ⟨fun p hp => .inr ⟨ht p hp, rfl⟩, h.chain⟩) ?_
        simp [isCall]
      · exact h.binary (by simp) rfl hs

end

/-! ## Many tokens -/

/-- Reads the tokens `done`, which `rest` follows. -/
def runBefore (rest : List Token) : State → List Token → Except GrammarFault State
  | s, [] => .ok s
  | s, t :: done => do runBefore rest (← s.step t (done ++ rest).head?) done

theorem run_append (s : State) (done rest : List Token) :
    s.run (done ++ rest) = (do (← s.runBefore rest done).run rest) := by
  induction done generalizing s with
  | nil => rfl
  | cons t done ih =>
      rw [List.cons_append, State.run, runBefore]
      cases s.step t (done ++ rest).head? with
      | error g => rfl
      | ok s' => exact ih s'

theorem Layered.runBefore {s s' : State} {done rest : List Token} (h : s.Layered (done ++ rest).head?)
    (hs : s.runBefore rest done = .ok s') : s'.Layered rest.head? := by
  induction done generalizing s with
  | nil =>
      obtain rfl := Except.ok.inj hs
      exact h
  | cons t done ih =>
      obtain ⟨s₁, h₁, hs⟩ := bind_eq_ok_iff.mp hs
      exact ih (h.step h₁) hs

theorem counted_runBefore {s s' : State} {done rest : List Token} (h : Checked.Counted s)
    (hs : s.runBefore rest done = .ok s') : Checked.Counted s' := by
  induction done generalizing s with
  | nil =>
      obtain rfl := Except.ok.inj hs
      exact h
  | cons t done ih =>
      obtain ⟨s₁, h₁, hs⟩ := bind_eq_ok_iff.mp hs
      exact ih (h.step h₁) hs

/-! ## Every state of a run -/

/-- What holds of the pending operators when `rest` is still to be read. -/
structure InOrder (s : State) (rest : List Token) : Prop where
  depth : s.depth = s.pending.count .opening
  call : ∀ (newer : List Pending) (f : NamedFunction) (older : List Pending),
    s.pending = newer ++ .call f :: older →
      newer.getLast? = some .opening ∨ (newer = [] ∧ rest.head? = some .opening)
  /-- Within one parenthesis no operator waits below another that was to release it. -/
  operators : ∀ (newer : List Pending) (q : Pending) (between : List Pending) (p : Pending)
    (older : List Pending), s.pending = newer ++ q :: (between ++ p :: older) → .opening ∉ between →
    q.isOperator = true → p.isOperator = true → q.Above p ∧ q.releases p = false
  /-- An operator that is read behind a value looks at no function. -/
  looked : s.afterValue = true → ∀ q : Pending, q.isOperator = true →
    ∀ p ∈ lookedAt q.releases s.pending, isCall p = false
  /-- The end of the tokens releases no function, up to the parenthesis where it stops. -/
  released : rest = [] → ∀ p ∈ s.pending.takeWhile (· != .opening), isCall p = false

theorem Layered.inOrder {s : State} {rest : List Token} (h : s.Layered rest.head?)
    (hc : Checked.Counted s) :
    s.InOrder rest where
  depth := hc
  call newer f older hp := by
    cases hl : newer.getLast? with
    | none =>
        obtain rfl := List.getLast?_eq_none_iff.mp hl
        exact .inr ⟨rfl, (h.top (.call f) (by simp [hp]) rfl).2⟩
    | some q =>
        have hchain := h.chain
        rw [hp, List.isChain_append] at hchain
        rcases hchain.2.2 q hl (.call f) rfl with rfl | ⟨hf, -⟩
        · exact .inl rfl
        · cases hf
  operators newer q between p older hp hb hq hpo := by
    have hchain : (q :: (between ++ p :: older)).IsChain Pending.Rests := (hp ▸ h.chain).right_of_append
    have habove := Pending.above_of_isChain hchain hb hq hpo
    exact ⟨habove, (Pending.above_iff hq hpo).mp habove⟩
  looked hv q hq := not_call_of_lookedAt (by cases q <;> rfl) h.chain (h.head (.inl hv))
  released hr p hp := by
    have ht := h.head (.inr (by simp [hr]))
    exact @not_call_of_lookedAt (· != .opening) _ rfl h.chain ht p (List.mem_append_left _ hp)

/-- After each token that is read, the pending operators are in their order. -/
theorem inOrder_of_runBefore {done rest : List Token} {s : State}
    (h : initial.runBefore rest done = .ok s) :
    s.InOrder rest ∧ initial.run (done ++ rest) = s.run rest := by
  have hl : initial.Layered (done ++ rest).head? := .of_head List.isChain_nil (by simp [initial])
  refine ⟨(hl.runBefore h).inOrder (counted_runBefore (s := initial) rfl h), ?_⟩
  rw [run_append, h]
  rfl

/-- In `2 + -2 ** -(3 * math.sin(4 / 5 ** 6))`, before the parentheses close. -/
theorem inOrder_within_two_parentheses : ∃ s : State, s.InOrder [.closing, .closing] ∧
    initial.runBefore [.closing, .closing]
      [.number 2, .op .add, .op .sub, .number 2, .power, .op .sub, .opening, .number 3, .op .mul,
        .name "math.sin", .opening, .number 4, .op .div, .number 5, .power, .number 6] = .ok s ∧
    s.pending = [.power, .op .div, .opening, .call .sin, .op .mul, .opening, .negation, .power,
      .negation, .op .add] := by
  have h : initial.runBefore [.closing, .closing]
      [.number 2, .op .add, .op .sub, .number 2, .power, .op .sub, .opening, .number 3, .op .mul,
        .name "math.sin", .opening, .number 4, .op .div, .number 5, .power, .number 6] =
      .ok ⟨[.number 6, .number 5, .number 4, .number 3, .number 2, .number 2],
        [.power, .op .div, .opening, .call .sin, .op .mul, .opening, .negation, .power, .negation,
          .op .add], true, 2⟩ := by
    rfl
  exact ⟨_, (inOrder_of_runBefore h).1, h, rfl⟩

end State

end DeskCalculator.PostfixOrder
