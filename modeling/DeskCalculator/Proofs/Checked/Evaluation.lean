import DeskCalculator.Evaluation
import DeskCalculator.Proofs.Checked.Lexer
import DeskCalculator.Proofs.Checked.TrigCall
import DeskCalculator.Proofs.Expr.Normal
import DeskCalculator.Proofs.Factorial

/-!
# Evaluations that keep their range

All stages of an evaluation with their operations checked. The depth of the parentheses counts those
that wait to be closed, every expression on the stack has a height of one at least and a negation of
two, and no product has more than 170 factors. So no check ever fails, and the evaluation gives what
it gives without them.
-/

namespace DeskCalculator.Checked

open DeskCalculator.Except

/-! ## The stages -/

section

open PostfixOrder

def closeParenthesis (s : State) : Checked (Except GrammarFault State) :=
  if !s.afterValue then return .error .missingOperandBeforeClosing
  else
    let s := s.release (· != .opening)
    match s.pending with
    | [] => return .error .unmatchedClosing
    | _ :: rest => do
      let depth ← decrease 1 s.depth
      return .ok { s with pending := rest, depth := depth }.completeCall

/-- Only a closing parenthesis takes from the depth. -/
def step (s : State) (t : Token) (next : Option Token) : Checked (Except GrammarFault State) :=
  match t with
  | .closing => closeParenthesis s
  | t => return s.step t next

def run : State → List Token → Checked (Except GrammarFault State)
  | s, [] => .ok (.ok s)
  | s, t :: rest => do
    match ← step s t rest.head? with
    | .error g => return .error g
    | .ok s => run s rest

def postfixOrder (tokens : List Token) : Checked (Except GrammarFault (List Token)) :=
  if tokens.isEmpty then return .error .emptyExpression
  else do return (← run State.initial tokens) >>= State.finish

end

section

open DeskCalculator.Expr

/-- A negation that is taken away leaves an expression of height one at least. -/
def negate (x : Built) : Checked Built :=
  match x.expr with
  | .negation e => do return ⟨e, ← decrease 2 x.height⟩
  | e => return ⟨.negation e, x.height + 1⟩

/-- Only a negation takes from a height. -/
def push (stack : List Built) (t : Token) : Checked (Except GrammarFault (List Built)) :=
  match t, stack with
  | .negation, x :: rest => do return pushBuilt (← negate x) rest
  | t, stack => return Expr.push stack t

def pushAll : List Built → List Token → Checked (Except GrammarFault (List Built))
  | stack, [] => .ok (.ok stack)
  | stack, t :: rest => do
    match ← push stack t with
    | .error g => return .error g
    | .ok stack => pushAll stack rest

def ofPostfixOrder (tokens : List Token) : Checked (Except GrammarFault Expr) := do
  match ← pushAll [] tokens with
  | .error g => return .error g
  | .ok [x] => return .ok x.expr
  | .ok _ => return .error .malformedExpression

end

def parse (canonical : List Char) : Checked (Except GrammarFault Expr) := do
  match ← tokens canonical with
  | .error g => return .error g
  | .ok ts =>
    match ← postfixOrder ts with
    | .error g => return .error g
    | .ok order => ofPostfixOrder order

def evaluate (mode : AngleMode) (raw : String) : Checked (Except Fault (Option Float)) :=
  if isBlank raw then return .ok none
  else do
    match ← parse (← expandTrig mode (Canonical.beforeTrig raw.toList)) with
    | .error g => return .error (.grammar g)
    | .ok e => return do return some (← settle (← e.value))

def risingProduct : (turns count i : Nat) → (product : Float) → Checked Float
  | _, 0, _, product => .ok product
  | 0, _ + 1, _, _ => .error .turns
  | turns + 1, count + 1, i, product =>
    let next := product * Float.ofNat i
    if next.isInf then .ok next else risingProduct turns count (i + 1) next

def factorial (x : Float) : Checked Float :=
  if x.isNaN || x < 0 then .ok (Float.ofBits 0x7FF8000000000000)
  else risingProduct 170 (Binary64.wholePart x - 1) 2 1

/-! ## Parentheses -/

section

open PostfixOrder State

/-- The depth is the count of the parentheses that wait to be closed. -/
def Counted (s : State) : Prop :=
  s.depth = s.pending.count .opening

theorem count_dropWhile {p : Pending → Bool} (h : p .opening = false) (pending : List Pending) :
    (pending.dropWhile p).count .opening = pending.count .opening := by
  induction pending with
  | nil => rfl
  | cons q pending ih =>
      cases hq : p q with
      | false => rw [List.dropWhile_cons_of_neg (by simp [hq])]
      | true =>
          have hne : q ≠ .opening := by
            rintro rfl
            simp [h] at hq
          rw [List.dropWhile_cons_of_pos hq, ih, List.count_cons_of_ne hne]

theorem Counted.release {s : State} (h : Counted s) {p : Pending → Bool} (hp : p .opening = false) :
    Counted (s.release p) :=
  h.trans (count_dropWhile hp s.pending).symm

theorem Counted.completeCall {s : State} (h : Counted s) : Counted s.completeCall := by
  unfold State.completeCall
  split
  · rename_i f rest hp
    rw [Counted, hp] at h
    exact h
  · exact h

section

variable {s s' : State}

theorem Counted.value {t : Token} (h : Counted s) (hs : s.value t = .ok s') : Counted s' := by
  unfold State.value at hs
  split at hs
  · cases hs
  · obtain rfl := Except.ok.inj hs
    exact h

theorem Counted.name {n : String} {next : Option Token} (h : Counted s) (hs : s.name n next = .ok s') :
    Counted s' := by
  unfold State.name at hs
  split at hs
  · cases hs
  split at hs
  · split at hs
    · obtain rfl := Except.ok.inj hs
      exact h
    · cases hs
  · split at hs
    · exact h.value hs
    · cases hs

theorem Counted.openParenthesis (h : Counted s) (hs : s.openParenthesis = .ok s') : Counted s' := by
  unfold State.openParenthesis at hs
  split at hs
  · cases hs
  split at hs
  · cases hs
  · obtain rfl := Except.ok.inj hs
    simpa [Counted] using h

/-- Behind what is released waits the parenthesis that is closed. -/
theorem Counted.waiting (h : Counted s) {p : Pending} {rest : List Pending}
    (hp : (s.release (· != .opening)).pending = p :: rest) : s.depth = rest.count .opening + 1 := by
  have hr : (s.release (· != .opening)).depth = _ := h.release (p := (· != .opening)) rfl
  have hhead := List.head?_dropWhile_not (· != .opening) s.pending
  have hdrop : s.pending.dropWhile (· != .opening) = p :: rest := hp
  rw [hdrop] at hhead
  obtain rfl : p = .opening := by simpa using hhead
  rwa [hp, List.count_cons_self] at hr

theorem Counted.closeParenthesis (h : Counted s) (hs : s.closeParenthesis = .ok s') : Counted s' := by
  unfold State.closeParenthesis at hs
  split at hs
  · cases hs
  dsimp only at hs
  split at hs
  · cases hs
  · rename_i p rest hp
    obtain rfl := Except.ok.inj hs
    refine Counted.completeCall ?_
    have := h.waiting hp
    show s.depth - 1 = rest.count .opening
    omega

theorem Counted.binary {p : Pending} {symbol : String} {before : Pending → Bool} (h : Counted s)
    (hs : s.binary p symbol before = .ok s') (hp : p ≠ .opening) (hb : before .opening = false) :
    Counted s' := by
  unfold State.binary at hs
  split at hs
  · cases hs
  · obtain rfl := Except.ok.inj hs
    have := h.release hb
    rwa [Counted, List.count_cons_of_ne hp]

theorem Counted.step {t : Token} {next : Option Token} (h : Counted s) (hs : s.step t next = .ok s') :
    Counted s' := by
  cases t with
  | number x => exact h.value hs
  | name n => exact h.name hs
  | opening => exact h.openParenthesis hs
  | closing => exact h.closeParenthesis hs
  | power => exact h.binary hs (by simp) rfl
  | negation => cases hs
  | op o =>
      simp only [State.step] at hs
      split at hs
      · obtain rfl := Except.ok.inj hs
        exact h
      · obtain rfl := Except.ok.inj hs
        exact h
      · exact h.binary hs (by simp) rfl

theorem step_eq (h : Counted s) (t : Token) (next : Option Token) :
    step s t next = .ok (s.step t next) := by
  cases t with
  | closing =>
      show closeParenthesis s = .ok s.closeParenthesis
      unfold closeParenthesis State.closeParenthesis
      split
      · rfl
      cases hp : (s.release (· != .opening)).pending with
      | nil => simp only [hp, pure_eq]
      | cons p rest =>
          have := h.waiting hp
          have hd : decrease 1 (s.release (· != .opening)).depth =
              .ok ((s.release (· != .opening)).depth - 1) :=
            decrease_of_le (show 1 ≤ s.depth by omega)
          simp only [hp, hd, ok_bind, pure_eq]
  | _ => rfl

end

theorem run_eq {s : State} (h : Counted s) (ts : List Token) : run s ts = .ok (s.run ts) := by
  induction ts generalizing s with
  | nil => rfl
  | cons t ts ih =>
      rw [run, step_eq h, State.run]
      cases hs : s.step t ts.head? with
      | error g => rfl
      | ok s' => exact ih (h.step hs)

theorem postfixOrder_eq (ts : List Token) : postfixOrder ts = .ok (ofTokens ts) := by
  have h : Counted State.initial := rfl
  unfold postfixOrder ofTokens
  split
  · rfl
  · rw [run_eq h]
    rfl

end

/-! ## Heights -/

section

open DeskCalculator.Expr

/-- An expression has a height, and a negation is higher than what it negates. -/
structure Sound (x : Built) : Prop where
  normal : x.expr.Normal
  height : 1 ≤ x.height
  negation : x.expr.isNegation = true → 2 ≤ x.height

theorem Sound.negate {x : Built} (h : Sound x) : Sound x.negate := by
  obtain ⟨e, n⟩ := x
  obtain ⟨hn, hh, hneg⟩ := h
  cases e with
  | negation e =>
      have : 2 ≤ n := hneg rfl
      refine ⟨hn.1, ?_, fun he => ?_⟩
      · show 1 ≤ n - 1
        omega
      · simp [Built.negate, hn.2] at he
  | _ => exact ⟨⟨hn, rfl⟩, Nat.le_add_left 1 n, fun _ => Nat.succ_le_succ hh⟩

theorem Sound.leaf {e : Expr} (hn : e.Normal) (he : e.isNegation = false) : Sound (.leaf e) :=
  ⟨hn, Nat.le_refl 1, fun h => by simp [Built.leaf, he] at h⟩

theorem Sound.call {x : Built} (h : Sound x) (f : NamedFunction) : Sound (x.call f) :=
  ⟨Built.call_normal h.normal, Nat.le_add_left 1 x.height, fun _ => Nat.succ_le_succ h.height⟩

theorem Sound.raise {a b : Built} (ha : Sound a) (hb : Sound b) : Sound (a.raise b) := by
  have hn := Built.raise_normal ha.normal hb.normal
  have hh := hb.height
  obtain ⟨e, n⟩ := b
  cases e with
  | tower members => exact ⟨hn, Nat.le_trans hh (Nat.le_max_left _ _), fun h => by cases h⟩
  | _ => exact ⟨hn, Nat.le_add_left 1 _, fun h => by cases h⟩

theorem Sound.link {a b : Built} (ha : Sound a) (hb : Sound b) (o : Op) : Sound (a.link o b) := by
  have hn := @Built.link_normal o a b ha.normal hb.normal
  have hh := ha.height
  obtain ⟨e, n⟩ := a
  cases e with
  | chain head links => exact ⟨hn, Nat.le_trans hh (Nat.le_max_left _ _), fun h => by cases h⟩
  | _ => exact ⟨hn, Nat.le_add_left 1 _, fun h => by cases h⟩

theorem sound_of_pushes {t : Token} {stack stack' : List Built} (h : Pushes t stack stack')
    (hs : ∀ x ∈ stack, Sound x) :
    ∀ x ∈ stack', Sound x := by
  cases h with
  | number x _ => exact List.forall_mem_cons.mpr ⟨.leaf trivial rfl, hs⟩
  | constant c _ => exact List.forall_mem_cons.mpr ⟨.leaf trivial rfl, hs⟩
  | call f x stack =>
      simp only [List.forall_mem_cons] at hs ⊢
      exact ⟨hs.1.call f, hs.2⟩
  | negation x stack =>
      simp only [List.forall_mem_cons] at hs ⊢
      exact ⟨hs.1.negate, hs.2⟩
  | power a b stack =>
      simp only [List.forall_mem_cons] at hs ⊢
      exact ⟨hs.2.1.raise hs.1, hs.2.2⟩
  | op o a b stack =>
      simp only [List.forall_mem_cons] at hs ⊢
      exact ⟨hs.2.1.link hs.1 o, hs.2.2⟩

theorem negate_eq {x : Built} (h : Sound x) : negate x = .ok x.negate := by
  obtain ⟨e, n⟩ := x
  cases e with
  | negation e =>
      show (do return ⟨e, ← decrease 2 n⟩ : Checked Built) = _
      rw [decrease_of_le (h.negation rfl)]
      rfl
  | _ => rfl

theorem push_eq {stack : List Built} (h : ∀ x ∈ stack, Sound x) (t : Token) :
    push stack t = .ok (Expr.push stack t) := by
  cases t with
  | negation =>
      cases stack with
      | nil => rfl
      | cons x rest =>
          show (do return pushBuilt (← negate x) rest : Checked _) = _
          rw [negate_eq (h x (by simp))]
          rfl
  | _ => rfl

theorem pushAll_eq {stack : List Built} (h : ∀ x ∈ stack, Sound x) (ts : List Token) :
    pushAll stack ts = .ok (Expr.pushAll stack ts) := by
  induction ts generalizing stack with
  | nil => rfl
  | cons t ts ih =>
      rw [pushAll, push_eq h, Expr.pushAll]
      cases hs : Expr.push stack t with
      | error g => rfl
      | ok stack' => exact ih (sound_of_pushes (pushes_of_push hs) h)

theorem ofPostfixOrder_eq (ts : List Token) : ofPostfixOrder ts = .ok (Expr.ofPostfixOrder ts) := by
  rw [ofPostfixOrder, pushAll_eq (by simp), Expr.ofPostfixOrder]
  cases Expr.pushAll [] ts with
  | error g => rfl
  | ok stack =>
      match stack with
      | [] => rfl
      | [x] => rfl
      | x :: y :: rest => rfl

end

/-! ## Factorials -/

section

variable {turns count i : Nat} {product : Float}

theorem risingProduct_of_le (h : count ≤ turns) :
    risingProduct turns count i product = .ok (DeskCalculator.risingProduct count i product) := by
  induction count generalizing turns i product with
  | zero => cases turns <;> rfl
  | succ count ih =>
      obtain ⟨turns, rfl⟩ : ∃ n, turns = n + 1 := ⟨turns - 1, by omega⟩
      simp only [risingProduct, DeskCalculator.risingProduct]
      split
      · rfl
      · exact ih (Nat.le_of_succ_le_succ h)

/-- When the product is infinite after so many turns, no more are needed. -/
theorem risingProduct_of_isInf (hp : product.isInf = false)
    (h : (DeskCalculator.risingProduct turns i product).isInf = true) (hc : turns ≤ count) :
    risingProduct turns count i product = .ok (DeskCalculator.risingProduct count i product) := by
  induction turns generalizing count i product with
  | zero => simp [DeskCalculator.risingProduct, hp] at h
  | succ turns ih =>
      obtain ⟨count, rfl⟩ : ∃ n, count = n + 1 := ⟨count - 1, by omega⟩
      simp only [risingProduct, DeskCalculator.risingProduct] at h ⊢
      split
      · rfl
      · rename_i hnext
        simp only [hnext] at h
        exact ih (by simpa using hnext) (by simpa using h) (Nat.le_of_succ_le_succ hc)

theorem isInf_risingProduct : (DeskCalculator.risingProduct 170 2 1).isInf = true := by
  rw [Factorial.risingProduct_eq 171, Factorial.isInf_wholeProduct, decide_eq_true_iff]

theorem factorial_eq (x : Float) : factorial x = .ok (DeskCalculator.factorial x) := by
  unfold factorial DeskCalculator.factorial
  split
  · rfl
  · rcases Nat.le_total (Binary64.wholePart x - 1) 170 with h | h
    · exact risingProduct_of_le h
    · exact risingProduct_of_isInf (by decide +kernel) isInf_risingProduct h

end

/-! ## Whole evaluations -/

theorem parse_eq (canonical : List Char) : parse canonical = .ok (DeskCalculator.parse canonical) := by
  rw [parse, tokens_eq, DeskCalculator.parse]
  cases DeskCalculator.tokens canonical with
  | error g => rfl
  | ok ts =>
      simp only [ok_bind, postfixOrder_eq]
      cases PostfixOrder.ofTokens ts with
      | error g => rfl
      | ok order => exact ofPostfixOrder_eq order

/-- No text takes an evaluation out of the range of its operations, nor does any list of tokens or any
number. -/
theorem evaluate_in_range : (∀ mode raw, evaluate mode raw = .ok (DeskCalculator.evaluate mode raw)) ∧
    (∀ ts, ofPostfixOrder ts = .ok (Expr.ofPostfixOrder ts)) ∧
    ∀ x, factorial x = .ok (DeskCalculator.factorial x) := by
  refine ⟨fun mode raw => ?_, ofPostfixOrder_eq, factorial_eq⟩
  unfold evaluate DeskCalculator.evaluate
  split
  · rfl
  · rw [expandTrig_eq, ok_bind, parse_eq, ok_bind, Canonical.text, compute]
    cases DeskCalculator.parse (Canonical.expandTrig mode (Canonical.beforeTrig raw.toList)) with
    | error g => rfl
    | ok e => rfl

end DeskCalculator.Checked
