import DeskCalculator.Proofs.Checked.Evaluation
import DeskCalculator.Proofs.Expr.Leaves
import DeskCalculator.Proofs.Outcome
import DeskCalculator.Proofs.Parentheses

/-!
# Where a token may stand

A token is refused for its place only: where a value is wanted, where the parenthesis of a function is
wanted, or behind a value. So tokens have an expression just if each stands at such a place and the
parentheses are balanced, unless something nests too deep.
-/

namespace DeskCalculator

open DeskCalculator.Except

/-! ## Places -/

inductive Place where
  /-- A value is wanted. -/
  | operand
  /-- The parenthesis of a function is wanted. -/
  | argument
  /-- A value was just completed. -/
  | value
deriving DecidableEq

namespace Place

/-- The place behind a token that may stand at the place. -/
def next : Place → Token → Option Place
  | .operand, .number _ => some .value
  | .operand, .name n =>
    if (NamedFunction.ofName? n).isSome then some .argument
    else if (Constant.ofName? n).isSome then some .value else none
  | .operand, .op .add | .operand, .op .sub => some .operand
  | .operand, .opening | .argument, .opening => some .operand
  | .value, .closing => some .value
  | .value, .op _ | .value, .power => some .operand
  | _, _ => none

def read (p : Place) (ts : List Token) : Option Place := ts.foldlM next p

section

variable {p q : Place} {t : Token} {ts us : List Token}

@[simp] theorem read_nil : p.read [] = some p := rfl

@[simp] theorem read_cons : p.read (t :: ts) = (p.next t).bind (·.read ts) := rfl

theorem read_append : p.read (ts ++ us) = (p.read ts).bind (·.read us) :=
  List.foldlM_append

@[simp] theorem next_function (f : NamedFunction) : next .operand (.name f.name) = some .argument := by
  simp [next]

@[simp] theorem next_constant (c : Constant) : next .operand (.name c.name) = some .value := by
  cases c <;> rfl

@[simp] theorem next_value_op (o : Op) : next .value (.op o) = some .operand := by
  cases o <;> rfl

/-- A parenthesis closes behind a value. -/
theorem read_group_iff : p.read (.opening :: (ts ++ .closing :: us)) = some q ↔
    p ≠ .value ∧ read .operand ts = some .value ∧ read .value us = some q := by
  have hclose (r : Place) : r.read (.closing :: us) = some q ↔ r = .value ∧ read .value us = some q := by
    cases r <;> simp [next]
  have hopen : p.read (.opening :: (ts ++ .closing :: us)) = some q ↔
      p ≠ .value ∧ read .operand (ts ++ .closing :: us) = some q := by
    cases p <;> simp [next]
  rw [hopen, read_append, Option.bind_eq_some_iff]
  simp only [hclose]
  constructor
  · rintro ⟨hp, r, hr, rfl, hu⟩
    exact ⟨hp, hr, hu⟩
  · rintro ⟨hp, hr, hu⟩
    exact ⟨hp, .value, hr, rfl, hu⟩

theorem read_call_iff {f : NamedFunction} :
    p.read (.name f.name :: .opening :: (ts ++ .closing :: us)) = some q ↔
    p = .operand ∧ read .operand ts = some .value ∧ read .value us = some q := by
  cases p with
  | operand => rw [read_cons, next_function, Option.bind_some, read_group_iff]; simp
  | argument | value => simp [next]

/-- A name that may stand at a place is that of a function or of a constant. -/
theorem next_name {n : String} (h : p.next (.name n) = some q) :
    p = .operand ∧ ((∃ f : NamedFunction, n = f.name ∧ q = .argument) ∨
      ∃ c : Constant, n = c.name ∧ q = .value) := by
  cases p with
  | argument | value => cases h
  | operand =>
      refine ⟨rfl, ?_⟩
      cases hf : NamedFunction.ofName? n with
      | some f =>
          obtain rfl : .argument = q := by simpa [next, hf] using h
          exact .inl ⟨f, NamedFunction.ofName?_eq_some_iff.mp hf, rfl⟩
      | none =>
          cases hc : Constant.ofName? n with
          | none => simp [next, hf, hc] at h
          | some c =>
              obtain rfl : .value = q := by simpa [next, hf, hc] using h
              exact .inr ⟨c, Constant.ofName?_eq_some_iff.mp hc, rfl⟩

theorem next_eq_argument (h : p.next t = some .argument) : ∃ f : NamedFunction, t = .name f.name := by
  cases t with
  | name n =>
      rcases (next_name h).2 with ⟨f, rfl, -⟩ | ⟨c, -, ⟨⟩⟩
      exact ⟨f, rfl⟩
  | op o => cases p <;> cases o <;> cases h
  | _ => cases p <;> cases h

end

end Place

/-! ## Sentences -/

namespace Grammar

/-- Where a phrase of the category starts. -/
def Category.place : Category → Place
  | .rest .. => .value
  | _ => .operand

theorem Level.place_operand (l : Level) : l.operand.place = .operand := by
  cases l <;> rfl

theorem Derives.read {c : Category} {ts : List Token} {t : ParseTree} (h : Derives c ts t) :
    c.place.read ts = some .value := by
  induction h with
  | number x => rfl
  | constant c => simp [Category.place]
  | call _ ih =>
      have ih : Place.operand.read _ = some .value := ih
      simp [Category.place, Place.next, Place.read_append, ih]
  | group _ ih =>
      have ih : Place.operand.read _ = some .value := ih
      simp [Category.place, Place.next, Place.read_append, ih]
  | bare _ ih | unsigned _ ih | plus _ ih | minus _ ih => exact ih
  | raised _ _ iha ihb =>
      have iha : Place.operand.read _ = some .value := iha
      have ihb : Place.operand.read _ = some .value := ihb
      simp [Category.place, Place.next, Place.read_append, iha, ihb]
  | @chain l ts a us t _ _ iha ihb =>
      rw [l.place_operand] at iha
      show Place.operand.read (ts ++ us) = some .value
      rw [Place.read_append, iha]
      exact ihb
  | done l a => rfl
  | @join l o a us b vs t _ _ _ iha ihb =>
      rw [l.place_operand] at iha
      rw [Category.place, Place.read_cons, Place.next_value_op, Option.bind_some, Place.read_append, iha]
      exact ihb

end Grammar

/-! ## States -/

namespace PostfixOrder

open Parenthesis State

/-- The state stands at the place. -/
structure State.At (s : State) (p : Place) : Prop where
  counted : Checked.Counted s
  afterValue : s.afterValue = true ↔ p = .value

theorem State.completeCall_depth (s : State) : s.completeCall.depth = s.depth := by
  unfold completeCall
  split <;> rfl

theorem State.completeCall_afterValue (s : State) : s.completeCall.afterValue = s.afterValue := by
  unfold completeCall
  split <;> rfl

section

variable {s : State} {p p' : Place} {t : Token} {ts : List Token} {k : Nat}

theorem State.At.noValue (h : s.At p) (hp : p ≠ .value) : s.afterValue = false := by
  cases hv : s.afterValue with
  | false => rfl
  | true => exact absurd (h.afterValue.mp hv) hp

/-- A parenthesis that was opened is closed. -/
theorem State.At.close (h : s.At .value) (hk : s.depth = k + 1) :
    ∃ s', s.closeParenthesis = .ok s' ∧ s'.afterValue = true ∧ s'.depth = k := by
  have hv : s.afterValue = true := h.afterValue.mpr rfl
  have hr : Checked.Counted (s.release (· != Pending.opening)) := h.counted.release rfl
  unfold closeParenthesis
  cases hp : (s.release (· != Pending.opening)).pending with
  | nil =>
      rw [Checked.Counted, hp] at hr
      exact absurd (hk.symm.trans hr) (Nat.succ_ne_zero k)
  | cons q rest =>
      refine
        ⟨{ s.release (· != Pending.opening) with pending := rest, depth := s.depth - 1 }.completeCall,
          ?_, ?_, ?_⟩
      · simp only [hv, Bool.not_true, Bool.false_eq_true, if_false, hp]
        rfl
      · rw [completeCall_afterValue]
        exact hv
      · rw [completeCall_depth, hk, Nat.add_sub_cancel]

/-- The token is read, and the state then stands at the place within `k` parentheses; or it opens too many. -/
def State.Reads (s : State) (t : Token) (following : Option Token) (p : Place) (k : Nat) : Prop :=
  s.step t following = .error .tooDeep ∨ ∃ s', s.step t following = .ok s' ∧ s'.At p ∧ s'.depth = k

theorem State.At.reads {s' : State} {following : Option Token} (h : s.At p)
    (hs : s.step t following = .ok s') (ha : s'.afterValue = true ↔ p' = .value) (hd : s'.depth = k) :
    s.Reads t following p' k :=
  .inr ⟨s', hs, ⟨h.counted.step hs, ha⟩, hd⟩

theorem State.At.reads_binary {following : Option Token} {q : Pending} {symbol : String}
    {before : Pending → Bool} (h : s.At .value) (hs : s.step t following = s.binary q symbol before) :
    s.Reads t following .operand s.depth := by
  rw [binary, h.afterValue.mpr rfl] at hs
  exact h.reads hs (by simp) rfl

/-- Behind a value stands an operator, or a parenthesis that closes. -/
theorem State.At.reads_of_value {following : Option Token} (h : s.At .value)
    (hp : Place.value.next t = some p') (hk : openAfter s.depth (Parenthesis.ofTokens [t]) = some k) :
    s.Reads t following p' k := by
  cases t with
  | closing =>
      obtain rfl := Option.some.inj hp
      obtain ⟨n, hn⟩ : ∃ n, s.depth = n + 1 := by
        cases hd : s.depth with
        | zero => simp [hd, Parenthesis.ofTokens, ofToken?, openAfter] at hk
        | succ n => exact ⟨n, rfl⟩
      obtain rfl : n = k := by simpa [hn, Parenthesis.ofTokens, ofToken?, openAfter] using hk
      obtain ⟨s', hs, ha, hd⟩ := h.close hn
      exact h.reads hs (by simp [ha]) hd
  | op o =>
      obtain rfl : .operand = p' := by simpa using hp
      obtain rfl := Option.some.inj hk
      have hv := h.afterValue.mpr rfl
      have hs : s.step (.op o) following = s.binary (.op o) o.symbol (Pending.goesBefore o) := by
        cases o <;> simp [State.step, hv]
      exact h.reads_binary hs
  | power =>
      obtain rfl := Option.some.inj hp
      obtain rfl := Option.some.inj hk
      have hs : s.step .power following = s.binary .power "**" fun _ => false := rfl
      exact h.reads_binary hs
  | _ => cases hp

theorem State.At.reads_opening {following : Option Token} (h : s.At p) (hp : p ≠ .value) :
    s.Reads .opening following .operand (s.depth + 1) := by
  have hv := h.noValue hp
  by_cases hdeep : maxDepth < s.depth + 1
  · exact .inl (by simp [State.step, openParenthesis, hv, hdeep])
  · have hs : s.step .opening following =
        .ok { s with pending := .opening :: s.pending, depth := s.depth + 1 } := by
      simp [State.step, openParenthesis, hv, hdeep]
    exact h.reads hs (by simp [hv]) rfl

/-- A name is followed by a parenthesis just if it is the name of a function. -/
theorem State.At.reads_name {following : Option Token} {n : String} (h : s.At .operand)
    (hp : Place.operand.next (.name n) = some p') (hf : p' = .argument → following = some .opening) :
    s.Reads (.name n) following p' s.depth := by
  have hv := h.noValue nofun
  cases hn : NamedFunction.ofName? n with
  | some f =>
      obtain rfl : .argument = p' := by simpa [Place.next, hn] using hp
      have hs : s.step (.name n) following = .ok { s with pending := .call f :: s.pending } := by
        simp [State.step, State.name, hv, hn, hf rfl]
      exact h.reads hs (by simp [hv]) rfl
  | none =>
      cases hc : Constant.ofName? n with
      | none => simp [Place.next, hn, hc] at hp
      | some c =>
          obtain rfl : .value = p' := by simpa [Place.next, hn, hc] using hp
          have hs : s.step (.name n) following =
              .ok { s with output := .name n :: s.output, afterValue := true } := by
            simp [State.step, State.name, State.value, hv, hn, hc]
          exact h.reads hs (by simp) rfl

theorem State.At.reads_of_operand {following : Option Token} (h : s.At .operand)
    (hp : Place.operand.next t = some p') (hf : p' = .argument → following = some .opening)
    (hk : openAfter s.depth (Parenthesis.ofTokens [t]) = some k) :
    s.Reads t following p' k := by
  have hv := h.noValue nofun
  cases t with
  | opening =>
      obtain rfl := Option.some.inj hp
      obtain rfl := Option.some.inj hk
      exact h.reads_opening nofun
  | number x =>
      obtain rfl := Option.some.inj hp
      obtain rfl := Option.some.inj hk
      have hs : s.step (.number x) following =
          .ok { s with output := .number x :: s.output, afterValue := true } := by
        simp [State.step, State.value, hv]
      exact h.reads hs (by simp) rfl
  | name n =>
      obtain rfl := Option.some.inj hk
      exact h.reads_name hp hf
  | op o =>
      obtain rfl := Option.some.inj hk
      cases o with
      | add =>
          obtain rfl := Option.some.inj hp
          exact h.reads (by simp [State.step, hv]) h.afterValue rfl
      | sub =>
          obtain rfl := Option.some.inj hp
          have hs : s.step (.op .sub) following = .ok { s with pending := .negation :: s.pending } := by
            simp [State.step, hv]
          exact h.reads hs (by simp [hv]) rfl
      | _ => cases hp
  | _ => cases hp

/-- A token at its place is read, unless it opens too many parentheses. -/
theorem State.At.step {following : Option Token} (h : s.At p) (hp : p.next t = some p')
    (hf : p' = .argument → following = some .opening)
    (hk : openAfter s.depth (Parenthesis.ofTokens [t]) = some k) :
    s.Reads t following p' k := by
  cases p with
  | operand => exact h.reads_of_operand hp hf hk
  | value => exact h.reads_of_value hp hk
  | argument =>
      cases t with
      | opening =>
          obtain rfl := Option.some.inj hp
          obtain rfl := Option.some.inj hk
          exact h.reads_opening nofun
      | _ => cases hp

/-- Behind the name of a function stands a parenthesis. -/
theorem head?_of_read (h : Place.argument.read ts = some p) (hp : p ≠ .argument) :
    ts.head? = some .opening := by
  cases ts with
  | nil => exact absurd (Option.some.inj h).symm hp
  | cons t ts => cases t <;> first | rfl | cases h

theorem State.At.run (h : s.At p) (hr : p.read ts = some p') (hp : p' ≠ .argument)
    (hk : openAfter s.depth (Parenthesis.ofTokens ts) = some k) :
    s.run ts = .error .tooDeep ∨ ∃ s', s.run ts = .ok s' ∧ s'.At p' ∧ s'.depth = k := by
  induction ts generalizing s p with
  | nil =>
      obtain rfl := Option.some.inj hr
      exact .inr ⟨s, rfl, h, Option.some.inj hk⟩
  | cons t ts ih =>
      obtain ⟨q, hq, hr⟩ := Option.bind_eq_some_iff.mp hr
      rw [← List.singleton_append, Parenthesis.ofTokens, List.filterMap_append, openAfter_append] at hk
      obtain ⟨n, hn, hk⟩ := Option.bind_eq_some_iff.mp hk
      have hf : q = .argument → ts.head? = some .opening := by
        rintro rfl
        exact head?_of_read hr hp
      rw [Grammar.run_cons]
      rcases h.step hq hf hn with hs | ⟨s', hs, h', rfl⟩
      · exact .inl (by rw [hs, error_bind])
      · rw [hs, ok_bind]
        exact ih h' hr hk

theorem State.At.finish (h : s.At .value) (hd : s.depth = 0) : ∃ order, s.finish = .ok order := by
  have hpending : s.pending.contains .opening = false := by
    have := h.counted
    rw [Checked.Counted, hd, eq_comm, List.count_eq_zero] at this
    simpa using this
  refine ⟨(s.release fun _ => true).output.reverse, ?_⟩
  simp only [State.finish, h.afterValue.mpr rfl, hpending, Bool.not_true, Bool.false_eq_true, if_false]

end

end PostfixOrder

/-! ## All tokens -/

/-- Each token stands at a place for it, and the parentheses are balanced. -/
structure Accepted (ts : List Token) : Prop where
  read : Place.operand.read ts = some .value
  balanced : Parenthesis.Balanced (Parenthesis.ofTokens ts)

namespace Accepted

open PostfixOrder

variable {ts order : List Token}

theorem of_ofTokens (h : ofTokens ts = .ok order) : Accepted ts := by
  obtain ⟨t, hs, -⟩ := Grammar.exists_sentence h
  exact ⟨hs.read, Parenthesis.balanced_of_derives hs⟩

theorem ofTokens (h : Accepted ts) :
    PostfixOrder.ofTokens ts = .error .tooDeep ∨ ∃ order, PostfixOrder.ofTokens ts = .ok order := by
  have hne : ts.isEmpty = false := by
    cases ts with
    | nil => cases h.read
    | cons t ts => rfl
  have hat : State.initial.At .operand := ⟨rfl, by simp [State.initial]⟩
  rw [PostfixOrder.ofTokens, hne]
  rcases hat.run h.read (by simp) h.balanced with hr | ⟨s, hr, hs, hd⟩
  · exact .inl (by simp [hr])
  · obtain ⟨order, ho⟩ := hs.finish hd
    exact .inr ⟨order, by simp [hr, ho]⟩

end Accepted

/-- A text has an expression just if its tokens are accepted, unless something nests too deep. -/
theorem parse_eq_ok_iff {text : List Char} (h : parse text ≠ .error .tooDeep) :
    (∃ e, parse text = .ok e) ↔ ∃ ts, tokens text = .ok ts ∧ Accepted ts := by
  constructor
  · rintro ⟨e, he⟩
    obtain ⟨ts, ht, he⟩ := bind_eq_ok_iff.mp he
    obtain ⟨order, ho, -⟩ := bind_eq_ok_iff.mp he
    exact ⟨ts, ht, .of_ofTokens ho⟩
  · rintro ⟨ts, ht, hts⟩
    rw [parse, ht, ok_bind] at h ⊢
    rcases hts.ofTokens with ho | ⟨order, ho⟩
    · rw [ho] at h
      exact absurd rfl h
    rw [ho, ok_bind] at h ⊢
    rcases Expr.ofPostfixOrder_of_ofTokens ho with hd | ⟨e, he, -⟩
    · exact absurd hd h
    · exact ⟨e, he⟩

end DeskCalculator
