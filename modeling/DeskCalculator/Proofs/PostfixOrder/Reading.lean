import DeskCalculator.Proofs.Except
import DeskCalculator.Proofs.Grammar

/-!
# Reading a phrase

From any state that waits for a value, a phrase of the grammar leaves behind the operators that may
still take a longer operand. Releasing them gives the tree's tokens in postorder. The only other
outcome is that the parentheses nest too deep.
-/

namespace DeskCalculator

/-- The state that waits for the last operand of `p`. -/
abbrev PostfixOrder.State.above (s : State) (p : Pending) (out : List Token) : State :=
  { s with output := out, pending := p :: s.pending, afterValue := false }

namespace Grammar

open DeskCalculator.Except PostfixOrder PostfixOrder.State

/-! ## Releasing operators -/

/-- A following operator of the level releases the pending one. -/
def Level.releases : Level → Pending → Bool
  | .sum => Pending.goesBefore .add
  | .product => Pending.goesBefore .mul

theorem Level.goesBefore_eq (o : Op) : Pending.goesBefore o = (Level.ofOp o).releases := by
  funext p
  cases o <;> cases p <;> rfl

theorem Level.releases_of_product {l : Level} {p : Pending} (h : Level.product.releases p = true) :
    l.releases p = true := by
  cases l with
  | product => exact h
  | sum => cases p with
    | op o => cases o <;> rfl
    | _ => first | rfl | cases h

theorem ne_opening_of_releases {l : Level} {p : Pending} (h : l.releases p = true) :
    (p != .opening) = true := by
  cases p with
  | opening => cases l <;> cases h
  | _ => rfl

theorem release_append {s : State} {p : Pending → Bool} {newer older : List Pending}
    (hs : s.pending = newer ++ older) (hn : ∀ q ∈ newer, p q = true)
    (ho : ∀ q ∈ older.head?, p q = false) :
    s.release p =
      { s with output := (newer.map Pending.token).reverse ++ s.output, pending := older } := by
  have ht : older.takeWhile p = [] := by
    cases older with
    | nil => rfl
    | cons q older => simp [ho q (by simp)]
  have hd : older.dropWhile p = older := by
    cases older with
    | nil => rfl
    | cons q older => simp [ho q (by simp)]
  simp [State.release, hs, List.takeWhile_append_of_pos hn, List.dropWhile_append_of_pos hn, ht, hd]

/-! ## Phrases that were read -/

/-- The operators that may be pending above the start of a phrase when it ends. -/
def Category.leaves : Category → Pending → Bool
  | .chain l, p | .rest l _, p => l.releases p
  | .signed, p | .power, p => match p with
    | .negation | .power => true
    | _ => false
  | .atom, _ => false

theorem Category.leaves_operand {l : Level} {p : Pending} (h : l.operand.leaves p = true) :
    l.releases p = true := by
  cases l with
  | sum => exact Level.releases_of_product h
  | product => cases p <;> first | rfl | cases h

/-- Between the states, a phrase of the category was read that has this tree. -/
structure Completed (c : Category) (t : ParseTree) (s s' : State) : Prop where
  afterValue : s'.afterValue = true
  depth : s'.depth = s.depth
  pending : ∃ newer, s'.pending = newer ++ s.pending ∧ (∀ p ∈ newer, c.leaves p = true) ∧
    (newer.map Pending.token).reverse ++ s'.output = t.postorder.reverse ++ s.output

theorem Completed.mono {c c' : Category} {t : ParseTree} {s s' : State} (h : Completed c t s s')
    (hc : ∀ p, c.leaves p = true → c'.leaves p = true) : Completed c' t s s' := by
  obtain ⟨newer, hp, hl, ho⟩ := h.pending
  exact ⟨h.afterValue, h.depth, newer, hp, fun p hm => hc p (hl p hm), ho⟩

def isCall : Pending → Bool
  | .call _ => true
  | _ => false

/-- A phrase of the category may start above the pending operator, which is not released within it. -/
def Category.follows : Category → Pending → Bool
  | .chain l, p | .rest l _, p => !isCall p && !l.releases p
  | _, p => !isCall p

def Category.Fits (c : Category) (s : State) : Prop :=
  ∀ p ∈ s.pending.head?, c.follows p = true

theorem Category.Fits.not_released {l : Level} {s : State} (h : (Category.chain l).Fits s) :
    ∀ p ∈ s.pending.head?, l.releases p = false := by
  intro p hp
  have := h p hp
  simp only [Category.follows, Bool.and_eq_true, Bool.not_eq_true'] at this
  exact this.2

theorem Category.Fits.operand {l : Level} {s : State} (h : (Category.chain l).Fits s) :
    l.operand.Fits s := by
  intro p hp
  obtain ⟨hc, hl⟩ := Bool.and_eq_true _ _ ▸ h p hp
  cases l with
  | product => exact hc
  | sum =>
      cases hr : Level.product.releases p with
      | true => simp [Level.releases_of_product (l := .sum) hr] at hl
      | false => simpa [Level.operand, Category.follows, hr] using hc

theorem Category.Fits.completeCall {s : State} (h : Category.atom.Fits s) : s.completeCall = s := by
  unfold State.completeCall
  split
  · rename_i f rest hp
    cases h (.call f) (by simp [hp])
  · rfl

theorem Category.Fits.cons {c : Category} {p : Pending} {s : State} (hs : s.pending.head? = some p)
    (hp : c.follows p = true) : c.Fits s := by
  intro q hq
  obtain rfl : p = q := by simpa [hs] using hq
  exact hp

/-- A phrase of the category is read from the state `s₀` on; the rest of a chain follows what was read
of it since the state `s`. -/
def Category.Starts : Category → State → State → Prop
  | .rest l left, s, s₀ => Completed (.chain l) left s s₀ ∧ s.depth + left.nesting ≤ maxDepth
  | _, s, s₀ => s₀ = s ∧ s.afterValue = false ∧ s.depth ≤ maxDepth

theorem Category.starts_operand {s : State} (l : Level) (hv : s.afterValue = false)
    (hd : s.depth ≤ maxDepth) :
    l.operand.Starts s s := by
  cases l <;> exact ⟨rfl, hv, hd⟩

/-- The phrase `ts` is read and then `rest`, or its parentheses nest too deep. -/
def Reads (c : Category) (t : ParseTree) (s s₀ : State) (ts rest : List Token) : Prop :=
  (s.depth + t.nesting ≤ maxDepth ∧ ∃ s', s₀.run (ts ++ rest) = s'.run rest ∧ Completed c t s s') ∨
    (maxDepth < s.depth + t.nesting ∧ s₀.run (ts ++ rest) = .error .tooDeep)

theorem run_cons (s : State) (t : Token) (rest : List Token) :
    s.run (t :: rest) = (do (← s.step t rest.head?).run rest) := rfl

theorem Completed.of_value {t : ParseTree} {x : Token} {s : State} (ht : t.postorder = [x]) :
    Completed .atom t s { s with output := x :: s.output, afterValue := true } :=
  ⟨rfl, rfl, [], rfl, by simp, by simp [ht]⟩

/-- The closing parenthesis completes a group, and the function before it. -/
theorem Completed.close {t : ParseTree} {s s' : State} {older : List Pending}
    (h : Completed (.chain .sum) t s s') (hs : s.pending = .opening :: older) :
    s'.closeParenthesis = .ok
      (State.mk (t.postorder.reverse ++ s.output) older true (s.depth - 1)).completeCall := by
  obtain ⟨newer, hp, hl, ho⟩ := h.pending
  rw [hs] at hp
  have hr := release_append hp (fun q hq => ne_opening_of_releases (l := .sum) (hl q hq))
    (p := (· != .opening)) (by simp)
  simp [closeParenthesis, h.afterValue, hr, ho, h.depth]

/-- An operator takes the part of its chain that was read before. -/
theorem Completed.operator {l : Level} {o : Op} {a : ParseTree} {s s' : State}
    (h : Completed (.chain l) a s s') (hl : Level.ofOp o = l) (hf : (Category.chain l).Fits s)
    (next : Option Token) :
    s'.step (.op o) next =
      .ok (s.above (.op o) (a.postorder.reverse ++ s.output)) := by
  obtain ⟨newer, hp, hn, ho⟩ := h.pending
  have hb : s'.step (.op o) next = s'.binary (.op o) o.symbol (Pending.goesBefore o) := by
    cases o <;> simp [step, h.afterValue]
  subst hl
  have hr := release_append (p := (Level.ofOp o).releases) hp hn hf.not_released
  simp [hb, binary, h.afterValue, Level.goesBefore_eq, hr, ho, h.depth]

theorem Completed.powerSign {a : ParseTree} {s s' : State} (h : Completed .atom a s s')
    (next : Option Token) :
    s'.step .power next = .ok (s.above .power (a.postorder.reverse ++ s.output)) := by
  obtain ⟨newer, hp, hn, ho⟩ := h.pending
  obtain rfl : newer = [] :=
    List.eq_nil_iff_forall_not_mem.mpr fun q hq => by simpa [Category.leaves] using hn q hq
  have hr := release_append (p := fun _ => false) hp (by simp) (by simp)
  have ho : s'.output = a.postorder.reverse ++ s.output := by simpa using ho
  simp [step, binary, h.afterValue, hr, ho, h.depth]

/-- An operator whose operands are complete is pending at the end of its phrase. -/
theorem Completed.pendingOperator {c c' : Category} {p : Pending} {t u : ParseTree} {out : List Token}
    {s s' : State} (h : Completed c t (s.above p out) s')
    (hc : ∀ q, c.leaves q = true → c'.leaves q = true) (hp : c'.leaves p = true)
    (hu : p.token :: (t.postorder.reverse ++ out) = u.postorder.reverse ++ s.output) :
    Completed c' u s s' := by
  obtain ⟨newer, hn, hl, ho⟩ := h.pending
  refine ⟨h.afterValue, h.depth, newer ++ [p], by simp [hn], ?_, ?_⟩
  · intro q hq
    rcases List.mem_append.mp hq with hq | hq
    · exact hc q (hl q hq)
    · obtain rfl := List.mem_singleton.mp hq
      exact hp
  · rw [← hu, ← ho]
    simp

/-! ## Parts of phrases -/

theorem Derives.nesting_rest {l : Level} {left t : ParseTree} {ts : List Token}
    (h : Derives (.rest l left) ts t) :
    left.nesting ≤ t.nesting := by
  generalize hc : Category.rest l left = c at h
  induction h generalizing left with
  | done => cases hc; exact Nat.le_refl _
  | join _ _ _ _ ih =>
      cases hc
      exact Nat.le_trans (Nat.le_max_left ..) (ih rfl)
  | _ => cases hc

theorem Reads.mono {c c' : Category} {t : ParseTree} {s s₀ : State} {ts rest : List Token}
    (h : Reads c t s s₀ ts rest) (hc : ∀ p, c.leaves p = true → c'.leaves p = true) :
    Reads c' t s s₀ ts rest := by
  rcases h with ⟨hn, s', hr, h⟩ | h
  · exact .inl ⟨hn, s', hr, h.mono hc⟩
  · exact .inr h

/-- A phrase in parentheses, and the function before it, is read like a value. -/
theorem Reads.parenthesised {t : ParseTree} {ts rest : List Token} {s : State}
    (hv : s.afterValue = false) (hd : s.depth ≤ maxDepth)
    (h : s.depth + 1 ≤ maxDepth →
      Reads (.chain .sum) t { s with pending := .opening :: s.pending, depth := s.depth + 1 }
      { s with pending := .opening :: s.pending, depth := s.depth + 1 } ts (.closing :: rest)) :
    (s.depth + (t.nesting + 1) ≤ maxDepth ∧ s.run (.opening :: (ts ++ [.closing]) ++ rest) =
        (State.mk (t.postorder.reverse ++ s.output) s.pending true s.depth).completeCall.run rest) ∨
      (maxDepth < s.depth + (t.nesting + 1) ∧
        s.run (.opening :: (ts ++ [.closing]) ++ rest) = .error .tooDeep) := by
  by_cases ho : maxDepth < s.depth + 1
  · exact .inr ⟨by omega, by simp [run_cons, step, openParenthesis, hv, ho]⟩
  have hstep : s.run (.opening :: (ts ++ [.closing]) ++ rest) =
      State.run { s with pending := .opening :: s.pending, depth := s.depth + 1 }
        (ts ++ .closing :: rest) := by
    simp [run_cons, step, openParenthesis, hv, ho]
  rw [hstep]
  rcases h (by omega) with ⟨hn, s', hr, hc⟩ | ⟨hn, hr⟩
  · simp only at hn
    refine .inl ⟨by omega, ?_⟩
    rw [hr, run_cons]
    show (do (← s'.closeParenthesis).run rest) = _
    rw [hc.close rfl]
    rfl
  · simp only at hn
    exact .inr ⟨by omega, hr⟩

/-! ## One form of phrase -/

section

variable {s : State} {a b t : ParseTree} {ts us r : List Token}

theorem Reads.call {f : NamedFunction} (hv : s.afterValue = false) (hd : s.depth ≤ maxDepth)
    (h : s.depth + 1 ≤ maxDepth →
      Reads (.chain .sum) t { s with pending := .opening :: .call f :: s.pending, depth := s.depth + 1 }
        { s with pending := .opening :: .call f :: s.pending, depth := s.depth + 1 } ts
          (.closing :: r)) :
    Reads .atom (.call f t) s s (.name f.name :: .opening :: (ts ++ [.closing])) r := by
  have hstep : s.run (.name f.name :: .opening :: (ts ++ [.closing]) ++ r) =
      State.run { s with pending := .call f :: s.pending } (.opening :: (ts ++ [.closing]) ++ r) := by
    simp [run_cons, step, name, hv]
  rw [Reads, hstep]
  rcases Reads.parenthesised (s := { s with pending := .call f :: s.pending })
      hv hd h with ⟨hn, hr⟩ | ⟨hn, hr⟩
  · exact .inl ⟨hn, _, hr, rfl, rfl, [], rfl, by simp, by simp [completeCall, ParseTree.postorder]⟩
  · exact .inr ⟨hn, hr⟩

theorem Reads.group (hv : s.afterValue = false) (hd : s.depth ≤ maxDepth) (hf : Category.atom.Fits s)
    (h : s.depth + 1 ≤ maxDepth →
      Reads (.chain .sum) t { s with pending := .opening :: s.pending, depth := s.depth + 1 }
      { s with pending := .opening :: s.pending, depth := s.depth + 1 } ts (.closing :: r)) :
    Reads .atom (.group t) s s (.opening :: (ts ++ [.closing])) r := by
  rcases Reads.parenthesised hv hd h with ⟨hn, hr⟩ | ⟨hn, hr⟩
  · refine .inl ⟨hn, _, hr, ?_⟩
    have hs : (State.mk (t.postorder.reverse ++ s.output) s.pending true s.depth).completeCall = _ :=
      Category.Fits.completeCall hf
    rw [hs]
    exact ⟨rfl, rfl, [], rfl, by simp, by simp [ParseTree.postorder]⟩
  · exact .inr ⟨hn, hr⟩

theorem Reads.raised (ha : Reads .atom a s s ts (.power :: (us ++ r)))
    (hb : Reads .signed b (s.above .power (a.postorder.reverse ++ s.output))
      (s.above .power (a.postorder.reverse ++ s.output)) us r) :
    Reads .power (.power a b) s s (ts ++ .power :: us) r := by
  simp only [Reads, List.append_assoc, List.cons_append, ParseTree.nesting] at ha hb ⊢
  rcases ha with ⟨hn, s', hr, hc⟩ | ⟨hn, hr⟩
  · have hp : s'.run (.power :: (us ++ r)) =
        (s.above .power (a.postorder.reverse ++ s.output)).run (us ++ r) := by
      simp [run_cons, hc.powerSign]
    rw [hr, hp]
    rcases hb with ⟨hm, s'', hr', hc'⟩ | ⟨hm, hr'⟩
    · refine .inl ⟨by omega, s'', hr', hc'.pendingOperator (fun _ h => h) rfl ?_⟩
      simp [ParseTree.postorder, Pending.token]
    · exact .inr ⟨by omega, hr'⟩
  · exact .inr ⟨by omega, hr⟩

theorem Reads.plus (hv : s.afterValue = false) (h : Reads .signed t s s ts r) :
    Reads .signed (.plus t) s s (.op .add :: ts) r := by
  have hstep : s.run (.op .add :: (ts ++ r)) = s.run (ts ++ r) := by simp [run_cons, step, hv]
  rw [Reads, List.cons_append, hstep]
  rcases h with ⟨hn, s', hr, hc⟩ | h
  · exact .inl ⟨hn, s', hr, hc.afterValue, hc.depth, hc.pending⟩
  · exact .inr h

theorem Reads.minus (hv : s.afterValue = false)
    (h : Reads .signed t (s.above .negation s.output) (s.above .negation s.output) ts r) :
    Reads .signed (.minus t) s s (.op .sub :: ts) r := by
  have hstep : s.run (.op .sub :: (ts ++ r)) = (s.above .negation s.output).run (ts ++ r) := by
    simp [run_cons, step, hv]
  rw [Reads, List.cons_append, hstep]
  rcases h with ⟨hn, s', hr, hc⟩ | h
  · exact .inl ⟨hn, s', hr, hc.pendingOperator (fun _ h => h) rfl
      (by simp [ParseTree.postorder, Pending.token])⟩
  · exact .inr h

end

/-! ## Whole phrases -/

/-- A phrase is read up to its end, from every state in which it may start. -/
theorem Derives.reads {c : Category} {t : ParseTree} {ts r : List Token} {s s₀ : State}
    (h : Derives c ts t) (hs : c.Starts s s₀) (hf : c.Fits s) : Reads c t s s₀ ts r := by
  -- The state wants such a phrase (`hs`), and no operator around it is released within (`hf`).
  induction h generalizing s s₀ r with
  | number x =>
      obtain ⟨rfl, hv, hd⟩ := hs
      exact .inl ⟨hd, _, by simp [run_cons, step, value, hv], Completed.of_value rfl⟩
  | constant c =>
      obtain ⟨rfl, hv, hd⟩ := hs
      have hn : NamedFunction.ofName? c.name = none := by cases c <;> rfl
      exact .inl ⟨hd, _, by simp [run_cons, step, name, value, hv, hn], Completed.of_value rfl⟩
  | call _ ih =>
      obtain ⟨rfl, hv, hd⟩ := hs
      exact Reads.call hv hd fun hd => ih ⟨rfl, hv, hd⟩ (.cons rfl rfl)
  | group _ ih =>
      obtain ⟨rfl, hv, hd⟩ := hs
      exact Reads.group hv hd hf fun hd => ih ⟨rfl, hv, hd⟩ (.cons rfl rfl)
  | bare _ ih => exact (ih hs hf).mono fun p hp => by cases hp
  | raised _ _ iha ihb =>
      obtain ⟨rfl, hv, hd⟩ := hs
      exact Reads.raised (iha ⟨rfl, hv, hd⟩ hf) (ihb ⟨rfl, rfl, hd⟩ (.cons rfl rfl))
  | unsigned _ ih => exact (ih hs hf).mono fun _ h => h
  | plus _ ih =>
      obtain ⟨rfl, hv, hd⟩ := hs
      exact Reads.plus hv (ih ⟨rfl, hv, hd⟩ hf)
  | minus _ ih =>
      obtain ⟨rfl, hv, hd⟩ := hs
      exact Reads.minus hv (ih ⟨rfl, rfl, hd⟩ (.cons rfl rfl))
  | @chain l ts a us t _ hd' iha ihr =>
      obtain ⟨rfl, hv, hd⟩ := hs
      have ho := Category.starts_operand l hv hd
      simp only [Reads, List.append_assoc]
      rcases iha (r := us ++ r) ho hf.operand with ⟨hn, s', hr, hc⟩ | ⟨hn, hr⟩
      · rw [hr]
        exact (ihr ⟨hc.mono fun _ => Category.leaves_operand, hn⟩ hf).mono fun _ h => h
      · have := Derives.nesting_rest hd'
        exact .inr ⟨by omega, hr⟩
  | done l a =>
      obtain ⟨hc, hd⟩ := hs
      exact .inl ⟨hd, s₀, rfl, hc.mono fun _ h => h⟩
  | @join l o a us b vs t ho _ hd' ihb ihr =>
      obtain ⟨hc, hd⟩ := hs
      have hstep : s₀.run (.op o :: (us ++ (vs ++ r))) =
          (s.above (.op o) (a.postorder.reverse ++ s.output)).run (us ++ (vs ++ r)) := by
        simp [run_cons, hc.operator ho hf]
      have hw := Category.starts_operand (s := s.above (.op o) (a.postorder.reverse ++ s.output)) l rfl
        (by simp only; omega)
      have hf' : l.operand.Fits (s.above (.op o) (a.postorder.reverse ++ s.output)) := by
        subst ho
        cases o <;> exact .cons rfl rfl
      simp only [Reads, List.append_assoc, List.cons_append, hstep]
      rcases ihb (r := vs ++ r) hw hf' with ⟨hn, s', hr, hc'⟩ | ⟨hn, hr⟩
      · rw [hr]
        simp only at hn
        refine (ihr ⟨hc'.pendingOperator (fun _ => Category.leaves_operand) ?_ ?_, ?_⟩ hf).mono
          fun _ h => h
        · subst ho
          cases o <;> rfl
        · simp [ParseTree.postorder, Pending.token]
        · simp only [ParseTree.nesting]
          omega
      · have := Derives.nesting_rest hd'
        simp only [ParseTree.nesting] at this
        simp only at hn
        exact .inr ⟨by omega, hr⟩

/-! ## Whole texts -/

theorem Completed.finish {t : ParseTree} {s' : State} (h : Completed (.chain .sum) t .initial s') :
    s'.finish = .ok t.postorder := by
  obtain ⟨newer, hp, hl, ho⟩ := h.pending
  have hr := release_append (p := fun _ => true) hp (by simp) (by simp [initial])
  have hp : s'.pending = newer := by simpa [initial] using hp
  have hopen : .opening ∉ newer := by
    intro hm
    cases hl .opening hm
  have ho : (newer.map Pending.token).reverse ++ s'.output = t.postorder.reverse := by
    simpa [initial] using ho
  simp [State.finish, h.afterValue, hp, hopen, hr, ho]

theorem Derives.ne_nil {c : Category} {ts : List Token} {t : ParseTree} (h : Derives c ts t)
    (hc : ∀ l left, c ≠ .rest l left) : ts ≠ [] := by
  induction h with
  | bare _ ih | unsigned _ ih => exact ih (by simp)
  | @chain l _ _ _ _ _ _ ih _ =>
      have := ih (by cases l <;> simp [Level.operand])
      simp [this]
  | done l a => exact absurd rfl (hc l a)
  | _ => simp

/-- A sentence is put in order, unless its parentheses nest too deep. -/
theorem Derives.ofTokens {ts : List Token} {t : ParseTree} (h : Sentence ts t) :
    PostfixOrder.ofTokens ts = if t.nesting ≤ maxDepth then .ok t.postorder else .error .tooDeep := by
  have hne : ts.isEmpty = false := by simpa using h.ne_nil (by simp)
  have hr : Reads (.chain .sum) t .initial .initial ts [] :=
    h.reads ⟨rfl, rfl, Nat.zero_le _⟩ (by simp [Category.Fits, initial])
  simp only [Reads, List.append_nil, initial, Nat.zero_add] at hr
  rcases hr with ⟨hn, s', hr, hc⟩ | ⟨hn, hr⟩
  · simp [PostfixOrder.ofTokens, hne, initial, hr, State.run, hc.finish, hn]
  · simp [PostfixOrder.ofTokens, hne, initial, hr, Nat.not_le.mpr hn]

end Grammar

end DeskCalculator
