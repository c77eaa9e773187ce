import DeskCalculator.Rule

/-!
# Rules on the two sides of a separator

A character that no match crosses splits a text: the rule does to each side what it does to it alone.
-/

namespace DeskCalculator.Rule

/-! ## Separators -/

/-- No match holds the character, and a text behind it is read like a whole text. -/
structure Opens (rule : Rule) (c : Char) : Prop where
  here : ∀ previous rest, rule previous (c :: rest) = none
  after : ∀ text, rule (some c) text = rule none text

/-- The character splits a text: a text before it is read as if it ended there. -/
structure Separates (rule : Rule) (c : Char) : Prop extends Opens rule c where
  before : ∀ previous text rest, rule previous (text ++ c :: rest) = rule previous text

/-- The rule takes no more than there is. -/
def Bounded (rule : Rule) : Prop :=
  ∀ previous text r, rule previous text = some r → r.length ≤ text.length

section

variable {rule : Rule} {c : Char}

theorem Opens.applyFrom (h : Opens rule c) (text : List Char) :
    rule.applyFrom 0 (some c) text = rule.apply text := by
  cases text with
  | nil => rfl
  | cons d rest => simp only [apply, Rule.applyFrom, h.after]

theorem Opens.applyFrom_cons (h : Opens rule c) (previous : Option Char) (rest : List Char) :
    rule.applyFrom 0 previous (c :: rest) = c :: rule.apply rest := by
  rw [applyFrom_none (h.here previous rest), h.applyFrom]

theorem Opens.apply_cons (h : Opens rule c) (rest : List Char) :
    rule.apply (c :: rest) = c :: rule.apply rest :=
  h.applyFrom_cons none rest

theorem Separates.applyFrom_append (h : Separates rule c) (hb : Bounded rule) (text rest : List Char)
    (skip : Nat) (previous : Option Char) (hs : skip ≤ text.length) :
    rule.applyFrom skip previous (text ++ c :: rest) =
      rule.applyFrom skip previous text ++ c :: rule.apply rest := by
  induction text generalizing skip previous with
  | nil =>
      obtain rfl : skip = 0 := by simpa using hs
      exact h.applyFrom_cons previous rest
  | cons d text ih =>
      cases skip with
      | succ skip => exact ih skip (some d) (by simpa using hs)
      | zero =>
          have hd := h.before previous (d :: text) rest
          simp only [List.cons_append] at hd ⊢
          cases hr : rule previous (d :: text) with
          | none =>
              rw [applyFrom_none (hd.trans hr), applyFrom_none hr, ih 0 (some d) (by omega)]
              rfl
          | some r =>
              have hl : r.length ≤ text.length + 1 := by simpa using hb previous (d :: text) r hr
              rw [applyFrom_some (hd.trans hr), applyFrom_some hr, ih _ (some d) (by omega),
                List.append_assoc]

theorem Separates.apply_append (h : Separates rule c) (hb : Bounded rule) (text rest : List Char) :
    rule.apply (text ++ c :: rest) = rule.apply text ++ c :: rule.apply rest :=
  h.applyFrom_append hb text rest 0 none (by omega)

end

/-! ## Texts that stay -/

/-- There is no match within the text when `rest` follows it. -/
def Quiet (rule : Rule) : (previous : Option Char) → (text rest : List Char) → Prop
  | _, [], _ => True
  | previous, c :: text, rest =>
    rule previous (c :: (text ++ rest)) = none ∧ Quiet rule (some c) text rest

section

variable {rule : Rule} {previous : Option Char} {text rest : List Char}

theorem Quiet.applyFrom_append (h : Quiet rule previous text rest) :
    rule.applyFrom 0 previous (text ++ rest) =
      text ++ rule.applyFrom 0 (text.getLast?.or previous) rest := by
  induction text generalizing previous with
  | nil => rfl
  | cons c text ih =>
      have hl : (c :: text).getLast?.or previous = text.getLast?.or (some c) := by
        cases text with
        | nil => rfl
        | cons d text => simp [List.getLast?_cons]
      rw [List.cons_append, applyFrom_none h.1, ih h.2, hl, List.cons_append]

theorem Quiet.apply (h : Quiet rule none text []) : rule.apply text = text := by
  simpa [Rule.apply, applyFrom] using h.applyFrom_append

theorem Quiet.apply_append {c : Char} (h : Quiet rule none text (c :: rest)) (hc : Opens rule c) :
    rule.apply (text ++ c :: rest) = text ++ c :: rule.apply rest := by
  rw [Rule.apply, h.applyFrom_append, hc.applyFrom_cons]

theorem Quiet.of_forall (h : ∀ c ∈ text, ∀ previous after, rule previous (c :: after) = none) :
    Quiet rule previous text rest := by
  induction text generalizing previous with
  | nil => trivial
  | cons c text ih => exact ⟨h c (by simp) _ _, ih fun d hd => h d (by simp [hd])⟩

/-- Within a word nothing matches if nothing does at its start. -/
theorem Quiet.of_word {c : Char} {text : List Char} {good : Char → Bool}
    (hc : rule previous (c :: (text ++ rest)) = none)
    (hw : ∀ p d after, good p = true → good d = true → rule (some p) (d :: after) = none)
    (hg : ∀ d ∈ c :: text, good d = true) : Quiet rule previous (c :: text) rest := by
  refine ⟨hc, ?_⟩
  clear hc
  induction text generalizing c with
  | nil => trivial
  | cons d text ih =>
      exact ⟨hw c d _ (hg c (by simp)) (hg d (by simp)), ih fun e he => hg e (by simp_all)⟩

end

/-! ## Texts that are taken -/

theorem applyFrom_length (rule : Rule) (c : Char) (text rest : List Char) :
    rule.applyFrom text.length (some c) (text ++ rest) =
      rule.applyFrom 0 ((c :: text).getLast?) rest := by
  induction text generalizing c with
  | nil => rfl
  | cons d text ih => simpa [applyFrom, List.getLast?_cons] using ih d

theorem apply_taken {rule : Rule} {taken rest : List Char} {r : Replacement}
    (hr : rule none (taken ++ rest) = some r) (hl : r.length = taken.length) (hne : taken ≠ []) :
    rule.apply (taken ++ rest) = r.written ++ rule.applyFrom 0 taken.getLast? rest := by
  cases taken with
  | nil => exact absurd rfl hne
  | cons c text =>
      have hl : r.length - 1 = text.length := by simp [hl]
      have hr : rule none (c :: (text ++ rest)) = some r := hr
      rw [Rule.apply, List.cons_append, applyFrom_some hr, hl, applyFrom_length]

/-! ## Match by match -/

/-- The rule takes at least one character, and no more than there are. -/
structure Takes (rule : Rule) : Prop where
  positive : ∀ previous text r, rule previous text = some r → 0 < r.length
  bounded : Bounded rule

/-- A rule runs over a text match by match, and the characters between the matches stay. -/
theorem applyFrom_induction {rule : Rule} (hrule : Takes rule)
    {motive : (previous : Option Char) → (text written : List Char) → Prop}
    (nil : ∀ previous, motive previous [] [])
    (keep : ∀ previous c rest written, rule previous (c :: rest) = none → motive (some c) rest written →
      motive previous (c :: rest) (c :: written))
    (take : ∀ previous taken rest written r, rule previous (taken ++ rest) = some r →
      r.length = taken.length → motive taken.getLast? rest written →
      motive previous (taken ++ rest) (r.written ++ written))
    (previous : Option Char) (text : List Char) :
    motive previous text (rule.applyFrom 0 previous text) := by
  induction hn : text.length using Nat.strongRecOn generalizing previous text with
  | _ n ih =>
      cases text with
      | nil => exact nil previous
      | cons c rest =>
          cases hr : rule previous (c :: rest) with
          | none =>
              rw [applyFrom_none hr]
              exact keep _ _ _ _ hr (ih rest.length (by simp [← hn]) _ _ rfl)
          | some r =>
              have hpos := hrule.positive _ _ _ hr
              have hlen : r.length ≤ rest.length + 1 := hrule.bounded _ _ _ hr
              obtain ⟨taken, rest', rfl, hl⟩ :
                  ∃ taken rest', rest = taken ++ rest' ∧ taken.length = r.length - 1 :=
                ⟨rest.take (r.length - 1), rest.drop (r.length - 1), by simp, by simp; omega⟩
              rw [applyFrom_some hr, ← hl, applyFrom_length]
              refine take previous (c :: taken) rest' _ r hr (by simp only [List.length_cons]; omega)
                (ih _ ?_ _ _ rfl)
              simp only [List.length_append, List.length_cons] at hn
              omega

/-! ## Reading what a rule writes -/

section

variable {σ : Type} {next : σ → Char → σ} {rule : Rule}

/-- Two readers stay related over a text and what a rule writes for it, if each character keeps them so,
and each match. -/
theorem related_applyFrom {σ' : Type} {next' : σ' → Char → σ'} (hrule : Takes rule) {R : σ → σ' → Prop}
    (step : ∀ s s' c, R s s' → R (next s c) (next' s' c))
    (take : ∀ previous taken rest r, rule previous (taken ++ rest) = some r → r.length = taken.length →
      ∀ s s', R s s' → R (taken.foldl next s) (r.written.foldl next' s'))
    {s : σ} {s' : σ'} (h : R s s') (previous : Option Char) (text : List Char) :
    R (text.foldl next s) ((rule.applyFrom 0 previous text).foldl next' s') := by
  refine applyFrom_induction (motive := fun _ text written => ∀ s s', R s s' →
    R (text.foldl next s) (written.foldl next' s')) hrule (fun _ _ _ h => h) ?_ ?_ previous text s s' h
  · intro previous c rest written _ ih s s' h
    exact ih _ _ (step s s' c h)
  · intro previous taken rest written r hr hl ih s s' h
    rw [List.foldl_append, List.foldl_append]
    exact ih _ _ (take _ _ _ _ hr hl _ _ h)

/-- What the rule takes, at least one character, leads a reader to where what it writes leads it. -/
def Keeps (next : σ → Char → σ) (rule : Rule) : Prop :=
  ∀ previous text r, rule previous text = some r →
    ∃ taken rest, text = taken ++ rest ∧ r.length = taken.length ∧
    taken ≠ [] ∧ ∀ s, r.written.foldl next s = taken.foldl next s

namespace Keeps

variable (h : Keeps next rule)
include h

theorem takes : Takes rule where
  positive previous text r hr := by
    obtain ⟨taken, rest, -, hl, hne, -⟩ := h _ _ _ hr
    rw [hl]
    exact List.length_pos_iff.mpr hne
  bounded previous text r hr := by
    obtain ⟨taken, rest, rfl, hl, -⟩ := h _ _ _ hr
    simp [hl]

theorem foldl_apply (s : σ) (text : List Char) : (rule.apply text).foldl next s = text.foldl next s := by
  refine (related_applyFrom (R := Eq) h.takes (fun s s' c h => h ▸ rfl) ?_ (rfl : s = s) none text).symm
  rintro previous taken rest r hr hl s s' rfl
  obtain ⟨taken', rest', ht, hl', -, hs⟩ := h _ _ _ hr
  obtain ⟨rfl, -⟩ := List.append_inj ht (hl.symm.trans hl')
  exact (hs s).symm

end Keeps

end

end DeskCalculator.Rule
