import DeskCalculator.Proofs.Canonical.Tally

/-!
# Percent literals behind a word

A percent literal is written in parentheses. Behind a word these are read as the parentheses of a call,
and nowhere else does a rule before the trigonometric calls write a parenthesis that was not asked for.
-/

namespace DeskCalculator.Canonical

open Character Rule

/-! ## Words before a place -/

/-- The last character that is not white space belongs to a word. -/
def behindWord (before : List Char) : Bool :=
  (before.reverse.dropWhile isWhiteSpace).head?.any isWord

theorem behindWord_concat (before : List Char) (c : Char) :
    behindWord (before ++ [c]) = if isWhiteSpace c then behindWord before else isWord c := by
  cases hc : isWhiteSpace c <;> simp [behindWord, hc]

theorem Tally.behindWord_read {s : Tally} {before : List Char}
    (h : s.behindWord = Canonical.behindWord before) (text : List Char) :
    (s.read text).behindWord = Canonical.behindWord (before ++ text) := by
  induction text generalizing s before with
  | nil => rw [List.append_nil, Tally.read_nil, h]
  | cons c text ih =>
      have hnext : (s.next c).behindWord = Canonical.behindWord (before ++ [c]) := by
        rw [behindWord_concat, ← h]
        rfl
      rw [Tally.read_cons, ih hnext, List.append_assoc, List.singleton_append]

theorem Tally.behindWord_ofText (text : List Char) :
    (ofText text).behindWord = Canonical.behindWord text :=
  @Tally.behindWord_read ⟨false, 0, 0⟩ [] rfl text

/-- A literal with a percent sign stands behind a word, perhaps with white space between them. -/
def PercentBehindWord (raw : List Char) : Prop :=
  ∃ before literal after, raw = before ++ literal ++ '%' :: after ∧ IsLiteral literal ∧
    (∀ c ∈ before.getLast?, isDecimalDigit c = false) ∧ behindWord before = true

/-! ## Signs of typography -/

theorem eq_of_asciiSign {c d : Char} (hd : d ∉ ['*', '/', '-']) (h : asciiSign c = d) : c = d := by
  subst h
  unfold asciiSign at hd ⊢
  split <;> first | rfl | exact absurd hd (by decide)

theorem map_asciiSign_literal {word : List Char} (h : IsLiteral (word.map asciiSign)) :
    word.map asciiSign = word := by
  have hop : ∀ c ∈ ['*', '/', '-'], isDecimalDigit c = false ∧ c ≠ '.' := forall_mem_of_all (by decide)
  conv_rhs => rw [← List.map_id word]
  refine List.map_congr_left fun c hc => (eq_of_asciiSign (fun hm => ?_) rfl).symm
  obtain ⟨hd, hp⟩ := hop _ hm
  rcases h.mem _ (List.mem_map_of_mem hc) with hc | hc
  · simp [hd] at hc
  · exact hp hc

theorem asciiSign_of_literal {c : Char} (h : isDecimalDigit c = true ∨ c = '.') : asciiSign c = c := by
  unfold asciiSign
  split <;> first | rfl | exact absurd h (by decide +kernel)

theorem isDecimalDigit_asciiSign (c : Char) : isDecimalDigit (asciiSign c) = isDecimalDigit c := by
  unfold asciiSign
  split <;> rfl

theorem behindWord_map_asciiSign (text : List Char) :
    behindWord (text.map asciiSign) = behindWord text := by
  rw [← Tally.behindWord_ofText, ← Tally.behindWord_ofText, Tally.ofText, read_map_asciiSign,
    Tally.ofText]

/-- The typographic signs are no part of a literal and of no word. -/
theorem percentBehindWord_map_asciiSign {raw : List Char} :
    PercentBehindWord (raw.map asciiSign) ↔ PercentBehindWord raw := by
  constructor
  · rintro ⟨_, _, _, ht, hl, hd, hw⟩
    obtain ⟨_, _, rfl, h, hafter⟩ := List.map_eq_append_iff.mp ht
    obtain ⟨before, literal, rfl, rfl, rfl⟩ := List.map_eq_append_iff.mp h
    obtain ⟨p, after, rfl, hp, rfl⟩ := List.map_eq_cons_iff.mp hafter
    obtain rfl := eq_of_asciiSign (by decide) hp
    refine ⟨before, literal, after, rfl, map_asciiSign_literal hl ▸ hl, ?_,
      by rwa [behindWord_map_asciiSign] at hw⟩
    intro c hc
    rw [← isDecimalDigit_asciiSign]
    exact hd _ (by simpa using ⟨c, hc, rfl⟩)
  · rintro ⟨before, literal, after, rfl, hl, hd, hw⟩
    have hliteral : literal.map asciiSign = literal := by
      conv_rhs => rw [← List.map_id literal]
      exact List.map_congr_left fun c hc => asciiSign_of_literal (hl.mem c hc)
    refine ⟨before.map asciiSign, literal, after.map asciiSign, ?_, hl, ?_,
      by rwa [behindWord_map_asciiSign]⟩
    · rw [List.map_append, List.map_append, hliteral]
      rfl
    · simpa [isDecimalDigit_asciiSign] using hd

/-! ## What the rule writes -/

section

variable {s s' : Tally} {previous : Option Char} {text literal : List Char}

theorem read_percent_taken (h : IsLiteral literal) :
    s.read (literal ++ ['%']) = ⟨false, s.calls, s.signs⟩ := by
  rw [Tally.read_append, Tally.read_literal h, Tally.read_cons,
    Tally.next_plain (by decide) (by decide) (by decide)]
  rfl

theorem read_percent_written (h : IsLiteral literal) : s.read ("(".toList ++ literal ++ "/100)".toList) =
    ⟨false, if s.behindWord = true then s.calls + 1 else s.calls, s.signs⟩ := by
  have hopen : "(".toList = ['('] := by decide
  rw [hopen, List.append_assoc, List.singleton_append, Tally.read_cons, Tally.next_opening,
    Tally.read_append, Tally.read_literal h,
    Tally.read_of_last (c := ')') rfl (by decide) (forall_mem_of_all (by decide))]
  rfl

/-- The rule may only add calls. -/
theorem below_percent (h : Tally.Below s s') :
    Tally.Below (s.read text) (s'.read (percent.applyFrom 0 previous text)) := by
  refine related_applyFrom (signRule_takes _ _ _) (fun _ _ c h => h.next c) ?_ h previous text
  rintro previous taken rest r hr hl s s' ⟨-, hc, hs⟩
  obtain ⟨literal, hlit, rfl, hw⟩ := taken_of_signRule hr hl
  show Tally.Below (s.read _) (s'.read _)
  rw [hw, read_percent_taken hlit, read_percent_written hlit]
  refine ⟨rfl, ?_, hs⟩
  show s.calls ≤ if s'.behindWord = true then s'.calls + 1 else s'.calls
  split <;> omega

/-- The text behind `before` counts like what is written for it, if no percent literal stands behind a
word and the text does not go on with a literal that began before. -/
theorem read_percent_from {before : List Char} (hb : s.behindWord = behindWord before)
    (hd : ∀ d ∈ before.getLast?, isDecimalDigit d = true → literalBefore? '%' text = none)
    (hn : ¬ PercentBehindWord (before ++ text)) :
    s.read (percent.applyFrom 0 before.getLast? text) = s.read text := by
  generalize hp : before.getLast? = previous
  refine applyFrom_induction (motive := fun previous text written => ∀ (before : List Char) (s : Tally),
    before.getLast? = previous → s.behindWord = behindWord before →
    (∀ d ∈ before.getLast?, isDecimalDigit d = true → literalBefore? '%' text = none) →
    ¬ PercentBehindWord (before ++ text) →
    s.read written = s.read text) (signRule_takes _ _ _) (by simp) ?_ ?_ previous text
    before s hp hb hd hn
  · intro previous c rest written hr ih before s _ hb _ hn
    refine ih (before ++ [c]) (s.next c) (by simp) (Tally.behindWord_read hb [c]) ?_ (by simpa using hn)
    intro d hd hdigit
    obtain rfl : c = d := by simpa using hd
    exact literalBefore?_of_cons (by decide) (by decide) hdigit (Option.map_eq_none_iff.mp hr)
  · intro previous taken rest written r hr hl ih before s _ hb hd hn
    obtain ⟨literal, hlit, rfl, hw⟩ := taken_of_signRule hr hl
    have hfree : s.behindWord = false := by
      rw [hb, ← Bool.not_eq_true]
      refine fun hword => hn ⟨before, literal, rest, by simp, hlit, fun d hd' => ?_, hword⟩
      rw [← Bool.not_eq_true]
      intro hdigit
      have hnone : literalBefore? '%' (literal ++ ['%'] ++ rest) = none := hd d hd' hdigit
      rw [List.append_assoc, List.singleton_append,
        literalBefore?_of_isLiteral (by decide) (by decide) hlit] at hnone
      cases hnone
    have hsame : s.read r.written = s.read (literal ++ ['%']) := by
      rw [hw, read_percent_written hlit, read_percent_taken hlit, if_neg (by simp [hfree])]
    rw [Tally.read_append rest, Tally.read_append written, hsame]
    refine ih (before ++ (literal ++ ['%'])) _ (by simp) (Tally.behindWord_read hb _) ?_
      (by simpa using hn)
    intro d hd hdigit
    obtain rfl : '%' = d := by simpa [← List.append_assoc] using hd
    exact absurd hdigit (by decide)

theorem ofText_percent (hn : ¬ PercentBehindWord text) :
    Tally.ofText (percent.apply text) = Tally.ofText text :=
  @read_percent_from ⟨false, 0, 0⟩ text [] rfl (by simp) hn

theorem ne_of_behindWord {front : List Char} {d : Char} (h : behindWord (front ++ [d]) = true) :
    d ≠ '.' ∧ d ≠ '%' := by
  have hplain : ∀ c ∈ ['.', '%'], isWhiteSpace c = false ∧ isWord c = false :=
    forall_mem_of_all (by decide)
  rw [behindWord_concat] at h
  refine ⟨?_, ?_⟩ <;> rintro rfl <;> simp [hplain] at h

/-- No match crosses a character that is no digit, point or percent sign, so a literal behind it is taken
whole. -/
theorem percent_apply_literal {front after : List Char} {d : Char} (hd : isDecimalDigit d = false)
    (hp : d ≠ '.') (hs : d ≠ '%') (h : IsLiteral literal) :
    percent.apply (front ++ [d] ++ literal ++ '%' :: after) =
      percent.apply front ++ [d] ++ ("(".toList ++ literal ++ "/100)".toList) ++
        percent.applyFrom 0 (some '%') after := by
  have hseparates : Separates percent d := signRule_separates hd hp hs
  have hr : percent none (literal ++ ['%'] ++ after) =
      some ⟨(literal ++ ['%']).length, "(".toList ++ literal ++ "/100)".toList⟩ := by
    rw [List.append_assoc, List.singleton_append, percent, signRule,
      literalBefore?_of_isLiteral (by decide) (by decide) h]
    simp
  have htaken := apply_taken hr rfl (by simp)
  rw [List.getLast?_concat] at htaken
  have hfront := hseparates.apply_append percent_bounded front (literal ++ ['%'] ++ after)
  rw [htaken] at hfront
  simpa using hfront

/-- Behind a word the rule adds one. -/
theorem calls_lt_percent (h : PercentBehindWord text) :
    (Tally.ofText text).calls < (Tally.ofText (percent.apply text)).calls := by
  obtain ⟨before, literal, after, rfl, hlit, hdigit, hword⟩ := h
  obtain ⟨front, d, rfl⟩ : ∃ front d, before = front ++ [d] := by
    rcases List.eq_nil_or_concat before with rfl | ⟨front, d, rfl⟩
    · cases hword
    · exact ⟨front, d, List.concat_eq_append⟩
  obtain ⟨hp, hs⟩ := ne_of_behindWord hword
  have hbelow :
      Tally.Below (Tally.ofText (front ++ [d])) (Tally.ofText (percent.apply front ++ [d])) := by
    rw [Tally.ofText, Tally.ofText, Tally.read_append, Tally.read_append]
    exact (below_percent (Tally.Below.refl _)).read [d]
  have hbehind : (Tally.ofText (percent.apply front ++ [d])).behindWord = true := by
    rw [← hbelow.behindWord, Tally.behindWord_ofText, hword]
  generalize hl : Tally.ofText (front ++ [d]) = s at hbelow
  generalize hr : Tally.ofText (percent.apply front ++ [d]) = s' at hbelow hbehind
  have hleft : Tally.ofText (front ++ [d] ++ literal ++ '%' :: after) =
      Tally.read ⟨false, s.calls, s.signs⟩ after := by
    have htext :
        front ++ [d] ++ literal ++ '%' :: after = front ++ [d] ++ (literal ++ ['%']) ++ after := by simp
    rw [htext, Tally.ofText_append, Tally.ofText_append, hl, read_percent_taken hlit]
  have hright : Tally.ofText (percent.apply (front ++ [d] ++ literal ++ '%' :: after)) =
      Tally.read ⟨false, s'.calls + 1, s'.signs⟩ (percent.applyFrom 0 (some '%') after) := by
    rw [percent_apply_literal (hdigit d (by simp)) hp hs hlit, Tally.ofText_append, Tally.ofText_append,
      hr, read_percent_written hlit, if_pos hbehind]
  have hafter : Tally.Below (Tally.read ⟨false, s.calls + 1, s.signs⟩ after)
      (Tally.read ⟨false, s'.calls + 1, s'.signs⟩ (percent.applyFrom 0 (some '%') after)) :=
    below_percent ⟨rfl, Nat.succ_le_succ hbelow.calls, hbelow.signs⟩
  rw [hleft, hright]
  exact Nat.lt_of_lt_of_le (by rw [Tally.calls_read_succ]; exact Nat.lt_succ_self _) hafter.calls

end

end DeskCalculator.Canonical
