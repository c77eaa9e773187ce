import DeskCalculator.Proofs.Canonical.FunctionCall

/-!
# The calls that a text asks for

A parenthesis behind a word is read as a call, and a factorial sign will become one. A text is read
character by character, and what was read so far counts only by these two numbers and by whether a word
stands before the place. Most rules write texts that count like what they take.
-/

namespace DeskCalculator.Canonical

open Character Rule

/-! ## Tallies -/

/-- What counts of a text that was read. -/
structure Tally where
  /-- The last character that is not white space belongs to a word. -/
  behindWord : Bool
  /-- How many parentheses stand behind a word. -/
  calls : Nat
  /-- How many factorial signs there are. -/
  signs : Nat

namespace Tally

def next (s : Tally) (c : Char) : Tally where
  behindWord := if isWhiteSpace c then s.behindWord else isWord c
  calls := if c = '(' ∧ s.behindWord = true then s.calls + 1 else s.calls
  signs := if c = '!' then s.signs + 1 else s.signs

def read (s : Tally) (text : List Char) : Tally := text.foldl next s

/-- The tally of a whole text. -/
def ofText (text : List Char) : Tally := read ⟨false, 0, 0⟩ text

section

variable {s : Tally} {text : List Char} {c : Char}

@[simp] theorem read_nil : s.read [] = s := rfl

@[simp] theorem read_cons : s.read (c :: text) = (s.next c).read text := rfl

@[simp] theorem read_append (rest : List Char) : s.read (text ++ rest) = (s.read text).read rest :=
  List.foldl_append

theorem ofText_append (text rest : List Char) : ofText (text ++ rest) = (ofText text).read rest :=
  read_append rest

theorem next_space (h : isWhiteSpace c = true) : s.next c = s := by
  have hne : c ≠ '(' ∧ c ≠ '!' := by
    refine ⟨?_, ?_⟩ <;> rintro rfl <;> exact absurd h (by decide)
  simp [next, h, hne]

theorem next_opening :
    s.next '(' = ⟨false, if s.behindWord = true then s.calls + 1 else s.calls, s.signs⟩ := by
  have h : isWhiteSpace '(' = false ∧ isWord '(' = false := by decide
  simp [next, h]

theorem next_factorial : s.next '!' = ⟨false, s.calls, s.signs + 1⟩ := by
  have h : isWhiteSpace '!' = false ∧ isWord '!' = false := by decide
  simp [next, h]

theorem next_plain (ho : c ≠ '(') (hs : c ≠ '!') (hw : isWhiteSpace c = false) :
    s.next c = ⟨isWord c, s.calls, s.signs⟩ := by
  simp [next, ho, hs, hw]

theorem read_plain (h : ∀ d ∈ text, d ≠ '(' ∧ d ≠ '!') :
    (s.read text).calls = s.calls ∧ (s.read text).signs = s.signs := by
  induction text generalizing s with
  | nil => exact ⟨rfl, rfl⟩
  | cons d text ih =>
      obtain ⟨ho, hs⟩ := h d (by simp)
      obtain ⟨hcalls, hsigns⟩ := @ih (s.next d) fun e he => h e (by simp [he])
      rw [read_cons, hcalls, hsigns]
      simp [next, ho, hs]

/-- A text without parentheses and factorial signs counts only by its end. -/
theorem read_of_last (hl : text.getLast? = some c) (hw : isWhiteSpace c = false)
    (h : ∀ d ∈ text, d ≠ '(' ∧ d ≠ '!') :
    s.read text = ⟨isWord c, s.calls, s.signs⟩ := by
  obtain ⟨front, rfl⟩ := List.getLast?_eq_some_iff.mp hl
  obtain ⟨hcalls, hsigns⟩ := read_plain (s := s) fun d hd => h d (List.mem_append_left _ hd)
  obtain ⟨ho, hs⟩ := h c (by simp)
  rw [read_append, read_cons, next_plain ho hs hw, hcalls, hsigns]
  rfl

theorem plain_of_isWord (h : isWord c = true) : c ≠ '(' ∧ c ≠ '!' ∧ isWhiteSpace c = false := by
  refine ⟨?_, ?_, ?_⟩
  · rintro rfl
    exact absurd h (by decide)
  · rintro rfl
    exact absurd h (by decide)
  · cases hw : isWhiteSpace c with
    | false => rfl
    | true => simp [isWord_of_isWhiteSpace hw] at h

theorem read_word (hne : text ≠ []) (h : ∀ d ∈ text, isWord d = true) :
    s.read text = ⟨true, s.calls, s.signs⟩ := by
  have hlast := h _ (List.getLast_mem hne)
  rw [read_of_last (List.getLast?_eq_some_getLast hne) (plain_of_isWord hlast).2.2 fun d hd =>
    ⟨(plain_of_isWord (h d hd)).1, (plain_of_isWord (h d hd)).2.1⟩, hlast]

theorem read_literal (h : IsLiteral text) : s.read text = ⟨true, s.calls, s.signs⟩ := by
  obtain ⟨c, hl, hc⟩ := h.exists_getLast
  have hw := isWord_of_isDecimalDigit hc
  rw [read_of_last hl (plain_of_isWord hw).2.2 fun d hd => ?_, hw]
  rcases h.mem d hd with hd | rfl
  · have hd := plain_of_isWord (isWord_of_isDecimalDigit hd)
    exact ⟨hd.1, hd.2.1⟩
  · decide

theorem read_name (f : NamedFunction) : s.read f.name.toList = ⟨true, s.calls, s.signs⟩ := by
  have h : ∃ c, f.name.toList.getLast? = some c ∧ isWord c = true ∧
      ∀ d ∈ f.name.toList, d ≠ '(' ∧ d ≠ '!' := by
    cases f <;> exact ⟨_, rfl, by decide, forall_mem_of_all (by decide)⟩
  obtain ⟨c, hl, hw, hp⟩ := h
  rw [read_of_last hl (plain_of_isWord hw).2.2 hp, hw]

end

/-! ## Texts that count alike -/

/-- The two count the same, except that the second may hold more calls. -/
structure Below (s s' : Tally) : Prop where
  behindWord : s.behindWord = s'.behindWord
  calls : s.calls ≤ s'.calls
  signs : s.signs = s'.signs

theorem Below.refl (s : Tally) : Below s s := ⟨rfl, Nat.le_refl _, rfl⟩

theorem Below.next {s s' : Tally} (h : Below s s') (c : Char) : Below (s.next c) (s'.next c) := by
  obtain ⟨hb, hc, hs⟩ := h
  refine ⟨?_, ?_, ?_⟩
  · simp [Tally.next, hb]
  · simp only [Tally.next, hb]
    split <;> omega
  · simp [Tally.next, hs]

theorem Below.read {s s' : Tally} (h : Below s s') (text : List Char) :
    Below (s.read text) (s'.read text) := by
  induction text generalizing s s' with
  | nil => exact h
  | cons c text ih => exact ih (h.next c)

theorem calls_le_read (s : Tally) (text : List Char) : s.calls ≤ (s.read text).calls := by
  induction text generalizing s with
  | nil => exact Nat.le_refl _
  | cons c text ih =>
      refine Nat.le_trans ?_ (ih (s.next c))
      simp only [next]
      split <;> omega

/-- In a text without calls there are none from any place on. -/
theorem calls_of_cons {s : Tally} {c : Char} {text : List Char}
    (h : (s.read (c :: text)).calls = s.calls) :
    (s.next c).calls = s.calls ∧ ((s.next c).read text).calls = (s.next c).calls := by
  have hle := (s.next c).calls_le_read text
  have hnext := s.calls_le_read [c]
  simp only [read_cons, read_nil] at h hnext
  omega

theorem calls_read_succ (behind : Bool) (calls signs : Nat) (text : List Char) :
    (read ⟨behind, calls + 1, signs⟩ text).calls = (read ⟨behind, calls, signs⟩ text).calls + 1 := by
  induction text generalizing behind calls signs with
  | nil => rfl
  | cons c text ih =>
      have hcalls : (if c = '(' ∧ behind = true then calls + 1 + 1 else calls + 1) =
          (if c = '(' ∧ behind = true then calls + 1 else calls) + 1 := by
        split <;> rfl
      simp only [read_cons, next, hcalls]
      exact ih _ _ _

end Tally

/-! ## Rules that keep the tally -/

/-- What the rule takes counts like what it writes. -/
abbrev KeepsTally (rule : Rule) : Prop := rule.Keeps Tally.next

theorem KeepsTally.read_apply {rule : Rule} (h : KeepsTally rule) (s : Tally) (text : List Char) :
    s.read (rule.apply text) = s.read text :=
  h.foldl_apply s text

theorem pi_keepsTally : KeepsTally pi := by
  intro previous text r h
  obtain ⟨word, rest, rfl, rfl, hne, hw⟩ := pi_eq_some h
  refine ⟨word, rest, rfl, rfl, hne, fun s => ?_⟩
  have hwritten : s.read "math.pi".toList = ⟨true, s.calls, s.signs⟩ :=
    Tally.read_of_last (c := 'i') rfl (by decide) (forall_mem_of_all (by decide))
  exact hwritten.trans (Tally.read_word hne hw).symm

theorem euler_keepsTally : KeepsTally euler := by
  intro previous text r h
  obtain ⟨rest, rfl, rfl⟩ := euler_eq_some h
  refine ⟨['e'], rest, rfl, rfl, List.cons_ne_nil _ _, fun s => ?_⟩
  have hwritten : s.read "math.e".toList = ⟨true, s.calls, s.signs⟩ :=
    Tally.read_of_last (c := 'e') rfl (by decide) (forall_mem_of_all (by decide))
  exact hwritten.trans (Tally.read_word (List.cons_ne_nil _ _) (forall_mem_of_all (by decide))).symm

theorem functionCall_keepsTally : KeepsTally functionCall := by
  intro previous text r h
  obtain ⟨-, f, word, rest, rfl, hw, rfl⟩ := functionCall_eq_some h
  refine ⟨word ++ ['('], rest, by simp, by simp, by simp, fun s => ?_⟩
  show s.read _ = s.read _
  rw [Piece.written, Tally.read_append, Tally.read_append, Tally.read_name,
    Tally.read_word hw.isWord.1 hw.isWord.2]

/-! ## Signs -/

/-- An operator, or a sign of typography for one. -/
theorem next_operator : ∀ c ∈ ['+', '-', '*', '/', '^', '×', '÷', '–', '−'], ∀ s : Tally,
    s.next c = ⟨false, s.calls, s.signs⟩ := by
  have hplain :
      ∀ c ∈ ['+', '-', '*', '/', '^', '×', '÷', '–', '−'], c ≠ '(' ∧ c ≠ '!' ∧ isWhiteSpace c = false ∧
      isWord c = false := forall_mem_of_all (by decide +kernel)
  intro c hc s
  obtain ⟨ho, hs, hw, hword⟩ := hplain c hc
  rw [Tally.next_plain ho hs hw, hword]

theorem next_asciiSign (c : Char) (s : Tally) : s.next (asciiSign c) = s.next c := by
  unfold asciiSign
  split
  · rw [next_operator '*' (by decide), next_operator '×' (by decide)]
  · rw [next_operator '/' (by decide), next_operator '÷' (by decide)]
  · rw [next_operator '-' (by decide), next_operator '–' (by decide)]
  · rw [next_operator '-' (by decide), next_operator '−' (by decide)]
  · rfl

theorem read_powerSign (c : Char) (s : Tally) : s.read (powerSign c) = s.next c := by
  unfold powerSign
  split
  · rename_i hc
    obtain rfl : c = '^' := by simpa using hc
    rw [Tally.read_cons, Tally.read_cons, Tally.read_nil, next_operator '*' (by decide),
      next_operator '*' (by decide), next_operator '^' (by decide)]
  · rfl

theorem read_map_asciiSign (s : Tally) (text : List Char) :
    s.read (text.map asciiSign) = s.read text := by
  induction text generalizing s with
  | nil => rfl
  | cons c text ih => rw [List.map_cons, Tally.read_cons, next_asciiSign, ih, Tally.read_cons]

theorem read_flatMap_powerSign (s : Tally) (text : List Char) :
    s.read (text.flatMap powerSign) = s.read text := by
  induction text generalizing s with
  | nil => rfl
  | cons c text ih => rw [List.flatMap_cons, Tally.read_append, read_powerSign, ih, Tally.read_cons]

end DeskCalculator.Canonical
