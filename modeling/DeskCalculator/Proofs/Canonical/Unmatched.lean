import DeskCalculator.Proofs.Canonical.FunctionCall
import DeskCalculator.Proofs.Canonical.Literal
import DeskCalculator.Proofs.Outcome
import DeskCalculator.Proofs.Token.Lexer
import Mathlib.Order.Bounds.Basic

/-!
# Parentheses without a partner

A text is read parenthesis by parenthesis, and what was read so far counts by how many closed nothing and how
many are still open. What a rule writes counts as what it takes. So a canonical text is balanced just if the
typed one is, and a typed text that is not has no tokens that can be put in order.
-/

namespace DeskCalculator

open DeskCalculator.Except

namespace Parenthesis

/-! ## Unmatched parentheses -/

/-- What counts of the parentheses that were read. -/
structure Unmatched where
  /-- How many closed none. -/
  closings : Nat
  /-- How many are still open. -/
  openings : Nat

namespace Unmatched

def next : Unmatched → Parenthesis → Unmatched
  | ⟨closings, openings⟩, .opening => ⟨closings, openings + 1⟩
  | ⟨closings, 0⟩, .closing => ⟨closings + 1, 0⟩
  | ⟨closings, openings + 1⟩, .closing => ⟨closings, openings⟩

def read (s : Unmatched) (ps : List Parenthesis) : Unmatched := ps.foldl next s

section

variable {s : Unmatched} {ps : List Parenthesis}

@[simp] theorem read_nil : s.read [] = s := rfl

@[simp] theorem read_cons (p : Parenthesis) : s.read (p :: ps) = (s.next p).read ps := rfl

@[simp] theorem read_append (qs : List Parenthesis) : s.read (ps ++ qs) = (s.read ps).read qs :=
  List.foldl_append

@[simp] theorem next_opening_closing : (s.next .opening).next .closing = s := rfl

theorem closings_le_read (s : Unmatched) (ps : List Parenthesis) :
    s.closings ≤ (s.read ps).closings := by
  induction ps generalizing s with
  | nil => exact Nat.le_refl _
  | cons p ps ih =>
      refine Nat.le_trans ?_ (ih (s.next p))
      fun_cases next s p <;> simp

/-- As long as none closes nothing, the open ones are counted. -/
theorem read_eq_iff {closings n k : Nat} :
    read ⟨closings, n⟩ ps = ⟨closings, k⟩ ↔ openAfter n ps = some k := by
  induction ps generalizing n with
  | nil => simp [openAfter]
  | cons p ps ih =>
      cases p with
      | opening => exact ih
      | closing =>
          cases n with
          | succ n => exact ih
          | zero =>
              refine ⟨fun h => ?_, fun h => absurd h (by simp [openAfter])⟩
              have hle := closings_le_read ⟨closings + 1, 0⟩ ps
              have hread : read ⟨closings + 1, 0⟩ ps = ⟨closings, k⟩ := h
              rw [hread] at hle
              exact absurd hle (Nat.not_succ_le_self closings)

theorem read_of_balanced (h : Balanced ps) : s.read ps = s :=
  read_eq_iff.mpr (h.openAfter s.openings)

theorem read_replicate (n : Nat) :
    (s.read (List.replicate n .opening)).read (List.replicate n .closing) = s := by
  have h : Balanced (List.replicate n .opening ++ List.replicate n .closing) := by
    have hclose := openAfter_replicate_closing 0 n []
    rw [List.append_nil] at hclose
    rw [Balanced, openAfter_replicate_opening, hclose]
    rfl
  rw [← read_append, read_of_balanced h]

end

end Unmatched

/-- What counts of a whole text. -/
def unmatched (text : List Char) : Unmatched := Unmatched.read ⟨0, 0⟩ (ofText text)

theorem balanced_iff_unmatched {text : List Char} : Balanced (ofText text) ↔ unmatched text = ⟨0, 0⟩ :=
  Unmatched.read_eq_iff.symm

theorem unmatched_append (text rest : List Char) :
    unmatched (text ++ rest) = (unmatched text).read (ofText rest) := by
  rw [unmatched, ofText_append, Unmatched.read_append, ← unmatched]

/-! ## Balances -/

/-- How many more parentheses the text opens than it closes. -/
def balance (text : List Char) : Int := text.count '(' - text.count ')'

/-- The balances at all places of the text. -/
def prefixBalances (text : List Char) : Set Int := {b | ∃ p, p <+: text ∧ balance p = b}

theorem balance_append (text rest : List Char) :
    balance (text ++ rest) = balance text + balance rest := by
  simp only [balance, List.count_append]
  omega

/-- One more character: it opens a parenthesis, closes one, closes none that is open, or is none. -/
theorem concat_cases (text : List Char) (c : Char) :
    (balance (text ++ [c]) = balance text + 1 ∧
      unmatched (text ++ [c]) = ⟨(unmatched text).closings, (unmatched text).openings + 1⟩) ∨
    (balance (text ++ [c]) = balance text - 1 ∧ ∃ n, (unmatched text).openings = n + 1 ∧
      unmatched (text ++ [c]) = ⟨(unmatched text).closings, n⟩) ∨
    (balance (text ++ [c]) = balance text - 1 ∧ (unmatched text).openings = 0 ∧
      unmatched (text ++ [c]) = ⟨(unmatched text).closings + 1, 0⟩) ∨
    (balance (text ++ [c]) = balance text ∧ unmatched (text ++ [c]) = unmatched text) := by
  rw [unmatched_append]
  generalize unmatched text = s
  obtain ⟨closings, openings⟩ := s
  by_cases ho : c = '('
  · subst ho
    have hb : balance ['('] = 1 := by decide
    exact .inl ⟨by rw [balance_append, hb], rfl⟩
  by_cases hc : c = ')'
  · subst hc
    have hb : balance (text ++ [')']) = balance text - 1 := balance_append text [')']
    cases openings with
    | zero => exact .inr (.inr (.inl ⟨hb, rfl, rfl⟩))
    | succ n => exact .inr (.inl ⟨hb, n, rfl, rfl⟩)
  · refine .inr (.inr (.inr ⟨?_, ?_⟩))
    · simp [balance, ho, hc]
    · rw [ofText_other ho hc]
      rfl

theorem balance_eq_unmatched (text : List Char) :
    balance text = (unmatched text).openings - (unmatched text).closings := by
  induction text using List.reverseRecOn with
  | nil => rfl
  | append_singleton text c ih =>
      rcases concat_cases text c with ⟨hb, hu⟩ | ⟨hb, n, hn, hu⟩ | ⟨hb, hn, hu⟩ | ⟨hb, hu⟩ <;>
        rw [hb, hu, ih]
      all_goals grind

/-- The balance is least where the last parenthesis closes none that is open. -/
theorem isLeast_prefixBalances (text : List Char) :
    IsLeast (prefixBalances text) (-(unmatched text).closings) := by
  constructor
  · induction text using List.reverseRecOn with
    | nil => exact ⟨[], List.prefix_refl [], rfl⟩
    | append_singleton text c ih =>
        obtain ⟨p, hp, hb⟩ := ih
        have hp' : p <+: text ++ [c] := hp.trans (List.prefix_append text [c])
        rcases concat_cases text c with ⟨-, hu⟩ | ⟨-, n, -, hu⟩ | ⟨-, -, hu⟩ | ⟨-, hu⟩
        · exact ⟨p, hp', by rw [hb, hu]⟩
        · exact ⟨p, hp', by rw [hb, hu]⟩
        · refine ⟨text ++ [c], List.prefix_refl _, ?_⟩
          simp [balance_eq_unmatched, hu]
        · exact ⟨p, hp', by rw [hb, hu]⟩
  · rintro _ ⟨p, ⟨rest, rfl⟩, rfl⟩
    have hle := Unmatched.closings_le_read (unmatched p) (ofText rest)
    rw [balance_eq_unmatched, unmatched_append]
    omega

/-- A text is balanced if it opens as many as it closes, and at no place closes more. -/
theorem balanced_iff_balance {text : List Char} :
    Balanced (ofText text) ↔ balance text = 0 ∧ ∀ p, p <+: text → 0 ≤ balance p := by
  rw [balanced_iff_unmatched]
  obtain ⟨⟨p, hp, hb⟩, hle⟩ := isLeast_prefixBalances text
  rw [balance_eq_unmatched]
  constructor
  · intro h
    rw [h] at hle ⊢
    exact ⟨rfl, fun p hp => hle ⟨p, hp, rfl⟩⟩
  · rintro ⟨h, hpos⟩
    have := hpos p hp
    cases hu : unmatched text with
    | mk closings openings =>
        rw [hu] at h hb
        simp only at h hb
        congr <;> omega

end Parenthesis

namespace Canonical

open Character Parenthesis Rule

/-! ## Rules keep what is unmatched -/

/-- Reads a character, which may be a parenthesis. -/
def readChar (s : Unmatched) (c : Char) : Unmatched := s.read (ofText [c])

theorem foldl_readChar (s : Unmatched) (text : List Char) :
    text.foldl readChar s = s.read (ofText text) := by
  induction text generalizing s with
  | nil => rfl
  | cons c text ih =>
      rw [List.foldl_cons, ih, readChar, ← Unmatched.read_append, ← ofText_append, List.singleton_append]

/-- What the rule takes has the unmatched parentheses of what it writes. -/
theorem keeps_unmatched {rule : Rule} (h : ∀ previous text r, rule previous text = some r → ∃ taken rest,
    text = taken ++ rest ∧ r.length = taken.length ∧ taken ≠ [] ∧
    ∀ s : Unmatched, s.read (ofText r.written) = s.read (ofText taken)) : rule.Keeps readChar := by
  intro previous text r hr
  obtain ⟨taken, rest, ht, hl, hne, hread⟩ := h previous text r hr
  exact ⟨taken, rest, ht, hl, hne, fun s => by rw [foldl_readChar, foldl_readChar, hread]⟩

theorem ofText_of_isWord {word : List Char} (h : ∀ c ∈ word, isWord c = true) : ofText word = [] := by
  refine ofText_eq_nil_iff.mpr fun c hc => ⟨?_, ?_⟩ <;> rintro rfl <;> exact absurd (h _ hc) (by decide)

theorem ofText_of_isLiteral {literal : List Char} (h : IsLiteral literal) : ofText literal = [] := by
  refine ofText_eq_nil_iff.mpr fun c hc =>
    ⟨?_, ?_⟩ <;> rintro rfl <;> exact absurd (h.mem _ hc) (by decide)

/-- What is written around a number is balanced. -/
theorem signRule_keeps_unmatched {sign : Char} {before after : String} (ho : sign ≠ '(')
    (hc : sign ≠ ')') (hb : Parenthesis.Balanced (ofText before.toList ++ ofText after.toList)) :
    (signRule sign before after).Keeps readChar := by
  refine keeps_unmatched fun previous text r h => ?_
  obtain ⟨literal, hl, rfl⟩ := Option.map_eq_some_iff.mp h
  obtain ⟨hlit, rest, rfl⟩ := exists_after_of_literalBefore? hl
  refine ⟨literal ++ [sign], rest, by simp, by simp, by simp, fun s => ?_⟩
  rw [ofText_append, ofText_append, ofText_append, ofText_of_isLiteral hlit, ofText_other ho hc,
    List.append_nil, Unmatched.read_of_balanced hb]
  rfl

theorem percent_keeps_unmatched : percent.Keeps readChar :=
  signRule_keeps_unmatched (by decide) (by decide) (by decide)

theorem factorial_keeps_unmatched : factorial.Keeps readChar :=
  signRule_keeps_unmatched (by decide) (by decide) (by decide)

theorem pi_keeps_unmatched : pi.Keeps readChar := by
  refine keeps_unmatched fun previous text r h => ?_
  obtain ⟨word, rest, rfl, rfl, hne, hw⟩ := pi_eq_some h
  refine ⟨word, rest, rfl, rfl, hne, fun s => ?_⟩
  rw [ofText_of_isWord hw]
  rfl

theorem euler_keeps_unmatched : euler.Keeps readChar := by
  refine keeps_unmatched fun previous text r h => ?_
  obtain ⟨rest, rfl, rfl⟩ := euler_eq_some h
  exact ⟨['e'], rest, rfl, rfl, List.cons_ne_nil _ _, fun s => rfl⟩

theorem functionCall_keeps_unmatched : functionCall.Keeps readChar := by
  have hname (f : NamedFunction) : ofText f.name.toList = [] := by
    cases f <;> decide
  refine keeps_unmatched fun previous text r h => ?_
  obtain ⟨-, f, word, rest, rfl, hw, rfl⟩ := functionCall_eq_some h
  refine ⟨word ++ ['('], rest, by simp, by simp, by simp, fun s => ?_⟩
  rw [Piece.written, ofText_append, ofText_append, hname, ofText_of_isWord hw.isWord.2]

theorem ofText_map_asciiSign (text : List Char) : ofText (text.map asciiSign) = ofText text := by
  have h (c : Char) : ofChar? (asciiSign c) = ofChar? c := by
    unfold asciiSign
    split <;> rfl
  rw [ofText, List.filterMap_map, ofText]
  exact List.filterMap_congr fun c _ => h c

theorem ofText_powerSign_eq (c : Char) : ofText (powerSign c) = ofText [c] := by
  unfold powerSign
  split
  · rename_i hc
    obtain rfl : c = '^' := by simpa using hc
    rfl
  · rfl

theorem ofText_flatMap_powerSign (text : List Char) : ofText (text.flatMap powerSign) = ofText text := by
  induction text with
  | nil => rfl
  | cons c text ih =>
      rw [List.flatMap_cons, ofText_append, ofText_powerSign_eq, ih, ← ofText_append,
        List.singleton_append]

section

variable {s : Unmatched}

theorem read_beforeTrig (raw : List Char) : s.read (ofText (beforeTrig raw)) = s.read (ofText raw) := by
  have hread {rule : Rule} (h : rule.Keeps readChar) (text : List Char) :
      s.read (ofText (rule.apply text)) = s.read (ofText text) := by
    rw [← foldl_readChar, h.foldl_apply, foldl_readChar]
  rw [beforeTrig, hread factorial_keeps_unmatched, hread functionCall_keeps_unmatched,
    ofText_flatMap_powerSign, hread euler_keeps_unmatched, hread pi_keeps_unmatched,
    hread percent_keeps_unmatched, ofText_map_asciiSign]

/-- The parentheses that are written around an argument close each other, as those of the call did. -/
theorem read_expands {mode : AngleMode} {text expanded : List Char} (h : Expands mode text expanded) :
    s.read (ofText expanded) = s.read (ofText text) := by
  induction h generalizing s with
  | plain => rfl
  | closed hf hc _ _ iha ihb =>
      have hw := ofText_of_isWord hf.call.isWord.2
      obtain ⟨n, hopen, hclose⟩ := wrapping_parentheses mode (ofText_of_isWord hf.call.isWord_toLower.2)
      simp only [hf.parts, hc.parts, ofText_append, ofText_opening, ofText_closing, hw, hopen, hclose,
        Unmatched.read_append, Unmatched.read_cons, Unmatched.read_nil, iha, ihb,
        Unmatched.read_of_balanced hc.balanced, Unmatched.read_replicate, Unmatched.next_opening_closing]
  | unclosed hf _ _ ihb =>
      have hw := ofText_of_isWord hf.call.isWord.2
      have hopen := ofText_openTrig (ofText_of_isWord hf.call.isWord_toLower.2)
      simp only [hf.parts, ofText_append, ofText_opening, hw, hopen, Unmatched.read_append,
        Unmatched.read_cons, Unmatched.read_nil, ihb]

end

theorem unmatched_text (mode : AngleMode) (raw : List Char) :
    unmatched (text mode raw) = unmatched raw := by
  rw [unmatched, text, read_expands (expands_expandTrig mode _), read_beforeTrig, unmatched]

end Canonical

/-! ## Unbalanced texts -/

open Parenthesis

theorem balanced_of_parse {canonical : List Char} {e : Expr} (h : parse canonical = .ok e) :
    Parenthesis.Balanced (ofText canonical) := by
  obtain ⟨ts, ht, h⟩ := bind_eq_ok_iff.mp h
  obtain ⟨order, ho, -⟩ := bind_eq_ok_iff.mp h
  obtain ⟨t, hs, -⟩ := Grammar.exists_sentence ho
  rw [← ofTokens_tokens ht]
  exact balanced_of_derives hs

theorem balanced_of_isBlank {raw : String} (h : isBlank raw = true) :
    Parenthesis.Balanced (ofText raw.toList) := by
  have hnone : ofText raw.toList = [] := by
    refine ofText_eq_nil_iff.mpr fun c hc => ?_
    have hw := List.all_eq_true.mp h c hc
    constructor <;> rintro rfl <;> exact absurd hw (by decide)
  rw [hnone]
  rfl

/-- A canonical text opens as many parentheses more than it closes as the typed text, at the place where
they are fewest and at the end. A text that is not balanced is not blank and has no expression. -/
theorem balances_of_text (mode : AngleMode) (raw : String) :
    balance (Canonical.text mode raw.toList) = balance raw.toList ∧
    (∃ low, IsLeast (prefixBalances (Canonical.text mode raw.toList)) low ∧
      IsLeast (prefixBalances raw.toList) low) ∧
    (Parenthesis.Balanced (ofText (Canonical.text mode raw.toList)) ↔
      Parenthesis.Balanced (ofText raw.toList)) ∧
    (¬ Parenthesis.Balanced (ofText raw.toList) → ∃ g, evaluate mode raw = .error (.grammar g)) := by
  have hu := Canonical.unmatched_text mode raw.toList
  have hb : Parenthesis.Balanced (ofText (Canonical.text mode raw.toList)) ↔
      Parenthesis.Balanced (ofText raw.toList) := by
    rw [balanced_iff_unmatched, hu, balanced_iff_unmatched]
  refine ⟨?_, ⟨-(unmatched raw.toList).closings, ?_, isLeast_prefixBalances _⟩, hb, fun hnot => ?_⟩
  · rw [balance_eq_unmatched, hu, balance_eq_unmatched]
  · rw [← hu]
    exact isLeast_prefixBalances _
  · have hblank : isBlank raw = false := by
      cases hblank : isBlank raw with
      | false => rfl
      | true => exact absurd (balanced_of_isBlank hblank) hnot
    cases hp : parse (Canonical.text mode raw.toList) with
    | error g => exact ⟨g, (ending_evaluate hblank).eq_grammar_iff.mpr hp⟩
    | ok e => exact absurd (hb.mp (balanced_of_parse hp)) hnot

end DeskCalculator
