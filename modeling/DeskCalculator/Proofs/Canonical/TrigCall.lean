import DeskCalculator.Proofs.Canonical.Separators
import DeskCalculator.Proofs.Parentheses

/-!
# Trigonometric calls inside one another

What is written for a closing parenthesis depends only on the parenthesis that it closes. So a
stack of what closes each open parenthesis does the same as the positions that lie ahead, and an
argument is expanded as if it stood alone.
-/

namespace DeskCalculator.Canonical

open Parenthesis

/-! ## Places of a call -/

theorem exists_word_of_startsWithCall {name text : List Char} (h : startsWithCall name text = true) :
    ∃ word rest, text = word ++ '(' :: rest ∧ word.length = name.length ∧
      ∀ c ∈ word, ∃ letter ∈ name, spells letter c = true := by
  induction name generalizing text with
  | nil =>
      cases text with
      | nil => cases h
      | cons c rest =>
          obtain rfl : c = '(' := by simpa [startsWithCall] using h
          exact ⟨[], rest, rfl, rfl, by simp⟩
  | cons letter letters ih =>
      cases text with
      | nil => cases h
      | cons c rest =>
          simp only [startsWithCall, Bool.and_eq_true] at h
          obtain ⟨hc, hr⟩ := h
          obtain ⟨word, rest, rfl, hl, hw⟩ := ih hr
          refine ⟨c :: word, rest, rfl, by simp [hl], ?_⟩
          intro d hd
          rcases List.mem_cons.mp hd with rfl | hd
          · exact ⟨letter, by simp, hc⟩
          · obtain ⟨l, hl, hs⟩ := hw d hd
            exact ⟨l, by simp [hl], hs⟩

theorem toLower_of_spells {letter c : Char} (h : spells letter c = true) :
    c.toLower = letter ∨ c.toLower = 'ſ' := by
  simp only [spells, Bool.or_eq_true, Bool.and_eq_true, beq_iff_eq] at h
  rcases h with h | ⟨-, rfl⟩
  · exact .inl h
  · exact .inr (by decide)

/-- The call at a place: its word, which has no parenthesis, and what follows its parenthesis. -/
theorem exists_call {previous : Option Char} {text name : List Char}
    (h : calledName? trigNames previous text = some name) : ∃ word rest, text = word ++ '(' :: rest ∧
      word.length = name.length ∧ ofText word = [] ∧ ofText name = [] := by
  obtain ⟨-, n, hn, hs, rfl⟩ := calledName?_eq_some h
  obtain ⟨word, rest, rfl, hl, hw⟩ := exists_word_of_startsWithCall hs
  have hmark : ∀ c, c = '(' ∨ c = ')' → ∀ letter ∈ n.toList, spells letter c = false ∧ letter ≠ c := by
    intro c hc letter hm
    have hl : letter.isAlpha = true :=
      List.all_eq_true.mp (letters_of_names n (by simp [hn])).2 letter hm
    rcases hc with rfl | rfl
    · exact ⟨spells_of_mark hl (by decide), by rintro rfl; cases hl⟩
    · exact ⟨spells_of_mark hl (by decide), by rintro rfl; cases hl⟩
  have hlen : n.length = word.length := by rw [hl, String.length_toList]
  refine ⟨word, rest, rfl, by simp [hlen], ?_, ?_⟩
  · refine ofText_eq_nil_iff.mpr fun c hc => ?_
    obtain ⟨letter, hm, hs⟩ := hw c hc
    refine ⟨?_, ?_⟩ <;> rintro rfl
    · simp [(hmark '(' (.inl rfl) letter hm).1] at hs
    · simp [(hmark ')' (.inr rfl) letter hm).1] at hs
  · rw [hlen, List.take_left]
    refine ofText_eq_nil_iff.mpr fun d hd => ?_
    obtain ⟨c, hc, rfl⟩ := List.mem_map.mp hd
    obtain ⟨letter, hm, hs⟩ := hw c hc
    rcases toLower_of_spells hs with hl | hl <;> rw [hl]
    · exact ⟨(hmark '(' (.inl rfl) letter hm).2, (hmark ')' (.inr rfl) letter hm).2⟩
    · decide

/-- A text is read place by place: a call with its parenthesis, or one other character. -/
theorem call_induction {P : Option Char → List Char → Prop} (nil : ∀ previous, P previous [])
    (step : ∀ previous c rest, calledName? trigNames previous (c :: rest) = none → P (some c) rest →
      P previous (c :: rest))
    (call : ∀ previous word rest name, calledName? trigNames previous (word ++ '(' :: rest) = some name →
      word.length = name.length → ofText word = [] → ofText name = [] → P (some '(') rest →
      P previous (word ++ '(' :: rest))
    (previous : Option Char) (text : List Char) : P previous text := by
  induction hn : text.length using Nat.strongRecOn generalizing previous text with
  | _ n ih =>
      cases text with
      | nil => exact nil previous
      | cons c rest =>
          cases hc : calledName? trigNames previous (c :: rest) with
          | none => exact step previous c rest hc (ih rest.length (by simp [← hn]) _ _ rfl)
          | some name =>
              obtain ⟨word, rest', ht, hl, hw, hname⟩ := exists_call hc
              rw [ht] at hc hn ⊢
              refine call previous word rest' name hc hl hw hname (ih rest'.length ?_ _ _ rfl)
              simp only [List.length_append, List.length_cons] at hn
              omega

/-! ## A stack of what closes -/

/-- What is written around the argument that starts here; it may never close. -/
def callWrapping (mode : AngleMode) (name argument : List Char) : Wrapping :=
  match closingOffset? 0 argument with
  | none => ⟨openTrig name, [')']⟩
  | some _ => wrapping mode name

/-- Expands the calls of a text within open parentheses, the nearest first, of which the stack holds what
closes them. -/
def expandWithin (mode : AngleMode) :
    (skip : Nat) → (previous : Option Char) → (opened : List (List Char)) → List Char → List Char
  | _, _, _, [] => []
  | skip + 1, _, opened, c :: rest => expandWithin mode skip (some c) opened rest
  | 0, previous, opened, c :: rest =>
    match calledName? trigNames previous (c :: rest) with
    | some name =>
      let w := callWrapping mode name ((c :: rest).drop (name.length + 1))
      w.before ++ expandWithin mode name.length (some c) (w.after :: opened) rest
    | none =>
      if c == '(' then c :: expandWithin mode 0 (some c) ([')'] :: opened) rest
      else if c == ')' then
        match opened with
        | [] => c :: expandWithin mode 0 (some c) [] rest
        | w :: outer => w ++ expandWithin mode 0 (some c) outer rest
      else c :: expandWithin mode 0 (some c) opened rest

section

variable {mode : AngleMode} {previous : Option Char} {opened : List (List Char)} {rest : List Char}

theorem calledName?_opening : calledName? trigNames previous ('(' :: rest) = none :=
  calledName?_mark (trigNames_of_mark (by decide))

theorem calledName?_closing : calledName? trigNames previous (')' :: rest) = none :=
  calledName?_mark (trigNames_of_mark (by decide))

theorem expandWithin_opening : expandWithin mode 0 previous opened ('(' :: rest) =
    '(' :: expandWithin mode 0 (some '(') ([')'] :: opened) rest := by
  simp [expandWithin, calledName?_opening]

theorem expandWithin_closing (w : List Char) : expandWithin mode 0 previous (w :: opened) (')' :: rest) =
    w ++ expandWithin mode 0 (some ')') opened rest := by
  simp [expandWithin, calledName?_closing]

theorem expandWithin_unmatched : expandWithin mode 0 previous [] (')' :: rest) =
    ')' :: expandWithin mode 0 (some ')') [] rest := by
  simp [expandWithin, calledName?_closing]

theorem expandWithin_other {c : Char} (hc : calledName? trigNames previous (c :: rest) = none)
    (ho : c ≠ '(') (hcl : c ≠ ')') : expandWithin mode 0 previous opened (c :: rest) =
      c :: expandWithin mode 0 (some c) opened rest := by
  simp [expandWithin, hc, ho, hcl]

theorem expandWithin_skip (word : List Char) :
    expandWithin mode (word.length + 1) previous opened (word ++ '(' :: rest) =
    expandWithin mode 0 (some '(') opened rest := by
  induction word generalizing previous with
  | nil => rfl
  | cons c word ih => exact ih

theorem expandWithin_call {word name : List Char}
    (hc : calledName? trigNames previous (word ++ '(' :: rest) = some name)
    (hl : word.length = name.length) : expandWithin mode 0 previous opened (word ++ '(' :: rest) =
      (callWrapping mode name rest).before ++
        expandWithin mode 0 (some '(') ((callWrapping mode name rest).after :: opened) rest := by
  have hd : (word ++ '(' :: rest).drop (word.length + 1) = rest := by simp
  cases word with
  | nil => simp [calledName?_opening] at hc
  | cons c word =>
      simp only [List.cons_append, List.length_cons] at hc hd ⊢
      simp only [expandWithin, hc, ← hl, List.length_cons, hd, expandWithin_skip]

end

/-! ## The stack and the positions -/

/-- From the position on, the closings that lie ahead are those on the stack, with `level` more
parentheses open above it. -/
inductive Ahead (position : Nat) (text : List Char) : Nat → List (List Char) → List Closing → Prop
  | nil (level : Nat) : Ahead position text level [] []
  | plain {level opened pending} : Ahead position text (level + 1) opened pending →
      Ahead position text level ([')'] :: opened) pending
  | wrapped {level opened pending offset w} : closingOffset? level text = some offset →
      Ahead position text (level + 1) opened pending →
      Ahead position text level (w :: opened) (⟨position + offset, w⟩ :: pending)

namespace Ahead

variable {position level : Nat} {opened : List (List Char)} {pending : List Closing} {rest : List Char}

theorem shift {text : List Char} {n level' : Nat} (h : Ahead position text level opened pending)
    (hs : ∀ k offset, closingOffset? (level + k) text = some offset →
      ∃ o, offset = n + o ∧ closingOffset? (level' + k) rest = some o) :
    Ahead (position + n) rest level' opened pending := by
  induction h generalizing level' with
  | nil level => exact .nil level'
  | @plain level _ _ _ ih =>
      refine .plain (ih fun k offset hk => ?_)
      rw [Nat.add_assoc, Nat.add_comm 1 k] at hk ⊢
      exact hs (k + 1) offset hk
  | @wrapped level opened pending offset w ho _ ih =>
      obtain ⟨o, rfl, ho'⟩ := hs 0 offset ho
      rw [← Nat.add_assoc]
      refine .wrapped ho' (ih fun k offset hk => ?_)
      rw [Nat.add_assoc, Nat.add_comm 1 k] at hk ⊢
      exact hs (k + 1) offset hk

theorem opening (h : Ahead position ('(' :: rest) level opened pending) :
    Ahead (position + 1) rest (level + 1) opened pending := by
  refine h.shift fun k offset hk => ?_
  obtain ⟨o, ho, rfl⟩ := Option.map_eq_some_iff.mp (by simpa [closingOffset?] using hk)
  exact ⟨o, Nat.add_comm o 1, by rwa [Nat.add_right_comm]⟩

theorem closing (h : Ahead position (')' :: rest) (level + 1) opened pending) :
    Ahead (position + 1) rest level opened pending := by
  refine h.shift fun k offset hk => ?_
  rw [Nat.add_right_comm] at hk
  obtain ⟨o, ho, rfl⟩ := Option.map_eq_some_iff.mp (by simpa [closingOffset?] using hk)
  exact ⟨o, Nat.add_comm o 1, ho⟩

theorem other {c : Char} (h : Ahead position (c :: rest) level opened pending) (ho : c ≠ '(')
    (hc : c ≠ ')') :
    Ahead (position + 1) rest level opened pending := by
  refine h.shift fun k offset hk => ?_
  obtain ⟨o, hr, rfl⟩ := Option.map_eq_some_iff.mp (by simpa [closingOffset?, ho, hc] using hk)
  exact ⟨o, Nat.add_comm o 1, hr⟩

theorem word {text : List Char} (h : Ahead position (text ++ '(' :: rest) level opened pending)
    (ht : ofText text = []) : Ahead (position + (text.length + 1)) rest (level + 1) opened pending := by
  induction text generalizing position with
  | nil => exact h.opening
  | cons c text ih =>
      obtain ⟨ho, hcl⟩ := ofText_eq_nil_iff.mp ht c (by simp)
      have := ih (h.other ho hcl) (by simpa [ofText_other ho hcl] using ht)
      simpa [Nat.add_assoc, Nat.add_comm] using this

theorem head_position_ne {c : Char} {q : Closing}
    (h : Ahead position (c :: rest) level opened (q :: pending)) (hc : c ≠ ')' ∨ level ≠ 0) :
    q.position ≠ position := by
  generalize hp : q :: pending = ps at h
  induction h with
  | nil => cases hp
  | plain _ ih => exact ih (.inr (Nat.succ_ne_zero _)) hp
  | @wrapped level opened pending offset w ho _ _ =>
      cases hp
      have : offset ≠ 0 := by
        rintro rfl
        simp only [closingOffset?] at ho
        split at ho
        · simp at ho
        split at ho
        · cases level <;> simp_all
        · simp at ho
      simpa using this

end Ahead

section

variable {mode : AngleMode} {position : Nat} {previous : Option Char} {opened : List (List Char)}
  {pending : List Closing} {rest : List Char}

theorem turn_of_ne {c : Char} (h : ∀ q ∈ pending.head?, q.position ≠ position) :
    turn mode position previous pending c rest = openingTurn mode position previous pending c rest := by
  cases pending with
  | nil => rfl
  | cons q outer => simp [turn, h q (by simp)]

theorem expandTrigFrom_plain {c : Char} (hc : calledName? trigNames previous (c :: rest) = none)
    (h : ∀ q ∈ pending.head?, q.position ≠ position) :
    expandTrigFrom mode 0 position previous pending (c :: rest) =
      c :: expandTrigFrom mode 0 (position + 1) (some c) pending rest := by
  simp [expandTrigFrom, turn_of_ne h, openingTurn, hc]

theorem expandTrigFrom_closing (w : List Char) :
    expandTrigFrom mode 0 position previous (⟨position, w⟩ :: pending) (')' :: rest) =
      w ++ expandTrigFrom mode 0 (position + 1) (some ')') pending rest := by
  simp [expandTrigFrom, turn]

theorem expandTrigFrom_skip (word : List Char) :
    expandTrigFrom mode (word.length + 1) position previous pending (word ++ '(' :: rest) =
      expandTrigFrom mode 0 (position + (word.length + 1)) (some '(') pending rest := by
  induction word generalizing position previous with
  | nil => rfl
  | cons c word ih =>
      have := @ih (position + 1) (some c)
      simpa [expandTrigFrom, Nat.add_assoc, Nat.add_comm] using this

theorem Ahead.not_here {c : Char} (h : Ahead position (c :: rest) 0 opened pending) (hc : c ≠ ')') :
    ∀ q ∈ pending.head?, q.position ≠ position := by
  cases pending with
  | nil => simp
  | cons q pending =>
      intro q' hq
      obtain rfl : q = q' := by simpa using hq
      exact h.head_position_ne (.inl hc)

/-- What the positions say is what the stack says. -/
theorem expandTrigFrom_eq_expandWithin (text : List Char) (h : Ahead position text 0 opened pending) :
    expandTrigFrom mode 0 position previous pending text = expandWithin mode 0 previous opened text := by
  -- `Ahead` is kept at each place: the positions and the stack hold the same closings.
  induction previous, text using call_induction generalizing position opened pending with
  | nil => rfl
  | step previous c rest hc ih =>
      by_cases hcl : c = ')'
      · subst hcl
        cases h with
        | nil => rw [expandTrigFrom_plain hc (by simp), expandWithin_unmatched, ih (.nil 0)]
        | @plain _ opened _ h =>
            have hne : ∀ q ∈ pending.head?, q.position ≠ position := by
              cases pending with
              | nil => simp
              | cons q pending =>
                  intro q' hq
                  obtain rfl : q = q' := by simpa using hq
                  exact h.head_position_ne (.inr (Nat.succ_ne_zero 0))
            rw [expandTrigFrom_plain hc hne, expandWithin_closing, ih h.closing]
            rfl
        | @wrapped _ opened pending offset w ho h =>
            obtain rfl : offset = 0 := by simpa [closingOffset?, eq_comm] using ho
            rw [Nat.add_zero, expandTrigFrom_closing, expandWithin_closing, ih h.closing]
      · have hne := h.not_here hcl
        by_cases ho : c = '('
        · subst ho
          rw [expandTrigFrom_plain hc hne, expandWithin_opening, ih (.plain h.opening)]
        · rw [expandTrigFrom_plain hc hne, expandWithin_other hc ho hcl, ih (h.other ho hcl)]
  | call previous word rest name hc hl hw hname ih =>
      have hahead := h.word hw
      rw [expandWithin_call hc hl]
      cases word with
      | nil => simp [calledName?_opening] at hc
      | cons c word =>
          have hcl : c ≠ ')' := by
            rintro rfl
            simp at hw
          have hd : (c :: (word ++ '(' :: rest)).drop ((c :: word).length + 1) = rest := by simp
          simp only [List.cons_append] at hc h ⊢
          simp only [expandTrigFrom, turn_of_ne (h.not_here hcl), openingTurn, hc, ← hl, hd,
            callWrapping]
          cases ho : closingOffset? 0 rest with
          | none =>
              have := ih (.plain hahead)
              rw [← this]
              simp [expandTrigFrom_skip, Nat.add_assoc, Nat.add_comm]
          | some offset =>
              have := ih (.wrapped (w := (wrapping mode name).after) ho hahead)
              rw [← this]
              simp [expandTrigFrom_skip, Nat.add_assoc, Nat.add_comm]

end

/-! ## Balanced arguments -/

theorem exists_closingOffset {level n k : Nat} {text : List Char}
    (h : openAfter (level + 1 + n) (ofText text) = some k) (hk : k ≤ n) :
    ∃ offset, closingOffset? level text = some offset := by
  induction text generalizing level with
  | nil =>
      obtain rfl := Option.some.inj h
      omega
  | cons c text ih =>
      by_cases ho : c = '('
      · subst ho
        have h : openAfter (level + 1 + 1 + n) (ofText text) = some k := by
          rwa [Nat.add_right_comm (level + 1)]
        obtain ⟨offset, hr⟩ := ih h
        exact ⟨offset + 1, by simp [closingOffset?, hr]⟩
      by_cases hc : c = ')'
      · subst hc
        cases level with
        | zero => exact ⟨0, by simp [closingOffset?]⟩
        | succ level =>
            have h : openAfter (level + 1 + n) (ofText text) = some k := by
              rw [Nat.add_right_comm (level + 1)] at h
              exact h
            obtain ⟨offset, hr⟩ := ih h
            exact ⟨offset + 1, by simp [closingOffset?, hr]⟩
      · rw [ofText_other ho hc] at h
        obtain ⟨offset, hr⟩ := ih h
        exact ⟨offset + 1, by simp [closingOffset?, ho, hc, hr]⟩

theorem closingOffset?_append {level offset : Nat} {text : List Char}
    (h : closingOffset? level text = some offset) (rest : List Char) :
    closingOffset? level (text ++ rest) = some offset := by
  induction text generalizing level offset with
  | nil => cases h
  | cons c text ih =>
      simp only [closingOffset?, List.cons_append] at h ⊢
      split at h
      · obtain ⟨o, ho, rfl⟩ := Option.map_eq_some_iff.mp h
        simp [*, ih ho]
      split at h
      · cases level with
        | zero => simp [*]
        | succ level =>
            obtain ⟨o, ho, rfl⟩ := Option.map_eq_some_iff.mp h
            simp [*, ih ho]
      · obtain ⟨o, ho, rfl⟩ := Option.map_eq_some_iff.mp h
        simp [*, ih ho]

/-- A mark that takes part in no call, or the end of the text. -/
def Breaks : List Char → Prop
  | [] => True
  | c :: _ => c ∈ marks ∧ c ≠ '('

theorem calledName?_breaks {previous : Option Char} {text rest : List Char} (h : Breaks rest) :
    calledName? trigNames previous (text ++ rest) = calledName? trigNames previous text := by
  cases rest with
  | nil => rw [List.append_nil]
  | cons c rest => exact calledName?_append h.2 fun name hm => (trigNames_of_mark h.1 name hm).2

/-- A text that closes what is open is expanded as if it stood alone. -/
theorem expandWithin_append {mode : AngleMode} {previous : Option Char} {text rest : List Char}
    {inner : List (List Char)} (outer : List (List Char))
    (hb : openAfter inner.length (ofText text) = some 0) (hr : Breaks rest) :
    expandWithin mode 0 previous (inner ++ outer) (text ++ rest) =
      expandWithin mode 0 previous inner text ++
        expandWithin mode 0 (text.getLast?.or previous) outer rest := by
  induction previous, text using call_induction generalizing inner with
  | nil previous =>
      obtain rfl : inner = [] := by simpa [openAfter] using hb
      rfl
  | step previous c text hc ih =>
      have hl : (c :: text).getLast?.or previous = text.getLast?.or (some c) := by
        cases text <;> simp [List.getLast?_cons]
      have hc' : calledName? trigNames previous (c :: (text ++ rest)) = none :=
        (calledName?_breaks hr).trans hc
      rw [List.cons_append, hl]
      by_cases ho : c = '('
      · subst ho
        have := @ih ([')'] :: inner) hb
        rw [expandWithin_opening, expandWithin_opening, List.cons_append, ← this]
        rfl
      by_cases hcl : c = ')'
      · subst hcl
        cases inner with
        | nil => cases hb
        | cons w inner =>
            have := @ih inner hb
            rw [expandWithin_closing, List.cons_append, expandWithin_closing, this, List.append_assoc]
      · rw [ofText_other ho hcl] at hb
        rw [expandWithin_other hc' ho hcl, expandWithin_other hc ho hcl, ih hb, List.cons_append]
  | call previous word text name hc hl hw hname ih =>
      have hlast : (word ++ '(' :: text).getLast?.or previous = text.getLast?.or (some '(') := by
        cases text <;> simp [List.getLast?_append, List.getLast?_cons]
      have hb : openAfter (inner.length + 1) (ofText text) = some 0 := by
        simpa [hw, openAfter] using hb
      have hc' := (@calledName?_breaks previous (word ++ '(' :: text) rest hr).trans hc
      have hwrap : callWrapping mode name (text ++ rest) = callWrapping mode name text := by
        obtain ⟨offset, ho⟩ :=
          @exists_closingOffset 0 inner.length 0 text (by simpa [Nat.add_comm] using hb) (by omega)
        simp only [callWrapping, ho, closingOffset?_append ho]
      rw [hlast]
      simp only [List.append_assoc, List.cons_append] at hc' ⊢
      have := @ih ((callWrapping mode name text).after :: inner) hb
      rw [expandWithin_call hc' hl, expandWithin_call hc hl, hwrap, List.append_assoc, ← this]
      rfl

/-! ## Whole texts -/

section

variable {mode : AngleMode} {text rest : List Char}

theorem expandTrig_eq_expandWithin : expandTrig mode text = expandWithin mode 0 none [] text :=
  expandTrigFrom_eq_expandWithin text (.nil 0)

theorem expandWithin_after_mark {c : Char} {opened : List (List Char)} (hc : c ∈ marks) :
    expandWithin mode 0 (some c) opened text = expandWithin mode 0 none opened text := by
  cases text with
  | nil => rfl
  | cons d text => simp only [expandWithin, calledName?_after hc]

theorem expandTrig_append {c : Char} (hc : c ∈ marks) (ho : c ≠ '(') (hb : Balanced (ofText text)) :
    expandTrig mode (text ++ c :: rest) = expandTrig mode text ++ c :: expandTrig mode rest := by
  have := @expandWithin_append mode none text (c :: rest) [] [] hb ⟨hc, ho⟩
  simp only [expandTrig_eq_expandWithin]
  rw [← @expandWithin_after_mark mode rest c [] hc]
  rw [List.nil_append] at this
  rw [this]
  by_cases hcl : c = ')'
  · rw [hcl, expandWithin_unmatched]
  · rw [expandWithin_other (calledName?_mark (trigNames_of_mark hc)) ho hcl]

theorem expandWithin_argument (after : List Char) (hb : Balanced (ofText text)) :
    expandWithin mode 0 (some '(') [after] (text ++ ')' :: rest) =
      expandTrig mode text ++ after ++ expandTrig mode rest := by
  have hm : ')' ∈ marks := by decide
  have := @expandWithin_append mode (some '(') text (')' :: rest) [] [after] hb ⟨hm, by decide⟩
  rw [List.nil_append] at this
  rw [this, expandWithin_closing, expandWithin_after_mark hm, expandWithin_after_mark (by decide),
    expandTrig_eq_expandWithin, expandTrig_eq_expandWithin, List.append_assoc]

theorem expandTrig_group (hb : Balanced (ofText text)) :
    expandTrig mode ('(' :: (text ++ ')' :: rest)) =
      '(' :: (expandTrig mode text ++ ')' :: expandTrig mode rest) := by
  rw [expandTrig_eq_expandWithin, expandWithin_opening, expandWithin_argument _ hb, List.append_assoc]
  rfl

theorem expandTrig_call {word name : List Char} (hb : Balanced (ofText text))
    (hc : calledName? trigNames none (word ++ '(' :: (text ++ ')' :: rest)) = some name)
    (hl : word.length = name.length) : expandTrig mode (word ++ '(' :: (text ++ ')' :: rest)) =
      (wrapping mode name).before ++ expandTrig mode text ++ (wrapping mode name).after ++
        expandTrig mode rest := by
  have hwrap : callWrapping mode name (text ++ ')' :: rest) = wrapping mode name := by
    have hopen : openAfter 1 (ofText (text ++ [')'])) = some 0 := by
      rw [ofText_append, openAfter_append, hb.openAfter]
      rfl
    obtain ⟨offset, ho⟩ := @exists_closingOffset 0 0 0 _ hopen (by omega)
    have := closingOffset?_append ho rest
    rw [List.append_assoc] at this
    simp only [callWrapping, List.cons_append, List.nil_append] at this ⊢
    rw [this]
  rw [expandTrig_eq_expandWithin, expandWithin_call hc hl, hwrap, expandWithin_argument _ hb]
  simp only [List.append_assoc]

theorem expandTrig_eq_self (h : ∀ c ∈ text, c ≠ '(' ∧ c ≠ ')') : expandTrig mode text = text := by
  rw [expandTrig_eq_expandWithin]
  generalize (none : Option Char) = previous
  induction text generalizing previous with
  | nil => rfl
  | cons c text ih =>
      have hc : calledName? trigNames previous (c :: text) = none := by
        cases hn : calledName? trigNames previous (c :: text) with
        | none => rfl
        | some name =>
            obtain ⟨word, rest, ht, -⟩ := exists_call hn
            exact absurd rfl (h '(' (by simp [ht])).1
      obtain ⟨ho, hcl⟩ := h c (by simp)
      rw [expandWithin_other hc ho hcl, ih (fun d hd => h d (by simp [hd]))]

end

/-! ## Other words before a parenthesis -/

theorem startsWithCall_opening {name text : List Char} (hn : ∀ letter ∈ name, spells letter '(' = false)
    (rest : List Char) :
    startsWithCall name (text ++ '(' :: rest) = startsWithCall name (text ++ ['(']) := by
  induction name generalizing text with
  | nil => cases text <;> rfl
  | cons letter letters ih =>
      cases text with
      | nil => simp [startsWithCall, hn letter (by simp)]
      | cons c text => simp [startsWithCall, ih fun l hl => hn l (by simp [hl])]

/-- No call starts within the text when a parenthesis follows it. -/
def callFree : List Char → Bool
  | [] => true
  | c :: text =>
    c != '(' && c != ')' && (trigNames.all fun n => !startsWithCall n.toList (c :: (text ++ ['(']))) &&
      callFree text

theorem expandWithin_callFree {mode : AngleMode} {previous : Option Char} {opened : List (List Char)}
    {text : List Char} (h : callFree text = true) (rest : List Char) :
    expandWithin mode 0 previous opened (text ++ '(' :: rest) =
      text ++ '(' :: expandWithin mode 0 (some '(') ([')'] :: opened) rest := by
  induction text generalizing previous with
  | nil => exact expandWithin_opening
  | cons c text ih =>
      simp only [callFree, Bool.and_eq_true, bne_iff_ne, List.all_eq_true, Bool.not_eq_true'] at h
      obtain ⟨⟨⟨ho, hcl⟩, hn⟩, hr⟩ := h
      have hc : calledName? trigNames previous (c :: (text ++ '(' :: rest)) = none := by
        cases hcall : calledName? trigNames previous (c :: (text ++ '(' :: rest)) with
        | none => rfl
        | some name =>
            obtain ⟨-, n, hm, hs, -⟩ := calledName?_eq_some hcall
            have := @startsWithCall_opening _ (c :: text) (trigNames_of_mark (by decide) n hm).2 rest
            simp only [List.cons_append] at this
            simp [this, hn n hm] at hs
      rw [List.cons_append, expandWithin_other hc ho hcl, ih hr, List.cons_append]

theorem expandTrig_callFree {mode : AngleMode} {word text rest : List Char} (h : callFree word = true)
    (hb : Balanced (ofText text)) : expandTrig mode (word ++ '(' :: (text ++ ')' :: rest)) =
      word ++ '(' :: (expandTrig mode text ++ ')' :: expandTrig mode rest) := by
  rw [expandTrig_eq_expandWithin, expandWithin_callFree h, expandWithin_argument _ hb]
  simp

/-! ## Balanced results -/

/-- The text closes as many parentheses as it has. -/
def IsClosing (text : List Char) : Prop := ∃ n, ofText text = List.replicate (n + 1) .closing

def closings : List (List Char) → Nat
  | [] => 0
  | w :: opened => closings opened + (ofText w).length

theorem ofText_openTrig {name : List Char} (hn : ofText name = []) :
    ofText (openTrig name) = [.opening] := by
  have hm : ofText "math.".toList = [] := by decide
  unfold openTrig
  generalize "math.".toList = word at hm ⊢
  simp [hm, hn]

theorem wrapping_parentheses (mode : AngleMode) {name : List Char} (hn : ofText name = []) : ∃ n,
    ofText (wrapping mode name).before = List.replicate (n + 1) .opening ∧
      ofText (wrapping mode name).after = List.replicate (n + 1) .closing := by
  have ho := ofText_openTrig hn
  have hd : ofText (openTrig name ++ ['(']) = [.opening, .opening] := by simp [ho]
  have hi : ofText ('(' :: openTrig name) = [.opening, .opening] := by simp [ho]
  unfold wrapping
  split
  · exact ⟨0, ho, rfl⟩
  · exact ⟨1, hd, rfl⟩
  · exact ⟨1, hi, rfl⟩

theorem callWrapping_parentheses (mode : AngleMode) {name : List Char} (hn : ofText name = [])
    (argument : List Char) :
    ∃ n, ofText (callWrapping mode name argument).before = List.replicate (n + 1) .opening ∧
      ofText (callWrapping mode name argument).after = List.replicate (n + 1) .closing := by
  unfold callWrapping
  split
  · exact ⟨0, ofText_openTrig hn, rfl⟩
  · exact wrapping_parentheses mode hn

/-- The parentheses of the text are matched as those that are written for it. -/
theorem openAfter_expandWithin {mode : AngleMode} {previous : Option Char} {text : List Char}
    {opened : List (List Char)} {k : Nat} (ho : ∀ w ∈ opened, IsClosing w)
    (h : openAfter (closings opened) (ofText (expandWithin mode 0 previous opened text)) = some k) :
    ∃ left, openAfter opened.length (ofText text) = some left.length ∧ k = closings left ∧
      ∀ w ∈ left, IsClosing w := by
  induction previous, text using call_induction generalizing opened with
  | nil =>
      obtain rfl := Option.some.inj h
      exact ⟨opened, rfl, rfl, ho⟩
  | step previous c text hc ih =>
      by_cases hopen : c = '('
      · subst hopen
        rw [expandWithin_opening] at h
        have hw : ∀ w ∈ [')'] :: opened, IsClosing w := by
          rintro w (_ | ⟨_, hw⟩)
          · exact ⟨0, rfl⟩
          · exact ho w hw
        refine ih hw ?_
        rw [← h]
        simp [closings, openAfter]
      by_cases hcl : c = ')'
      · subst hcl
        cases opened with
        | nil =>
            rw [expandWithin_unmatched] at h
            cases h
        | cons w opened =>
            obtain ⟨n, hw⟩ := ho w (by simp)
            rw [expandWithin_closing, ofText_append, hw] at h
            refine ih (fun w hm => ho w (by simp [hm])) ?_
            rw [← h]
            have hc : closings (w :: opened) = closings opened + (n + 1) := by
              simp [closings, hw]
            rw [hc, openAfter_replicate_closing]
      · rw [expandWithin_other hc hopen hcl, ofText_other hopen hcl] at h
        rw [ofText_other hopen hcl]
        exact ih ho h
  | call previous word text name hc hl hw hname ih =>
      obtain ⟨n, hb, ha⟩ := callWrapping_parentheses mode hname text
      rw [expandWithin_call hc hl, ofText_append, hb, openAfter_replicate_opening] at h
      have hcl : ∀ w ∈ (callWrapping mode name text).after :: opened, IsClosing w := by
        rintro w (_ | ⟨_, hm⟩)
        · exact ⟨n, ha⟩
        · exact ho w hm
      have hlen : closings ((callWrapping mode name text).after :: opened) =
          closings opened + (n + 1) := by
        simp [closings, ha]
      have := ih hcl (hlen ▸ h)
      simpa [hw, openAfter] using this

theorem balanced_of_expandTrig {mode : AngleMode} {text : List Char}
    (h : Balanced (ofText (expandTrig mode text))) :
    Balanced (ofText text) := by
  rw [expandTrig_eq_expandWithin] at h
  obtain ⟨left, hl, hk, hc⟩ := @openAfter_expandWithin mode none text [] 0 (by simp) h
  cases left with
  | nil => exact hl
  | cons w left =>
      obtain ⟨n, hw⟩ := hc w (by simp)
      simp only [closings, hw, List.length_replicate] at hk
      omega

end DeskCalculator.Canonical
