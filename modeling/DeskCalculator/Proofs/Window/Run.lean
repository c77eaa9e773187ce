import DeskCalculator.Window

/-!
# Runs of a window

What an event can do to a session, stated once: it evaluates the entry, replaces it, turns a switch,
copies the answer, or does nothing. What holds after a whole run is proved from these cases.
-/

namespace DeskCalculator

/-! ## The entry -/

namespace Session

/-- The entry is replaced by one that was not evaluated yet. -/
def edit (s : Session) (entry : String) (focused : Bool) : Session :=
  { s with entry := entry, display := "", entryFocused := focused }

/-- An evaluation of the entry and what it leaves. -/
inductive Evaluated (s : Session) : Session → Prop
  | result {v : Float} (h : evaluate s.mode s.entry = .ok (some v)) :
      Evaluated s (s.recordResult (Display.text v))
  | blank (h : evaluate s.mode s.entry = .ok none) : Evaluated s s.recordBlank
  | fault {f : Fault} (h : evaluate s.mode s.entry = .error f) : Evaluated s s.recordFault

theorem evaluated_evaluateEntry (s : Session) : Evaluated s s.evaluateEntry := by
  unfold evaluateEntry
  split
  · exact .result ‹_›
  · exact .blank ‹_›
  · exact .fault ‹_›

/-- Whatever its outcome, an evaluation gives the keyboard back by itself. -/
@[simp] theorem focusEntry_evaluateEntry (s : Session) :
    s.evaluateEntry.focusEntry = s.evaluateEntry := by
  unfold evaluateEntry
  split <;> rfl

@[simp] theorem entry_evaluateEntry (s : Session) : s.evaluateEntry.entry = s.entry := by
  unfold evaluateEntry
  split <;> rfl

@[simp] theorem mode_evaluateEntry (s : Session) : s.evaluateEntry.mode = s.mode := by
  unfold evaluateEntry
  split <;> rfl

@[simp] theorem historyLimit_evaluateEntry (s : Session) :
    s.evaluateEntry.historyLimit = s.historyLimit := by
  unfold evaluateEntry
  split <;> rfl

end Session

namespace Window

open Session

/-! ## Labels -/

/-- The event asks for the value of the entry. -/
def isEvaluation : Event → Bool
  | .enter => true
  | .click label => label == "="
  | _ => false

/-- The keys of the keypad copy nothing and turn no switch, and one of them evaluates. -/
theorem key_cases : ∀ key ∈ keypad ++ functionKeys,
    key.2 ≠ .copy ∧ key.2 ≠ .mode ∧ key.2 ≠ .theme ∧ (key.2 = .equals ↔ key.1 = "=") := by
  decide

theorem mem_of_lookup {keys : List (String × Button)} {label : String} {b : Button}
    (h : keys.lookup label = some b) : (label, b) ∈ keys := by
  obtain ⟨before, after, rfl, -⟩ := List.lookup_eq_some_iff.mp h
  simp

theorem modeLabel_cases (s : Session) : modeLabel s = "deg" ∨ modeLabel s = "rad" := by
  unfold modeLabel
  cases s.mode with
  | degrees => exact .inl rfl
  | radians => exact .inr rfl

theorem themeLabel_cases (s : Session) : themeLabel s = "☀ Clair" ∨ themeLabel s = "🌙 Sombre" := by
  unfold themeLabel
  cases s.darkTheme with
  | true => exact .inl rfl
  | false => exact .inr rfl

theorem themeLabel_ne_modeLabel (s : Session) : themeLabel s ≠ modeLabel s := by
  rcases themeLabel_cases s with ht | ht <;> rcases modeLabel_cases s with hm | hm <;>
    rw [ht, hm] <;> decide

theorem copy_ne_modeLabel (s : Session) : "Copier" ≠ modeLabel s := by
  rcases modeLabel_cases s with hm | hm <;> rw [hm] <;> decide

theorem copy_ne_themeLabel (s : Session) : "Copier" ≠ themeLabel s := by
  rcases themeLabel_cases s with ht | ht <;> rw [ht] <;> decide

/-- A label that no switch and no copying has now belongs to the keypad. -/
theorem lookup_buttons {s : Session} {label : String} (hm : label ≠ modeLabel s)
    (ht : label ≠ themeLabel s) (hc : label ≠ "Copier") :
    (buttons s).lookup label = (keypad ++ functionKeys).lookup label := by
  simp [buttons, List.lookup_cons, beq_false_of_ne hm, beq_false_of_ne ht, beq_false_of_ne hc]

/-! ## One event -/

/-- The event neither evaluates the entry nor switches the mode. -/
structure IsPlain (s : Session) (e : Event) : Prop where
  evaluation : isEvaluation e = false
  mode : e ≠ .click (modeLabel s)

/-- What an event does; only the keyboard is left open. -/
inductive Change (s : Session) : Event → Outcome → Prop
  | evaluation {e : Event} (h : isEvaluation e = true) : Change s e (quiet s.evaluateEntry)
  | edit {e : Event} (h : IsPlain s e) (entry : String) (focused : Bool) :
      Change s e (quiet (s.edit entry focused))
  | mode : Change s (.click (modeLabel s)) (quiet s.toggleMode)
  | theme : Change s (.click (themeLabel s)) (quiet s.toggleTheme)
  | copy (h : s.answer ≠ "") : Change s (.click "Copier") ⟨s, some s.answer⟩
  | nothing {e : Event} (h : IsPlain s e) (focused : Bool) :
      Change s e (quiet { s with entryFocused := focused })

theorem step_modeLabel (s : Session) : step s (.click (modeLabel s)) = quiet s.toggleMode := by
  simp [step, buttons, press]

theorem step_themeLabel (s : Session) : step s (.click (themeLabel s)) = quiet s.toggleTheme := by
  simp [step, buttons, List.lookup_cons, press, beq_false_of_ne (themeLabel_ne_modeLabel s)]

theorem step_copy (s : Session) : step s (.click "Copier") = press s .copy := by
  simp [step, buttons, List.lookup_cons, beq_false_of_ne (copy_ne_modeLabel s),
    beq_false_of_ne (copy_ne_themeLabel s)]

theorem isEvaluation_modeLabel (s : Session) : isEvaluation (.click (modeLabel s)) = false := by
  rcases modeLabel_cases s with h | h <;> rw [h] <;> decide

theorem isPlain_themeLabel (s : Session) : IsPlain s (.click (themeLabel s)) where
  evaluation := by
    rcases themeLabel_cases s with h | h <;> rw [h] <;> decide
  mode h := themeLabel_ne_modeLabel s (Event.click.inj h)

theorem isPlain_copy (s : Session) : IsPlain s (.click "Copier") where
  evaluation := by decide
  mode h := copy_ne_modeLabel s (Event.click.inj h)

theorem change_key {s : Session} {label : String} {b : Button} (hb : (label, b) ∈ keypad ++ functionKeys)
    (hm : label ≠ modeLabel s) : Change s (.click label) (press s b) := by
  obtain ⟨hcopy, hmode, htheme, hequals⟩ := key_cases _ hb
  have hplain : b ≠ .equals → IsPlain s (.click label) := by
    intro hne
    refine ⟨?_, fun h => hm (Event.click.inj h)⟩
    simpa [isEvaluation] using fun hl => hne (hequals.mpr hl)
  cases b with
  | insert text => exact .edit (hplain (by simp)) (s.entry ++ text) true
  | delete => exact .edit (hplain (by simp)) _ true
  | clear => exact .edit (hplain (by simp)) "" true
  | answer =>
      show Change s _ (quiet s.insertAnswer.focusEntry)
      unfold insertAnswer
      split
      · exact .nothing (hplain (by simp)) true
      · exact .edit (hplain (by simp)) (s.entry ++ s.answer) true
  | equals =>
      rw [press, focusEntry_evaluateEntry]
      exact .evaluation (by simpa [isEvaluation] using hequals.mp rfl)
  | copy => exact absurd rfl hcopy
  | mode => exact absurd rfl hmode
  | theme => exact absurd rfl htheme

theorem change_step (s : Session) (e : Event) : Change s e (step s e) := by
  cases e with
  | click label =>
      -- The keypad is looked up only behind the two switches and the copying.
      by_cases hm : label = modeLabel s
      · rw [hm, step_modeLabel]
        exact .mode
      by_cases ht : label = themeLabel s
      · rw [ht, step_themeLabel]
        exact .theme
      by_cases hc : label = "Copier"
      · rw [hc, step_copy, press, canCopy]
        by_cases ha : s.answer = ""
        · rw [if_neg (by simp [ha])]
          exact .nothing (isPlain_copy s) s.entryFocused
        · rw [if_pos (by simp [ha])]
          exact .copy ha
      rw [step, lookup_buttons hm ht hc]
      split
      · exact change_key (mem_of_lookup ‹_›) hm
      · refine .nothing ⟨?_, fun h => hm (Event.click.inj h)⟩ s.entryFocused
        rename_i hnone
        simp only [isEvaluation, beq_eq_false_iff_ne]
        rintro rfl
        exact absurd hnone (by decide)
  | chooseRow row =>
      simp only [step, recallRow]
      split
      · exact .edit ⟨rfl, by simp⟩ _ true
      · exact .nothing ⟨rfl, by simp⟩ s.entryFocused
  | typeText text =>
      simp only [step]
      split
      · exact .edit ⟨rfl, by simp⟩ (s.entry ++ text) false
      · exact .nothing ⟨rfl, by simp⟩ false
  | enter => exact .evaluation rfl
  | escape => exact .edit ⟨rfl, by simp⟩ "" true

theorem step_evaluation {s : Session} {e : Event} (h : isEvaluation e = true) :
    step s e = quiet s.evaluateEntry := by
  have hc := change_step s e
  generalize step s e = outcome at hc
  cases hc with
  | evaluation => rfl
  | edit hp | nothing hp => exact absurd h (by simp [hp.evaluation])
  | mode => exact absurd h (by simp [isEvaluation_modeLabel])
  | theme => exact absurd h (by simp [(isPlain_themeLabel s).evaluation])
  | copy => exact absurd h (by decide)

/-! ## Many events -/

/-- The session after all events. -/
def after (s : Session) (events : List Event) : Session :=
  ((run s events).getLast?.map Outcome.session).getD s

@[simp] theorem after_nil (s : Session) : after s [] = s := rfl

@[simp] theorem after_cons (s : Session) (e : Event) (events : List Event) :
    after s (e :: events) = after (step s e).session events := by
  simp only [after, run, List.getLast?_cons]
  cases (run (step s e).session events).getLast? <;> rfl

theorem after_append (s : Session) (events later : List Event) :
    after s (events ++ later) = after (after s events) later := by
  induction events generalizing s with
  | nil => rfl
  | cons e events ih => simp [ih]

/-- What every event keeps holds after every run. -/
theorem after_invariant {p : Session → Prop} (hstep : ∀ s e, p s → p (step s e).session) {s : Session}
    (h : p s) (events : List Event) : p (after s events) := by
  induction events generalizing s with
  | nil => exact h
  | cons e events ih =>
      rw [after_cons]
      exact ih (hstep s e h)

end Window

end DeskCalculator
