import DeskCalculator.Proofs.Window.Display

/-!
# Reachable windows

Whatever the user does, the last answer of a window is the text of a result, so taking it back into
an empty entry never fails.
-/

namespace DeskCalculator

/-! ## The last answer -/

namespace Session

/-- There is no last answer, or it is the text of a result. -/
def AnswerShown (s : Session) : Prop := s.answer = "" ∨ ∃ v, IsResult v ∧ s.answer = Display.text v

end Session

/-! ## Events -/

namespace Window

open Session

/-- The sessions that events lead to from a start. -/
inductive Reachable : Session → Prop
  | start (settings : Settings) : Reachable (Session.start settings)
  | step {s : Session} (h : Reachable s) (e : Event) : Reachable (step s e).session

theorem Reachable.exists_after {s : Session} (h : Reachable s) :
    ∃ settings events, after (.start settings) events = s := by
  induction h with
  | start settings => exact ⟨settings, [], rfl⟩
  | step h e ih =>
      obtain ⟨settings, events, rfl⟩ := ih
      exact ⟨settings, events ++ [e], after_append ..⟩

theorem Reachable.answerShown {s : Session} (h : Reachable s) : s.AnswerShown := by
  obtain ⟨settings, events, rfl⟩ := h.exists_after
  by_cases ha : (after (.start settings) events).answer = ""
  · exact .inl ha
  · obtain ⟨mode, raw, v, hv, ha⟩ := (coherent_after settings events).answer ha
    exact .inr ⟨v, isResult_of_evaluate hv, ha⟩

/-! ## The answer taken back -/

/-- The label of a key is not the label of a switch, whatever those say at the time. -/
theorem step_key (s : Session) {label : String} {b : Button}
    (hb : (keypad ++ functionKeys).lookup label = some b)
    (hl : label ∉ ["deg", "rad", "☀ Clair", "🌙 Sombre", "Copier"]) :
    step s (.click label) = press s b := by
  simp only [List.mem_cons, List.not_mem_nil, or_false, not_or] at hl
  obtain ⟨hdeg, hrad, hlight, hdark, hcopy⟩ := hl
  have hm : label ≠ modeLabel s := by
    rcases modeLabel_cases s with hs | hs <;> rwa [hs]
  have ht : label ≠ themeLabel s := by
    rcases themeLabel_cases s with hs | hs <;> rwa [hs]
  simp [step, lookup_buttons hm ht hcopy, hb]

theorem step_clear (s : Session) : step s (.click "AC") = quiet s.clear :=
  @step_key s "AC" .clear (by decide) (by decide)

theorem step_answer {s : Session} (h : s.answer ≠ "") :
    step s (.click "Ans") = quiet (s.insert s.answer) := by
  have hpress : step s (.click "Ans") = quiet s.insertAnswer.focusEntry :=
    @step_key s "Ans" .answer (by decide) (by decide)
  have hempty : s.answer.isEmpty = false := by simpa using h
  rw [hpress, insertAnswer, hempty]
  rfl

theorem text_ne_faultText {v : Float} (h : IsResult v) : Display.text v ≠ faultText := by
  intro ht
  obtain ⟨q, w, hr⟩ := Display.exists_reads h
  have hfault : (evaluate .degrees faultText).isOk = false := by decide +kernel
  rw [← ht, hr.evaluates] at hfault
  cases hfault

theorem display_evaluateEntry {s : Session} {v : Float} (h : IsResult v)
    (he : s.entry = Display.text v) :
    s.evaluateEntry.display ≠ faultText := by
  obtain ⟨q, w, hr⟩ := Display.exists_reads h
  have hw := hr.evaluates s.mode
  rw [Session.evaluateEntry, he, hw]
  exact text_ne_faultText (isResult_of_evaluate hw)

/-- Every result can be typed again as it is displayed, and the last answer of a reachable window can be
taken back and evaluated. -/
theorem answer_reusable :
    (∀ v, IsResult v → (∃ q w, Display.Reads v q w) ∧ (Display.text v = "0" ↔ v = 0)) ∧
    ∀ s, Reachable s → s.answer ≠ "" →
      ∀ outcome ∈ run s [.click "AC", .click "Ans", .click "="],
        outcome.session.display ≠ faultText := by
  refine ⟨fun v h => ⟨Display.exists_reads h, Display.text_eq_zero_iff h⟩, fun s hs hne => ?_⟩
  obtain ⟨v, hv, ha⟩ := hs.answerShown.resolve_left hne
  have hanswer : step s.clear (.click "Ans") = quiet (s.clear.insert s.answer) :=
    step_answer (s := s.clear) hne
  have hequals :
      step (s.clear.insert s.answer) (.click "=") = quiet (s.clear.insert s.answer).evaluateEntry :=
    step_evaluation rfl
  have hentry : (s.clear.insert s.answer).entry = Display.text v := by
    rw [← ha]
    exact String.empty_append
  simp only [run, step_clear, quiet, hanswer, hequals, List.mem_cons, List.not_mem_nil, or_false]
  rintro outcome (rfl | rfl | rfl)
  · exact (by decide : "" ≠ faultText)
  · exact (by decide : "" ≠ faultText)
  · exact display_evaluateEntry hv hentry

end Window

end DeskCalculator
