import DeskCalculator.Proofs.Window.History
import Mathlib.Data.List.Forall2

/-!
# Rows evaluated again

Every row of the history was recorded by one evaluation of the run, in the mode of that moment. As long
as this mode is selected, the row that is taken back and evaluated gives its own result, and it becomes
the newest row.
-/

namespace DeskCalculator.Window

open Session

/-! ## The modes of the results -/

/-- The mode of every result of a run, the newest first. -/
def resultModes (s : Session) : List Event → List AngleMode
  | [] => []
  | e :: events => resultModes (step s e).session events ++ ((resultRow? s e).map fun _ => s.mode).toList

/-- The row is what the mode makes of its expression. -/
def Yields (mode : AngleMode) (row : HistoryRow) : Prop :=
  ∃ v, evaluate mode row.expression = .ok (some v) ∧ row.result = Display.text v

theorem yields_of_resultRow? {s : Session} {e : Event} {row : HistoryRow}
    (h : resultRow? s e = some row) :
    Yields s.mode row := by
  unfold resultRow? at h
  split at h
  · split at h
    · rename_i v hv
      obtain rfl := Option.some.inj h
      exact ⟨v, hv, rfl⟩
    · cases h
  · cases h

/-- One event records at most one row, in the mode of the moment. -/
theorem yields_step (s : Session) (e : Event) :
    List.Forall₂ Yields ((resultRow? s e).map fun _ => s.mode).toList (resultRow? s e).toList := by
  cases h : resultRow? s e with
  | none => exact .nil
  | some row => exact .cons (yields_of_resultRow? h) .nil

theorem yields_resultLog (s : Session) (events : List Event) :
    List.Forall₂ Yields (resultModes s events) (resultLog s events) := by
  induction events generalizing s with
  | nil => exact .nil
  | cons e events ih => exact List.rel_append (ih (step s e).session) (yields_step s e)

/-- A row of the history stands where it stands in the log, beside its mode. -/
theorem exists_mode_of_row {settings : Settings} {events : List Event} {i : Nat} {row : HistoryRow}
    (h : (after (.start settings) events).history[i]? = some row) :
    ∃ mode, (resultModes (.start settings) events)[i]? = some mode ∧ Yields mode row := by
  rw [history_start] at h
  have hlog : (resultLog (.start settings) events)[i]? = some row := by
    obtain ⟨hi, hrow⟩ := List.getElem?_eq_some_iff.mp h
    rw [← hrow, List.getElem_take, List.getElem?_eq_getElem]
  obtain ⟨hi, rfl⟩ := List.getElem?_eq_some_iff.mp hlog
  have hall := yields_resultLog (.start settings) events
  have hm : i < (resultModes (.start settings) events).length := hall.length_eq ▸ hi
  exact ⟨_, List.getElem?_eq_getElem hm, hall.get hm hi⟩

/-! ## A row evaluated again -/

theorem evaluateEntry_of_yields {s : Session} {result : String} (h : Yields s.mode ⟨s.entry, result⟩) :
    s.evaluateEntry = s.recordResult result := by
  obtain ⟨v, hv, rfl⟩ := h
  simp only [evaluateEntry, hv]

/-- A row that is chosen in the mode it was recorded in gives the same result when it is evaluated: it is
the entry, the display and the answer, it becomes the newest row, and nothing else changes. -/
theorem recalled_row_reproduced {settings : Settings} {events : List Event} {i : Nat} {row : HistoryRow}
    (h : (after (.start settings) events).history[i]? = some row) :
    ∃ mode, (resultModes (.start settings) events)[i]? = some mode ∧
      ((after (.start settings) events).mode = mode → ∀ e, isEvaluation e = true →
        after (after (.start settings) events) [.chooseRow i, e] =
          { after (.start settings) events with
            entry := row.expression
            display := row.result
            answer := row.result
            history := (row :: (after (.start settings) events).history).take
              (after (.start settings) events).historyLimit
            entryFocused := true }) := by
  obtain ⟨mode, hmode, hrow⟩ := exists_mode_of_row h
  refine ⟨mode, hmode, ?_⟩
  generalize after (.start settings) events = s at h
  rintro rfl e he
  have hchoose : step s (.chooseRow i) = quiet (s.edit row.expression true) := by
    simp only [step, recallRow, h]
    rfl
  rw [after_cons, hchoose, after_cons, after_nil, step_evaluation he, quiet, quiet,
    evaluateEntry_of_yields hrow]
  rfl

/-- Two results in two modes, and then the mode of the first again. -/
def resultsInTwoModes : List Event :=
  [.typeText "8", .enter, .click "deg", .escape, .typeText "9", .click "=", .click "rad"]

theorem recalled_row_of_two_modes :
    (after (.start .standard) resultsInTwoModes).history[1]? = some ⟨"8", "8"⟩ ∧
    (after (after (.start .standard) resultsInTwoModes) [.chooseRow 1, .enter]).history =
      [⟨"8", "8"⟩, ⟨"9", "9"⟩, ⟨"8", "8"⟩] := by
  have hrow : (after (.start .standard) resultsInTwoModes).history[1]? = some ⟨"8", "8"⟩ := by
    decide +kernel
  obtain ⟨mode, hmode, h⟩ := recalled_row_reproduced hrow
  have hmodes : (resultModes (.start .standard) resultsInTwoModes)[1]? = some .degrees := by
    decide +kernel
  obtain rfl : AngleMode.degrees = mode := Option.some.inj (hmodes.symm.trans hmode)
  refine ⟨hrow, ?_⟩
  rw [h (by decide +kernel) .enter rfl]
  decide +kernel

end DeskCalculator.Window
