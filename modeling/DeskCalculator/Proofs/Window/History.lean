import DeskCalculator.Proofs.Window.Run
import Mathlib.Data.List.Induction

/-!
# The history of a run

The history is what the limit leaves of the log of all results, the newest first. Only an evaluation
with a result adds to the log, and nothing else touches the history.
-/

namespace DeskCalculator.Window

open Session

/-! ## The log -/

/-- The row of an evaluation that has a result; no other event has one. -/
def resultRow? (s : Session) (e : Event) : Option HistoryRow :=
  if isEvaluation e then
    match evaluate s.mode s.entry with
    | .ok (some v) => some ⟨s.entry, Display.text v⟩
    | _ => none
  else none

/-- All results of a run with what was evaluated, the newest first. -/
def resultLog (s : Session) : List Event → List HistoryRow
  | [] => []
  | e :: events => resultLog (step s e).session events ++ (resultRow? s e).toList

theorem resultLog_append (s : Session) (events later : List Event) :
    resultLog s (events ++ later) = resultLog (after s events) later ++ resultLog s events := by
  induction events generalizing s with
  | nil => simp [resultLog]
  | cons e events ih => simp [resultLog, ih]

theorem resultRow?_of_not_evaluation {s : Session} {e : Event} (h : isEvaluation e = false) :
    resultRow? s e = none := by
  simp [resultRow?, h]

theorem resultRow?_eq_none {s : Session} {e : Event}
    (h : isEvaluation e = true → ∀ v, evaluate s.mode s.entry ≠ .ok (some v)) :
    resultRow? s e = none := by
  unfold resultRow?
  split
  · rename_i he
    split
    · exact absurd ‹_› (h he _)
    · rfl
  · rfl

/-! ## One event -/

theorem history_step (s : Session) (e : Event) : (step s e).session.history =
    (resultRow? s e).elim s.history fun row => (row :: s.history).take s.historyLimit := by
  have hc := change_step s e
  generalize step s e = outcome at hc
  cases hc with
  | evaluation h =>
      have he := s.evaluated_evaluateEntry
      simp only [quiet]
      generalize s.evaluateEntry = s' at he
      cases he with
      | result hv => simp [resultRow?, h, hv, recordResult]
      | blank hv => simp [resultRow?, h, hv, recordBlank]
      | fault hv => simp [resultRow?, h, hv, recordFault]
  | edit h | nothing h => simp [resultRow?_of_not_evaluation h.evaluation, quiet, edit]
  | mode => simp [resultRow?_of_not_evaluation (isEvaluation_modeLabel s), quiet, toggleMode]
  | theme => simp [resultRow?_of_not_evaluation (isPlain_themeLabel s).evaluation, quiet, toggleTheme]
  | copy => simp [resultRow?_of_not_evaluation (isPlain_copy s).evaluation]

theorem historyLimit_step (s : Session) (e : Event) :
    (step s e).session.historyLimit = s.historyLimit := by
  have hc := change_step s e
  generalize step s e = outcome at hc
  cases hc with
  | evaluation => exact s.historyLimit_evaluateEntry
  | _ => rfl

/-! ## Many events -/

theorem historyLimit_after (s : Session) (events : List Event) :
    (after s events).historyLimit = s.historyLimit := by
  induction events generalizing s with
  | nil => rfl
  | cons e events ih => rw [after_cons, ih, historyLimit_step]

theorem take_cons_take {α : Type} (x : α) (xs : List α) (n : Nat) :
    (x :: xs.take n).take n = (x :: xs).take n := by
  cases n with
  | zero => rfl
  | succ n => simp [List.take_take]

/-- The rows that were there before stay behind the new ones until the limit drops them. -/
theorem history_after {s : Session} (h : s.history.take s.historyLimit = s.history)
    (events : List Event) :
    (after s events).history = (resultLog s events ++ s.history).take s.historyLimit := by
  induction events using List.reverseRecOn with
  | nil => simpa [resultLog] using h.symm
  | append_singleton events e ih =>
      have hlog : resultLog s (events ++ [e]) =
          (resultRow? (after s events) e).toList ++ resultLog s events := by
        simp [resultLog_append, resultLog]
      rw [after_append, after_cons, after_nil, history_step, ih, historyLimit_after, hlog]
      cases resultRow? (after s events) e with
      | none => rfl
      | some row => exact take_cons_take row _ _

theorem history_start (settings : Settings) (events : List Event) :
    (after (.start settings) events).history =
      (resultLog (.start settings) events).take settings.historyLimit := by
  have h := @history_after (.start settings) List.take_nil events
  rwa [Session.start, List.append_nil] at h

/-- The event evaluates the entry and there is a result. -/
def Succeeds (s : Session) (e : Event) : Prop :=
  isEvaluation e = true ∧ ∃ v, evaluate s.mode s.entry = .ok (some v)

theorem resultLog_ne_nil {s : Session} {earlier later : List Event} {e : Event}
    (h : Succeeds (after s earlier) e) :
    resultLog s (earlier ++ e :: later) ≠ [] := by
  obtain ⟨he, v, hv⟩ := h
  have hrow : resultRow? (after s earlier) e = some ⟨(after s earlier).entry, Display.text v⟩ := by
    simp [resultRow?, he, hv]
  simp [resultLog_append, resultLog, hrow]

/-- The history is the newest part of the log of results; an event without a result leaves it as it is,
and the limit never changes. -/
theorem history_eq_take_resultLog (settings : Settings) (events : List Event) :
    (after (.start settings) events).history =
      (resultLog (.start settings) events).take settings.historyLimit ∧
    (after (.start settings) events).historyLimit = settings.historyLimit ∧
    ∀ s e, (isEvaluation e = true → ∀ v, evaluate s.mode s.entry ≠ .ok (some v)) →
      (step s e).session.history = s.history := by
  refine ⟨?_, historyLimit_after _ events, fun s e h => ?_⟩
  · have hstart : (Session.start settings).history.take (Session.start settings).historyLimit =
        (Session.start settings).history := List.take_nil
    simpa [Session.start] using history_after hstart events
  · rw [history_step, resultRow?_eq_none h]
    rfl

end DeskCalculator.Window
