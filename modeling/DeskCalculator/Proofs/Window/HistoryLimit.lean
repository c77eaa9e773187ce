import DeskCalculator.Proofs.Window.History
import Mathlib.Data.List.Forall2

/-!
# Two limits of the history

A smaller limit of the history hides the oldest rows and does nothing else: as long as no hidden row is
chosen, a run with it is the run with the larger limit in which those rows are not seen.
-/

namespace DeskCalculator

/-! ## Hidden rows -/

namespace Session

variable {s : Session} {limit : Nat}

/-- The session as it is when it keeps no more rows. -/
def hideRows (s : Session) (limit : Nat) : Session :=
  { s with history := s.history.take limit, historyLimit := limit }

theorem hideRows_start (settings : Settings) (limit : Nat) :
    (start settings).hideRows limit = start { settings with historyLimit := limit } := by
  simp [hideRows, start]

theorem hideRows_recallRow {row : Nat} (hr : row < limit) :
    (s.hideRows limit).recallRow row = (s.recallRow row).hideRows limit := by
  have hrow : (s.hideRows limit).history[row]? = s.history[row]? := List.getElem?_take_of_lt hr
  unfold recallRow
  rw [hrow]
  cases s.history[row]? <;> rfl

theorem hideRows_recordResult (hl : limit ≤ s.historyLimit) (result : String) :
    (s.hideRows limit).recordResult result = (s.recordResult result).hideRows limit := by
  have hrows (row : HistoryRow) :
      (row :: s.history.take limit).take limit =
      ((row :: s.history).take s.historyLimit).take limit := by
    rw [Window.take_cons_take, List.take_take, Nat.min_eq_left hl]
  simp [recordResult, hideRows, hrows]

theorem hideRows_evaluateEntry (hl : limit ≤ s.historyLimit) :
    (s.hideRows limit).evaluateEntry = s.evaluateEntry.hideRows limit := by
  have he : evaluate (s.hideRows limit).mode (s.hideRows limit).entry = evaluate s.mode s.entry := rfl
  unfold evaluateEntry
  rw [he]
  split
  · exact hideRows_recordResult hl _
  · rfl
  · rfl

theorem hideRows_insertAnswer : (s.hideRows limit).insertAnswer = s.insertAnswer.hideRows limit := by
  have ha : (s.hideRows limit).answer = s.answer := rfl
  unfold insertAnswer
  rw [ha]
  split <;> rfl

end Session

namespace Window

open Session

def Outcome.hideRows (o : Outcome) (limit : Nat) : Outcome := ⟨o.session.hideRows limit, o.copied⟩

/-! ## Runs -/

section

variable {s : Session} {limit : Nat}

theorem hideRows_press (hl : limit ≤ s.historyLimit) (b : Button) :
    press (s.hideRows limit) b = (press s b).hideRows limit := by
  cases b with
  | answer => exact congrArg (fun s => quiet s.focusEntry) hideRows_insertAnswer
  | equals => exact congrArg (fun s => quiet s.focusEntry) (hideRows_evaluateEntry hl)
  | _ => rfl

/-- An event does the same with fewer rows, unless it chooses one that is hidden. -/
theorem hideRows_step (hl : limit ≤ s.historyLimit) {e : Event}
    (he : ∀ row, e = .chooseRow row → row < limit) :
    step (s.hideRows limit) e = (step s e).hideRows limit := by
  cases e with
  | click label =>
      have hb : buttons (s.hideRows limit) = buttons s := rfl
      simp only [step, hb]
      cases (buttons s).lookup label with
      | some b => exact hideRows_press hl b
      | none => rfl
  | chooseRow row => exact congrArg quiet (hideRows_recallRow (he row rfl))
  | typeText text =>
      simp only [step]
      split <;> rfl
  | enter => exact congrArg quiet (hideRows_evaluateEntry hl)
  | escape => rfl

theorem hideRows_run (hl : limit ≤ s.historyLimit) {events : List Event}
    (hrows : ∀ row, .chooseRow row ∈ events → row < limit) :
    run (s.hideRows limit) events = (run s events).map fun o => o.hideRows limit := by
  induction events generalizing s with
  | nil => rfl
  | cons e events ih =>
      have hstep := @hideRows_step s limit hl e fun row he => hrows row (by simp [he])
      have hrest : ∀ row, .chooseRow row ∈ events → row < limit := fun row hr => hrows row (by simp [hr])
      have hnext : limit ≤ (step s e).session.historyLimit := by rwa [historyLimit_step]
      simp only [run, List.map_cons, hstep]
      exact congrArg _ (ih hnext hrest)

end

/-- The two agree in all that is shown, but for the rows that the limit hides in the first. -/
structure AgreesUpTo (limit : Nat) (a b : Outcome) : Prop where
  entry : a.session.entry = b.session.entry
  display : a.session.display = b.session.display
  answer : a.session.answer = b.session.answer
  mode : a.session.mode = b.session.mode
  darkTheme : a.session.darkTheme = b.session.darkTheme
  copied : a.copied = b.copied
  history : a.session.history = b.session.history.take limit

theorem agreesUpTo_hideRows (o : Outcome) (limit : Nat) : AgreesUpTo limit (o.hideRows limit) o :=
  ⟨rfl, rfl, rfl, rfl, rfl, rfl, rfl⟩

/-- Runs from settings that differ only in the limit of the history agree after every event, and the
shorter history is the beginning of the longer one. -/
theorem run_agrees_of_le (settings : Settings) {m n : Nat} (h : m ≤ n) {events : List Event}
    (hrows : ∀ row, .chooseRow row ∈ events → row < m) :
    List.Forall₂ (AgreesUpTo m) (run (.start { settings with historyLimit := m }) events)
      (run (.start { settings with historyLimit := n }) events) := by
  have hrun : run (.start { settings with historyLimit := m }) events =
      (run (.start { settings with historyLimit := n }) events).map fun o => o.hideRows m := by
    rw [← @hideRows_run (.start { settings with historyLimit := n }) m h _ hrows, hideRows_start]
  rw [hrun, List.forall₂_map_left_iff, List.forall₂_same]
  exact fun o _ => agreesUpTo_hideRows o m

/-- Two results, a switch of the mode, and the newest row taken back. -/
def twoResults : List Event :=
  [.typeText "8", .enter, .escape, .typeText "9", .click "=", .click "deg", .chooseRow 0]

theorem run_agrees_of_two_results : 1 ≤ 2 ∧ (∀ row, .chooseRow row ∈ twoResults → row < 1) ∧
    List.Forall₂ (AgreesUpTo 1) (run (.start { Settings.standard with historyLimit := 1 }) twoResults)
      (run (.start { Settings.standard with historyLimit := 2 }) twoResults) := by
  have hrows : ∀ row, .chooseRow row ∈ twoResults → row < 1 := by
    intro row hr
    obtain rfl : row = 0 := by simpa [twoResults] using hr
    decide
  exact ⟨by decide, hrows, run_agrees_of_le Settings.standard (by decide) hrows⟩

end Window

end DeskCalculator
