import DeskCalculator.Proofs.Answer
import DeskCalculator.Proofs.Window.Run

/-!
# What a window shows

The display, the last answer and the history belong together in every reachable window. The display
shows the value of the entry in the mode of the last evaluation; only a switch of the mode, which
leaves the display, can make it stale.
-/

namespace DeskCalculator

theorem AngleMode.eq_or_eq_toggle (m n : AngleMode) : n = m ∨ n = m.toggle := by
  cases m <;> cases n <;> decide

theorem Display.text_ne_empty {v : Float} (h : IsResult v) : Display.text v ≠ "" := by
  intro ht
  obtain ⟨q, w, hr⟩ := Display.exists_reads h
  have hblank : evaluate .degrees "" = .ok none := evaluate_eq_none_iff.mpr rfl
  have hw := hr.evaluates .degrees
  rw [ht, hblank] at hw
  cases hw

namespace Window

open Session

/-! ## The mode -/

/-- How often a run switches the mode. -/
def switchCount (s : Session) : List Event → Nat
  | [] => 0
  | e :: events => (if e = .click (modeLabel s) then 1 else 0) + switchCount (step s e).session events

theorem mode_step (s : Session) (e : Event) :
    (step s e).session.mode = if e = .click (modeLabel s) then s.mode.toggle else s.mode := by
  have hc := change_step s e
  generalize step s e = outcome at hc
  cases hc with
  | evaluation h =>
      have hne : e ≠ .click (modeLabel s) := by
        rintro rfl
        simp [isEvaluation_modeLabel] at h
      rw [if_neg hne]
      exact s.mode_evaluateEntry
  | edit h | nothing h => exact (if_neg h.mode).symm
  | mode => exact (if_pos rfl).symm
  | theme => exact (if_neg (isPlain_themeLabel s).mode).symm
  | copy => exact (if_neg (isPlain_copy s).mode).symm

theorem mode_after (s : Session) (events : List Event) :
    (after s events).mode = if Even (switchCount s events) then s.mode else s.mode.toggle := by
  induction events generalizing s with
  | nil => simp [switchCount]
  | cons e events ih =>
      rw [after_cons, ih, mode_step, switchCount]
      by_cases he : e = .click (modeLabel s)
      · subst he
        by_cases hn : Even (switchCount (step s (.click (modeLabel s))).session events) <;>
          simp [hn, Nat.even_add, ← Nat.not_even_iff_odd]
      · simp [he]

theorem modeLabel_evaluateEntry (s : Session) : modeLabel s.evaluateEntry = modeLabel s := by
  simp only [modeLabel, mode_evaluateEntry]

theorem after_enter_switch (s : Session) :
    after s [.enter, .click (modeLabel s)] = s.evaluateEntry.toggleMode := by
  have henter : step s .enter = quiet s.evaluateEntry := step_evaluation rfl
  rw [after_cons, after_cons, after_nil, henter, quiet, ← modeLabel_evaluateEntry, step_modeLabel, quiet]

theorem switchCount_enter_switch (s : Session) : switchCount s [.enter, .click (modeLabel s)] = 1 := by
  simp [switchCount, step_evaluation (e := .enter) rfl, quiet, modeLabel_evaluateEntry]

/-! ## The display -/

/-- What the display shows once the entry was evaluated in the mode. -/
inductive Shows (mode : AngleMode) (entry : String) : String → Prop
  | result {v : Float} (h : evaluate mode entry = .ok (some v)) : Shows mode entry (Display.text v)
  | fault {f : Fault} (h : evaluate mode entry = .error f) : Shows mode entry faultText

theorem Shows.unique {mode : AngleMode} {entry d d' : String} (h : Shows mode entry d)
    (h' : Shows mode entry d') :
    d = d' := by
  cases h with
  | result h =>
      cases h' with
      | result h' =>
          rw [h] at h'
          cases h'
          rfl
      | fault h' =>
          rw [h] at h'
          cases h'
  | fault h =>
      cases h' with
      | result h' =>
          rw [h] at h'
          cases h'
      | fault h' => rfl

theorem shows_evaluateEntry (s : Session) :
    s.evaluateEntry.display = "" ∨ Shows s.mode s.entry s.evaluateEntry.display := by
  have he := s.evaluated_evaluateEntry
  generalize s.evaluateEntry = s' at he
  cases he with
  | result h => exact .inr (.result h)
  | blank h => exact .inl rfl
  | fault h => exact .inr (.fault h)

theorem display_evaluateEntry_ne_empty {s : Session} (h : isBlank s.entry = false) :
    s.evaluateEntry.display ≠ "" := by
  have he := s.evaluated_evaluateEntry
  generalize s.evaluateEntry = s' at he
  cases he with
  | result hv => exact Display.text_ne_empty (isResult_of_evaluate hv)
  | blank hv => exact absurd (evaluate_eq_none_iff.mp hv) (by simp [h])
  | fault hv => exact (by decide : faultText ≠ "")

/-- What does not evaluate the entry keeps the display together with the entry, or clears it. -/
theorem display_step {s : Session} {e : Event} (h : isEvaluation e = false) :
    (step s e).session.display = "" ∨
    (step s e).session.display = s.display ∧ (step s e).session.entry = s.entry := by
  have hc := change_step s e
  generalize step s e = outcome at hc
  cases hc with
  | evaluation he => simp [h] at he
  | edit => exact .inl rfl
  | mode | theme | copy | nothing => exact .inr ⟨rfl, rfl⟩

/-- The run evaluates the entry after the events `before`, and not again in `later`. -/
structure LastEvaluation (events before : List Event) (e : Event) (later : List Event) : Prop where
  split : events = before ++ e :: later
  evaluates : isEvaluation e = true
  last : ∀ e' ∈ later, isEvaluation e' = false

theorem LastEvaluation.before_eq {a b c e : Event} {before later : List Event}
    (h : LastEvaluation [a, b, c] before e later) (ha : isEvaluation a = false)
    (hc : isEvaluation c = false) :
    before = [a] ∧ e = b ∧ later = [c] := by
  obtain ⟨hsplit, he, -⟩ := h
  match before with
  | [] =>
      obtain ⟨rfl, -⟩ := List.cons.inj hsplit
      simp [ha] at he
  | [_] => simpa [eq_comm] using hsplit
  | [_, _] =>
      obtain ⟨-, -, rfl, -⟩ : _ ∧ _ ∧ c = e ∧ _ := by simpa using hsplit
      simp [hc] at he
  | _ :: _ :: _ :: _ => simp at hsplit

theorem exists_lastEvaluation {s : Session} (hs : s.display = "") (events : List Event)
    (h : (after s events).display ≠ "") : ∃ before e later, LastEvaluation events before e later ∧
      Shows (after s before).mode (after s events).entry (after s events).display := by
  induction events using List.reverseRecOn with
  | nil => exact absurd hs h
  | append_singleton events e ih =>
      -- The event is the last evaluation itself, or it keeps what the last evaluation displayed.
      rw [after_append, after_cons, after_nil] at h ⊢
      by_cases he : isEvaluation e = true
      · refine ⟨events, e, [], ⟨rfl, he, by simp⟩, ?_⟩
        rw [step_evaluation he] at h ⊢
        rw [quiet, entry_evaluateEntry]
        exact (shows_evaluateEntry (after s events)).resolve_left h
      · have he := Bool.eq_false_of_not_eq_true he
        obtain ⟨hd, hentry⟩ := (display_step he).resolve_left h
        rw [hd] at h
        obtain ⟨before, e', later, hl, hshows⟩ := ih h
        refine ⟨before, e', later ++ [e], ⟨by simp [hl.split], hl.evaluates, ?_⟩, ?_⟩
        · simpa [or_imp, forall_and, he] using hl.last
        · rwa [hd, hentry]

/-- The display is right exactly where the mode was switched an even number of times since the last
evaluation, or where both modes show the same; after an odd number of switches it still shows the value
in the other mode. -/
theorem display_fresh_iff (settings : Settings) (events : List Event)
    (h : (after (.start settings) events).display ≠ "") :
    ∃ before e later, LastEvaluation events before e later ∧
      (Shows (after (.start settings) events).mode (after (.start settings) events).entry
          (after (.start settings) events).display ↔
        Even (switchCount (after (.start settings) before) (e :: later)) ∨
          ∃ shown, ∀ mode, Shows mode (after (.start settings) events).entry shown) ∧
      (¬ Even (switchCount (after (.start settings) before) (e :: later)) →
        Shows (after (.start settings) events).mode.toggle (after (.start settings) events).entry
          (after (.start settings) events).display) := by
  obtain ⟨before, e, later, hl, hshows⟩ := exists_lastEvaluation (s := .start settings) rfl events h
  have hmode := mode_after (after (.start settings) before) (e :: later)
  rw [← after_append, ← hl.split] at hmode
  refine ⟨before, e, later, hl, ?_⟩
  generalize after (.start settings) events = s at hshows hmode
  generalize after (.start settings) before = s₀ at hshows hmode
  by_cases hn : Even (switchCount s₀ (e :: later))
  · rw [if_pos hn] at hmode
    rw [← hmode] at hshows
    exact ⟨iff_of_true hshows (.inl hn), fun h => absurd hn h⟩
  · rw [if_neg hn] at hmode
    have hother : Shows s.mode.toggle s.entry s.display := by rwa [hmode, AngleMode.toggle_toggle]
    refine ⟨⟨fun hnow => .inr ⟨s.display, fun mode => ?_⟩, ?_⟩, fun _ => hother⟩
    · rcases s.mode.eq_or_eq_toggle mode with rfl | rfl
      · exact hnow
      · exact hother
    · rintro (heven | ⟨shown, hall⟩)
      · exact absurd heven hn
      · rw [hother.unique (hall _)]
        exact hall _

/-- The sine of 30 is evaluated in degrees and then the mode is switched: the display is right only if
the sine of 30 radians looks the same. -/
theorem display_stale_of_switch :
    (after (.start .standard) [.typeText "sin(30)", .enter, .click "deg"]).display ≠ "" ∧
    (Shows .radians "sin(30)"
      (after (.start .standard) [.typeText "sin(30)", .enter, .click "deg"]).display ↔
      ∃ shown, ∀ mode, Shows mode "sin(30)" shown) ∧
    Shows .degrees "sin(30)"
      (after (.start .standard) [.typeText "sin(30)", .enter, .click "deg"]).display := by
  obtain ⟨s, hs⟩ : ∃ s, s = after (.start .standard) [.typeText "sin(30)"] := ⟨_, rfl⟩
  have hmode : s.mode = .degrees := hs ▸ rfl
  have hentry : s.entry = "sin(30)" := hs ▸ rfl
  have hlabel : modeLabel s = "deg" := by
    rw [modeLabel, hmode]
    rfl
  have hrun : after (.start .standard) [.typeText "sin(30)", .enter, .click "deg"] =
      s.evaluateEntry.toggleMode := by
    rw [← after_enter_switch, hlabel, hs, ← after_append, List.singleton_append]
  have hcount : switchCount s [.enter, .click "deg"] = 1 := hlabel ▸ switchCount_enter_switch s
  have hvisible : isBlank s.entry = false := by
    rw [hentry]
    decide
  have hshown : s.evaluateEntry.toggleMode.display ≠ "" := display_evaluateEntry_ne_empty hvisible
  obtain ⟨before, e, later, hl, hiff, hodd⟩ := display_fresh_iff .standard _ (hrun ▸ hshown)
  obtain ⟨rfl, rfl, rfl⟩ := hl.before_eq rfl rfl
  rw [← hs, hcount, hrun] at hiff hodd
  rw [hrun]
  have hnow : s.evaluateEntry.toggleMode.mode = .radians := by
    rw [toggleMode, mode_evaluateEntry, hmode]
    rfl
  have hthere : s.evaluateEntry.toggleMode.entry = "sin(30)" := by
    rw [toggleMode, entry_evaluateEntry, hentry]
  rw [hnow, hthere] at hiff hodd
  refine ⟨hshown, ?_, hodd (by decide)⟩
  simpa using hiff

/-! ## The last answer -/

/-- The display, the last answer and the history fit together. -/
structure Coherent (s : Session) : Prop where
  display : s.display = "" ∨ (s.display = faultText ∧ s.answer = "") ∨
    (s.display = s.answer ∧ s.answer ≠ "")
  answer : s.answer ≠ "" → ∃ mode raw v, evaluate mode raw = .ok (some v) ∧ s.answer = Display.text v
  newest : s.answer ≠ "" → 1 ≤ s.historyLimit → s.history.head?.map HistoryRow.result = some s.answer
  rows : ∀ row ∈ s.history, ∃ mode v,
    evaluate mode row.expression = .ok (some v) ∧ row.result = Display.text v

namespace Coherent

variable {s : Session}

theorem start (settings : Settings) : Coherent (.start settings) where
  display := .inl rfl
  answer h := absurd rfl h
  newest h := absurd rfl h
  rows := by simp [Session.start]

theorem edit (h : Coherent s) (entry : String) (focused : Bool) : Coherent (s.edit entry focused) :=
  { h with display := .inl rfl }

theorem recordResult {v : Float} (h : Coherent s) (hv : evaluate s.mode s.entry = .ok (some v)) :
    Coherent (s.recordResult (Display.text v)) where
  display := .inr (.inr ⟨rfl, Display.text_ne_empty (isResult_of_evaluate hv)⟩)
  answer _ := ⟨s.mode, s.entry, v, hv, rfl⟩
  newest _ hlimit := by
    obtain ⟨n, hn⟩ := Nat.exists_eq_add_of_le' hlimit
    simp_all [Session.recordResult]
  rows row hrow := by
    rcases List.mem_cons.mp (List.mem_of_mem_take hrow) with rfl | hrow
    · exact ⟨s.mode, v, hv, rfl⟩
    · exact h.rows row hrow

theorem recordFault (h : Coherent s) : Coherent s.recordFault where
  display := .inr (.inl ⟨rfl, rfl⟩)
  answer ha := absurd rfl ha
  newest ha := absurd rfl ha
  rows := h.rows

theorem evaluateEntry (h : Coherent s) : Coherent s.evaluateEntry := by
  have he := s.evaluated_evaluateEntry
  generalize s.evaluateEntry = s' at he
  cases he with
  | result hv => exact h.recordResult hv
  | blank hv => exact { h with display := .inl rfl }
  | fault hv => exact h.recordFault

theorem step (h : Coherent s) (e : Event) : Coherent (step s e).session := by
  have hc := change_step s e
  generalize Window.step s e = outcome at hc
  cases hc with
  | evaluation => exact h.evaluateEntry
  | edit _ entry focused => exact h.edit entry focused
  | mode | theme | nothing => exact { h with }
  | copy => exact h

end Coherent

theorem coherent_after (settings : Settings) (events : List Event) :
    Coherent (after (.start settings) events) :=
  after_invariant (fun _ e h => h.step e) (.start settings) events

theorem copied_eq_some_iff {s : Session} {e : Event} {text : String} :
    (step s e).copied = some text ↔ e = .click "Copier" ∧ text = s.answer ∧ text ≠ "" := by
  constructor
  · intro h
    have hc := change_step s e
    generalize step s e = outcome at hc h
    cases hc with
    | copy ha =>
        obtain rfl := Option.some.inj h
        exact ⟨rfl, rfl, ha⟩
    | _ => cases h
  · rintro ⟨rfl, rfl, ha⟩
    simp [step_copy, press, canCopy, ha]

/-- In every reachable window the display is empty, or tells of a fault and there is no answer, or is the
answer; the answer and all rows of the history are results, the newest first, and only an answer is ever
copied. -/
theorem coherent_window (settings : Settings) (events : List Event) :
    Coherent (after (.start settings) events) ∧
    ∀ e text, (step (after (.start settings) events) e).copied = some text ↔
      e = .click "Copier" ∧ text = (after (.start settings) events).answer ∧ text ≠ "" :=
  ⟨coherent_after settings events, fun _ _ => copied_eq_some_iff⟩

end Window

end DeskCalculator
