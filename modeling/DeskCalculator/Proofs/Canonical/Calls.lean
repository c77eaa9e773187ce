import DeskCalculator.Proofs.Canonical.Percent

/-!
# Calls of a text without parentheses

From a text without parentheses the rules make a text that asks for as many calls as there were factorial
signs, unless a percent literal stands behind a word; then it asks for more.
-/

namespace DeskCalculator.Canonical

open Character Rule

/-! ## Up to the factorial signs -/

section

variable {raw : List Char}

theorem read_raw (ho : '(' ∉ raw) (s : Tally) :
    (s.read raw).calls = s.calls ∧ (s.read raw).signs = s.signs + raw.count '!' := by
  induction raw generalizing s with
  | nil => exact ⟨rfl, rfl⟩
  | cons c raw ih =>
      obtain ⟨hc, hr⟩ := not_or.mp (List.mem_cons.not.mp ho)
      obtain ⟨hcalls, hsigns⟩ := ih hr (s.next c)
      rw [Tally.read_cons, hcalls, hsigns, List.count_cons]
      refine ⟨by simp [Tally.next, Ne.symm hc], ?_⟩
      by_cases hs : c = '!'
      · simp only [Tally.next, hs, if_true, beq_self_eq_true]
        omega
      · simp [Tally.next, hs]

theorem ofText_beforeCalls (raw : List Char) :
    Tally.ofText (beforeCalls raw) = Tally.ofText (percent.apply (raw.map asciiSign)) := by
  rw [beforeCalls, Tally.ofText, read_flatMap_powerSign, euler_keepsTally.read_apply,
    pi_keepsTally.read_apply]
  rfl

theorem ofText_beforeCalls_of_not (h : ¬ PercentBehindWord raw) :
    Tally.ofText (beforeCalls raw) = Tally.ofText raw := by
  rw [ofText_beforeCalls, ofText_percent (percentBehindWord_map_asciiSign.not.mpr h)]
  exact read_map_asciiSign _ raw

/-- A text that asks for no call has none to name. -/
theorem functionCall_eq_self_of_calls {text : List Char} (h : (Tally.ofText text).calls = 0) :
    functionCall.apply text = text := by
  refine applyFrom_induction
    (motive := fun _ text written => ∀ s : Tally, (s.read text).calls = s.calls → written = text)
    functionCall_takes (fun _ _ _ => rfl) ?_ ?_ none text _ h
  · intro previous c rest written _ ih s hs
    rw [ih (s.next c) (Tally.calls_of_cons hs).2]
  · intro previous taken rest written r hr hl _ s hs
    obtain ⟨-, f, word, after, ht, hw, rfl⟩ := functionCall_eq_some hr
    rw [ht, Tally.read_append, Tally.read_word hw.isWord.1 hw.isWord.2, Tally.read_cons,
      Tally.next_opening, if_pos rfl] at hs
    have hle := Tally.calls_le_read ⟨false, s.calls + 1, s.signs⟩ after
    exact absurd (Nat.le_trans hle (Nat.le_of_eq hs)) (Nat.not_succ_le_self s.calls)

end

/-! ## Factorial signs -/

namespace Tally

/-- The two count the same when a factorial sign counts as its call. -/
structure SameTotal (s s' : Tally) : Prop where
  behindWord : s.behindWord = s'.behindWord
  total : s.calls + s.signs = s'.calls + s'.signs

theorem SameTotal.next {s s' : Tally} (h : SameTotal s s') (c : Char) :
    SameTotal (s.next c) (s'.next c) := by
  obtain ⟨hb, ht⟩ := h
  refine ⟨by simp [Tally.next, hb], ?_⟩
  simp only [Tally.next, hb]
  split <;> split <;> omega

end Tally

section

variable {s s' : Tally} {previous : Option Char} {text literal : List Char}

theorem read_factorial_taken (h : IsLiteral literal) :
    s.read (literal ++ ['!']) = ⟨false, s.calls, s.signs + 1⟩ := by
  rw [Tally.read_append, Tally.read_literal h, Tally.read_cons, Tally.next_factorial]
  rfl

theorem read_factorial_written (h : IsLiteral literal) :
    s.read ("factorial(".toList ++ literal ++ ")".toList) = ⟨false, s.calls + 1, s.signs⟩ := by
  have hopen : "factorial(".toList = NamedFunction.factorial.name.toList ++ ['('] := by decide
  rw [hopen, Tally.read_append, Tally.read_append, Tally.read_append, Tally.read_name, Tally.read_cons,
    Tally.next_opening,
    if_pos rfl, Tally.read_nil, Tally.read_literal h, Tally.read_of_last (c := ')') rfl (by decide)
      (forall_mem_of_all (by decide))]
  rfl

theorem sameTotal_factorial (h : Tally.SameTotal s s') :
    Tally.SameTotal (s.read text) (s'.read (factorial.applyFrom 0 previous text)) := by
  refine related_applyFrom (signRule_takes _ _ _) (fun _ _ c h => h.next c) ?_ h previous text
  rintro previous taken rest r hr hl s s' ⟨-, ht⟩
  obtain ⟨literal, hlit, rfl, hw⟩ := taken_of_signRule hr hl
  show Tally.SameTotal (s.read _) (s'.read _)
  rw [hw, read_factorial_taken hlit, read_factorial_written hlit]
  exact ⟨rfl, by simp only; omega⟩

end

/-- Behind `before`, each parenthesis of the text that stands behind a word stands directly behind the
name of the factorial. -/
def FactorialsOnly : (before text : List Char) → Prop
  | _, [] => True
  | before, c :: rest =>
    (c = '(' → behindWord before = true → NamedFunction.factorial.name.toList <:+ before) ∧
      FactorialsOnly (before ++ [c]) rest

theorem factorialsOnly_append {before text rest : List Char} :
    FactorialsOnly before (text ++ rest) ↔
    FactorialsOnly before text ∧ FactorialsOnly (before ++ text) rest := by
  induction text generalizing before with
  | nil => simp [FactorialsOnly]
  | cons c text ih => simp [FactorialsOnly, ih, and_assoc]

theorem FactorialsOnly.of_notMem {before text : List Char} (h : '(' ∉ text) :
    FactorialsOnly before text := by
  induction text generalizing before with
  | nil => trivial
  | cons c text ih =>
      obtain ⟨hc, ht⟩ := not_or.mp (List.mem_cons.not.mp h)
      exact ⟨fun he => absurd he.symm hc, ih ht⟩

/-- The rule for factorials is the only one that writes a name before its parenthesis when no call was
asked for. -/
theorem factorialsOnly_factorial {s : Tally} {before text : List Char} {previous : Option Char}
    (hb : s.behindWord = behindWord before) (hc : (s.read text).calls = s.calls) :
    FactorialsOnly before (factorial.applyFrom 0 previous text) := by
  refine applyFrom_induction
    (motive := fun _ text written => ∀ (s : Tally) before, s.behindWord = behindWord before →
      (s.read text).calls = s.calls → FactorialsOnly before written)
    (signRule_takes _ _ _) (fun _ _ _ _ _ => trivial) ?_ ?_ previous text s before hb hc
  · intro previous c rest written _ ih s before hb hc
    obtain ⟨hc, hrest⟩ := Tally.calls_of_cons hc
    refine ⟨?_, ih (s.next c) _ (Tally.behindWord_read hb [c]) hrest⟩
    rintro rfl hword
    have hcall : (s.next '(').calls = s.calls + 1 := by
      rw [Tally.next_opening]
      exact if_pos (hb.trans hword)
    omega
  · intro previous taken rest written r hr hl ih s before hb hc
    obtain ⟨literal, hlit, rfl, hw⟩ := taken_of_signRule hr hl
    have hparen : '(' ∉ literal := by
      intro hm
      rcases hlit.mem _ hm with h | h <;> exact absurd h (by decide)
    have hopen : "factorial(".toList = NamedFunction.factorial.name.toList ++ ['('] := by decide
    rw [Tally.read_append, read_factorial_taken hlit] at hc
    rw [hw, factorialsOnly_append]
    refine ⟨?_, ih ⟨false, s.calls, s.signs + 1⟩ _ ?_ hc⟩
    · rw [hopen, List.append_assoc, List.append_assoc, factorialsOnly_append]
      refine ⟨.of_notMem (by decide), fun _ _ => List.suffix_append _ _, .of_notMem ?_⟩
      simpa using hparen
    · rw [← Tally.behindWord_read hb, read_factorial_written hlit]

/-! ## Trigonometric calls -/

theorem noCall_of_factorialsOnly {text : List Char} (h : FactorialsOnly [] text) : NoCall text := by
  have hletter : ∀ n ∈ trigNames, ∀ letter ∈ n.toList, spells letter 'l' = false := by
    have h : trigNames.all (fun n => n.toList.all fun letter => !spells letter 'l') = true := by decide
    simpa using h
  rintro before word rest rfl ⟨-, name, hn, hname⟩
  obtain ⟨hne, hword⟩ := word_of_forall₂ (by simp [hn]) hname
  have hbehind : behindWord (before ++ word) = true := by
    rw [← Tally.behindWord_ofText, Tally.ofText_append, Tally.read_word hne hword]
  obtain ⟨front, hfront⟩ := ((factorialsOnly_append.mp h).2.1 rfl hbehind)
  have hlast : (before ++ word).getLast? = some 'l' := by
    rw [List.nil_append] at hfront
    rw [← hfront, List.getLast?_append]
    rfl
  rw [List.getLast?_append_of_ne_nil _ hne] at hlast
  exact notMem_of_spells (hletter name hn) hname (List.mem_of_getLast? hlast)

section

variable {s s' : Tally}

theorem read_openTrig {name : List Char} (hne : name ≠ []) (h : ∀ c ∈ name, isWord c = true) :
    s.read (openTrig name) = ⟨false, s.calls + 1, s.signs⟩ := by
  have hmath : s.read "math.".toList = ⟨isWord '.', s.calls, s.signs⟩ :=
    Tally.read_of_last rfl (by decide) (forall_mem_of_all (by decide))
  rw [openTrig, Tally.read_append, Tally.read_append, hmath, Tally.read_word hne h, Tally.read_cons,
    Tally.next_opening, if_pos rfl]
  rfl

/-- What is written before an argument opens a call, and perhaps another parenthesis behind a word. -/
theorem below_wrapping_before {mode : AngleMode} {name : List Char} (hne : name ≠ [])
    (hw : ∀ c ∈ name, isWord c = true) (h : Tally.Below s s') :
    Tally.Below ⟨false, s.calls + 1, s.signs⟩ (s'.read (wrapping mode name).before) := by
  obtain ⟨-, hc, hs⟩ := h
  unfold wrapping
  split
  · rw [read_openTrig hne hw]
    exact ⟨rfl, Nat.succ_le_succ hc, hs⟩
  · rw [Tally.read_append, read_openTrig hne hw, Tally.read_cons, Tally.next_opening,
      if_neg Bool.false_ne_true]
    exact ⟨rfl, Nat.succ_le_succ hc, hs⟩
  · rw [Tally.read_cons, Tally.next_opening, read_openTrig hne hw]
    refine ⟨rfl, Nat.succ_le_succ ?_, hs⟩
    show s.calls ≤ if s'.behindWord = true then s'.calls + 1 else s'.calls
    split <;> omega

theorem read_wrapping_after (mode : AngleMode) (name : List Char) :
    s.read (wrapping mode name).after = ⟨false, s.calls, s.signs⟩ := by
  have hclose (text : List Char) (hl : text.getLast? = some ')') (hp : ∀ d ∈ text, d ≠ '(' ∧ d ≠ '!') :
      s.read text = ⟨false, s.calls, s.signs⟩ := by
    rw [Tally.read_of_last hl (by decide) hp]
    rfl
  unfold wrapping
  split
  · exact hclose ")".toList rfl (forall_mem_of_all (by decide))
  · exact hclose ")*math.pi/180)".toList rfl (forall_mem_of_all (by decide))
  · exact hclose ")*180/math.pi)".toList rfl (forall_mem_of_all (by decide))

theorem read_call {before word rest : List Char} (h : CallWord before word) :
    s.read (before ++ word ++ '(' :: rest) =
      Tally.read ⟨false, (s.read before).calls + 1, (s.read before).signs⟩ rest := by
  obtain ⟨hne, hword⟩ := h.isWord
  rw [Tally.read_append, Tally.read_append, Tally.read_word hne hword, Tally.read_cons,
    Tally.next_opening, if_pos rfl]

/-- The expansion asks for no fewer calls. -/
theorem below_expands {mode : AngleMode} {text expanded : List Char} (ht : Expands mode text expanded)
    (h : Tally.Below s s') : Tally.Below (s.read text) (s'.read expanded) := by
  induction ht generalizing s s' with
  | plain _ => exact h.read _
  | @closed text before word rest argument after a b hf hc _ _ iha ihb =>
      obtain ⟨hne, hw⟩ := hf.call.isWord_toLower
      have hopen := @below_wrapping_before _ _ mode _ hne hw (h.read before)
      have hargument := iha hopen
      have hclose : ∀ s : Tally, s.next ')' = ⟨false, s.calls, s.signs⟩ := fun s =>
        Tally.next_plain (by decide) (by decide) (by decide)
      rw [hf.parts, read_call hf.call, hc.parts, Tally.read_append, Tally.read_cons, hclose]
      simp only [Tally.read_append] at hargument ⊢
      rw [read_wrapping_after]
      exact ihb ⟨rfl, hargument.calls, hargument.signs⟩
  | @unclosed text before word rest b hf _ _ ihb =>
      obtain ⟨hne, hw⟩ := hf.call.isWord_toLower
      obtain ⟨-, hc, hs⟩ := h.read before
      rw [hf.parts, read_call hf.call, Tally.read_append, Tally.read_append, read_openTrig hne hw]
      exact ihb ⟨rfl, Nat.succ_le_succ hc, hs⟩

theorem below_expandTrig (mode : AngleMode) (text : List Char) :
    Tally.Below (Tally.ofText text) (Tally.ofText (expandTrig mode text)) :=
  below_expands (expands_expandTrig mode text) (.refl _)

end

/-! ## The whole text -/

section

variable {raw : List Char}

theorem sameTotal_beforeTrig (raw : List Char) :
    Tally.SameTotal (Tally.ofText (beforeCalls raw)) (Tally.ofText (beforeTrig raw)) := by
  have h : Tally.ofText (functionCall.apply (beforeCalls raw)) = Tally.ofText (beforeCalls raw) :=
    functionCall_keepsTally.read_apply _ _
  rw [← h]
  exact sameTotal_factorial ⟨rfl, rfl⟩

theorem ofText_raw (ho : '(' ∉ raw) :
    (Tally.ofText raw).calls = 0 ∧ (Tally.ofText raw).signs = raw.count '!' := by
  simpa [Tally.ofText] using read_raw ho ⟨false, 0, 0⟩

/-- Behind a word the parenthesis of a percent literal is one call more, and no rule takes it back. -/
theorem count_lt_of_percentBehindWord (mode : AngleMode) (ho : '(' ∉ raw) (h : PercentBehindWord raw) :
    raw.count '!' < (Tally.ofText (text mode raw)).calls + (Tally.ofText (text mode raw)).signs := by
  obtain ⟨hcalls, hsigns⟩ := ofText_raw ho
  have hraw : Tally.ofText (raw.map asciiSign) = Tally.ofText raw := read_map_asciiSign _ raw
  have hlt := calls_lt_percent (percentBehindWord_map_asciiSign.mpr h)
  have hpercent : Tally.Below (Tally.ofText (raw.map asciiSign))
      (Tally.ofText (percent.apply (raw.map asciiSign))) :=
    below_percent (.refl _)
  have htotal := (sameTotal_beforeTrig raw).total
  obtain ⟨-, hle, hsame⟩ := below_expandTrig mode (beforeTrig raw)
  have hkept := hpercent.signs
  rw [hraw] at hlt hkept
  rw [ofText_beforeCalls] at htotal
  rw [text]
  omega

/-- Without such a literal no rule finds a call. -/
theorem rules_quiet_of_not_percentBehindWord (mode : AngleMode) (ho : '(' ∉ raw)
    (h : ¬ PercentBehindWord raw) :
    functionCall.apply (beforeCalls raw) = beforeCalls raw ∧ text mode raw = beforeTrig raw ∧
      FactorialsOnly [] (beforeTrig raw) := by
  obtain ⟨hcalls, -⟩ := ofText_raw ho
  rw [← ofText_beforeCalls_of_not h] at hcalls
  have hfunction := functionCall_eq_self_of_calls hcalls
  have hfactorials : FactorialsOnly [] (beforeTrig raw) := by
    show FactorialsOnly [] (factorial.apply (functionCall.apply (beforeCalls raw)))
    rw [hfunction]
    exact factorialsOnly_factorial (s := ⟨false, 0, 0⟩) rfl hcalls
  exact ⟨hfunction, expandTrig_noCall (noCall_of_factorialsOnly hfactorials), hfactorials⟩

theorem total_beforeTrig (ho : '(' ∉ raw) (h : ¬ PercentBehindWord raw) :
    (Tally.ofText (beforeTrig raw)).calls + (Tally.ofText (beforeTrig raw)).signs = raw.count '!' := by
  obtain ⟨hcalls, hsigns⟩ := ofText_raw ho
  have htotal := (sameTotal_beforeTrig raw).total
  rw [ofText_beforeCalls_of_not h] at htotal
  omega

end

end DeskCalculator.Canonical
