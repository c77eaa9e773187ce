import DeskCalculator.Evaluation
import DeskCalculator.Proofs.Canonical.Calls
import DeskCalculator.Proofs.Expr.Calls
import DeskCalculator.Proofs.Token.Lexer

/-!
# Calls without a parenthesis

Whoever types no parenthesis gets the factorials that were asked for and no other call, unless a percent
literal stands behind a word: what is written for it is then called.
-/

namespace DeskCalculator

open Canonical Character DeskCalculator.Except

/-! ## The tally of a text and of its tokens -/

theorem Token.Spelled.plain {t : Token} {word : List Char} (h : t.Spelled word) (hne : t ≠ .opening) :
    ∀ c ∈ word, c ≠ '(' ∧ c ≠ '!' := by
  cases h with
  | opening => exact absurd rfl hne
  | closing | power => exact forall_mem_of_all (by decide)
  | op o => cases o <;> exact forall_mem_of_all (by decide)
  | name hw _ | number hw =>
      intro c hc
      refine ⟨?_, ?_⟩ <;> rintro rfl <;> exact absurd (hw _ hc) (by decide)

/-- An opening parenthesis counts as a call behind a word, and every other word counts only by its end. -/
theorem Token.Spelled.calls_read {t : Token} {word : List Char} (h : t.Spelled word) (s : Tally) :
    (s.read word).calls = s.calls + (if s.behindWord = true ∧ t = .opening then 1 else 0) ∧
      (s.read word).signs = s.signs := by
  by_cases ht : t = .opening
  · subst ht
    cases h
    rw [Tally.read_cons, Tally.next_opening, Tally.read_nil]
    refine ⟨?_, rfl⟩
    cases s.behindWord <;> rfl
  · simpa [ht] using Tally.read_plain (h.plain ht)

theorem Token.Spelled.behindWord_name {n : String} {word : List Char} (h : (Token.name n).Spelled word)
    (s : Tally) :
    (s.read word).behindWord = true := by
  have hplain := h.plain nofun
  cases h with
  | name hw hl =>
      obtain ⟨c, hl, hc⟩ := hl
      have hword := isWord_of_isNamePart hc
      rw [Tally.read_of_last hl (Tally.plain_of_isWord hword).2.2 hplain, hword]

/-- A sign is no word. -/
theorem Token.Spelled.behindWord_sign {t : Token} {word : List Char} (h : t.Spelled word)
    (ht : t.isWord = false) (s : Tally) : (s.read word).behindWord = false := by
  have hsign :
      ∀ c ∈ ['(', ')', '+', '-', '*', '/'], isWhiteSpace c = false ∧ Character.isWord c = false :=
    forall_mem_of_all (by decide)
  have hlast :
      ∀ front c, c ∈ ['(', ')', '+', '-', '*', '/'] → (s.read (front ++ [c])).behindWord = false := by
    intro front c hc
    obtain ⟨hw, hword⟩ := hsign c hc
    rw [Tally.read_append]
    simp [Tally.next, hw, hword]
  cases h with
  | opening | closing => exact hlast [] _ (by decide)
  | op o => exact hlast [] _ (by cases o <;> decide)
  | power => exact hlast ['*'] _ (by decide)
  | name | number => cases ht

theorem length_functions_cons (t : Token) (ts : List Token) :
    (functions (t :: ts)).length =
      (if t.function?.isSome = true then 1 else 0) + (functions ts).length := by
  cases h : t.function? with
  | none => simp [functions, h]
  | some f => simp [functions, h, Nat.add_comm]

/-- Behind the word of a token a parenthesis is read as a call just if the token names a function. -/
theorem Token.Spelled.behindWord_iff {t : Token} {word : List Char} {ts : List Token}
    {st st' : PostfixOrder.State} (h : t.Spelled word) (hrun : st.run (t :: ts) = .ok st') (s : Tally) :
    (s.read word).behindWord = true ∧ ts.head? = some .opening ↔ t.function?.isSome = true := by
  cases ht : t.isWord with
  | false =>
      rw [h.behindWord_sign ht]
      refine iff_of_false (fun h => Bool.false_ne_true h.1) ?_
      cases t <;> simp_all [Token.function?, Token.isWord]
  | true =>
      rw [PostfixOrder.State.head?_eq_opening_iff hrun ht]
      cases t with
      | name n => simp [h.behindWord_name]
      | number x => simp [Token.function?]
      | _ => cases ht

/-- An accepted text asks for the calls of the functions that it names, and a parenthesis at its start is
another one for a word that stands before it. -/
theorem Lexed.calls_read {text : List Char} {ts : List Token} (h : Lexed text ts)
    {st st' : PostfixOrder.State} (hrun : st.run ts = .ok st') (s : Tally) :
    (s.read text).calls = s.calls + (if s.behindWord = true ∧ ts.head? = some .opening then 1 else 0) +
      (functions ts).length ∧ (s.read text).signs = s.signs := by
  induction h generalizing st s with
  | nil => simp [functions]
  | space hc _ ih =>
      rw [Tally.read_cons, Tally.next_space hc]
      exact ih hrun s
  | @word t word rest ts hw hrest ih =>
      obtain ⟨st₁, -, hrest⟩ := bind_eq_ok_iff.mp hrun
      obtain ⟨hcalls, hsigns⟩ := hw.calls_read s
      obtain ⟨hc, hs⟩ := ih hrest (s.read word)
      rw [Tally.read_append, hc, hs, hcalls, hsigns, length_functions_cons,
        if_congr (hw.behindWord_iff hrun s) rfl rfl]
      refine ⟨?_, rfl⟩
      simp only [List.head?_cons, Option.some.injEq]
      omega

/-! ## Names before a parenthesis -/

/-- What stands before the first parenthesis of a text ends with the name of the factorial, if with any
word. -/
theorem Lexed.suffix_of_opening {text before : List Char} {ts : List Token} (h : Lexed text ts)
    (hf : FactorialsOnly before text) (ho : ts.head? = some .opening) (hb : behindWord before = true) :
    NamedFunction.factorial.name.toList <:+ before := by
  induction h generalizing before with
  | nil => cases ho
  | @space c text ts hc _ ih =>
      have hword : behindWord (before ++ [c]) = true := by rw [behindWord_concat, if_pos hc, hb]
      obtain ⟨front, hfront⟩ := ih hf.2 ho hword
      have hl := congrArg List.getLast? hfront
      rw [List.getLast?_concat, List.getLast?_append] at hl
      obtain rfl : 'l' = c := Option.some.inj hl
      exact absurd hc (by decide)
  | @word t word rest ts hw _ _ =>
      obtain rfl : t = .opening := by simpa using ho
      cases hw
      exact hf.1 rfl hb

theorem Token.Spelled.toList_name {n : String} {word : List Char} (h : (Token.name n).Spelled word) :
    n.toList = word := by
  cases h
  exact String.toList_ofList

theorem eq_factorial_of_suffix {f : NamedFunction} {before : List Char}
    (h : NamedFunction.factorial.name.toList <:+ before ++ f.name.toList) : f = .factorial := by
  have hall : ∀ f : NamedFunction, NamedFunction.factorial.name.toList <:+ f.name.toList ∨
      f.name.toList <:+ NamedFunction.factorial.name.toList → f = .factorial := by
    intro f
    cases f <;> decide
  exact hall f (List.suffix_or_suffix_of_suffix h (List.suffix_append _ _))

theorem Lexed.functions_of_factorialsOnly {text before : List Char} {ts : List Token} (h : Lexed text ts)
    {st st' : PostfixOrder.State} (hrun : st.run ts = .ok st') (hf : FactorialsOnly before text) :
    ∀ f ∈ functions ts, f = .factorial := by
  induction h generalizing before st with
  | nil => simp [functions]
  | space _ _ ih => exact ih hrun hf.2
  | @word t word rest ts hw hrest ih =>
      obtain ⟨st₁, -, hrun'⟩ := bind_eq_ok_iff.mp hrun
      have hrest' := (factorialsOnly_append.mp hf).2
      cases hfun : t.function? with
      | none =>
          rw [functions_cons_of_none hfun]
          exact ih hrun' hrest'
      | some f =>
          obtain rfl := Token.function?_eq_some_iff.mp hfun
          have hopening := (PostfixOrder.State.head?_eq_opening_iff hrun rfl).mpr (by simp)
          have hbehind : behindWord (before ++ word) = true := by
            rw [← Tally.behindWord_ofText, Tally.ofText_append, hw.behindWord_name]
          have hsuffix := hrest.suffix_of_opening hrest' hopening hbehind
          rw [← hw.toList_name] at hsuffix
          intro g hg
          rw [functions, List.filterMap_cons_some (Token.function?_function f)] at hg
          rcases List.mem_cons.mp hg with rfl | hg
          · exact eq_factorial_of_suffix hsuffix
          · exact ih hrun' hrest' g hg

/-! ## Calls of the typed text -/

/-- A text that is parsed is put together from tokens that are accepted, and the expression calls what
they name. -/
theorem exists_lexed_of_parse {canonical : List Char} {e : Expr} (h : parse canonical = .ok e) :
    ∃ ts st, Lexed canonical ts ∧ PostfixOrder.State.initial.run ts = .ok st ∧
      e.calls.Perm (functions ts) := by
  obtain ⟨ts, ht, h⟩ := bind_eq_ok_iff.mp h
  obtain ⟨order, ho, he⟩ := bind_eq_ok_iff.mp h
  have hcalls := Expr.calls_perm ho he
  unfold PostfixOrder.ofTokens at ho
  split at ho
  · cases ho
  · obtain ⟨st, hrun, -⟩ := bind_eq_ok_iff.mp ho
    exact ⟨ts, st, lexed_of_tokens ht, hrun, hcalls⟩

/-- The expression has the calls that its text asks for, and no factorial sign is left. -/
theorem calls_ofText {canonical : List Char} {e : Expr} (h : parse canonical = .ok e) :
    (Tally.ofText canonical).calls = e.calls.length ∧ (Tally.ofText canonical).signs = 0 := by
  obtain ⟨ts, st, hl, hrun, hcalls⟩ := exists_lexed_of_parse h
  obtain ⟨hc, hs⟩ := hl.calls_read hrun ⟨false, 0, 0⟩
  rw [Tally.ofText, hc, hs, hcalls.length_eq]
  simp

/-- Without a parenthesis nothing is called but factorials, one for each of their signs, and no rule
finds a call, unless a percent literal stands behind a word; then there are more calls than signs, for
the parenthesis that is written for the literal is taken for a call's. -/
theorem calls_without_opening {mode : AngleMode} {raw : List Char} (ho : '(' ∉ raw) :
    (¬ PercentBehindWord raw → functionCall.apply (beforeCalls raw) = beforeCalls raw ∧
      Canonical.text mode raw = beforeTrig raw) ∧
    ∀ e, parse (Canonical.text mode raw) = .ok e →
      (¬ PercentBehindWord raw → (∀ f ∈ e.calls, f = .factorial) ∧ e.calls.length = raw.count '!') ∧
      (PercentBehindWord raw → raw.count '!' < e.calls.length) := by
  refine ⟨fun hn => ?_, fun e he => ⟨fun hn => ?_, fun hp => ?_⟩⟩
  · obtain ⟨hfunction, htrig, -⟩ := rules_quiet_of_not_percentBehindWord mode ho hn
    exact ⟨hfunction, htrig⟩
  · obtain ⟨-, htrig, hfactorials⟩ := rules_quiet_of_not_percentBehindWord mode ho hn
    have htotal := total_beforeTrig ho hn
    rw [htrig] at he
    obtain ⟨hcalls, hsigns⟩ := calls_ofText he
    obtain ⟨ts, st, hl, hrun, hperm⟩ := exists_lexed_of_parse he
    refine ⟨fun f hf => hl.functions_of_factorialsOnly hrun hfactorials f (hperm.mem_iff.mp hf), ?_⟩
    omega
  · have hlt := count_lt_of_percentBehindWord mode ho hp
    obtain ⟨hcalls, hsigns⟩ := calls_ofText he
    omega

theorem percentBehindWord_sine : PercentBehindWord "sin50%".toList := by
  refine ⟨"sin".toList, "50".toList, [], by decide,
    ⟨"50".toList, [], by decide, forall_mem_of_all (by decide), by decide⟩, ?_, by decide +kernel⟩
  intro c hc
  obtain rfl : 'n' = c := Option.some.inj hc
  decide

/-- In degrees `sin50%` is the sine of one half, which nobody asked for. -/
theorem calls_of_sine_percent : '(' ∉ "sin50%".toList ∧ PercentBehindWord "sin50%".toList ∧
    ∃ e, parse (Canonical.text .degrees "sin50%".toList) = .ok e ∧ 0 < e.calls.length := by
  have ho : '(' ∉ "sin50%".toList := by decide
  have hp : (parse (Canonical.text .degrees "sin50%".toList)).isOk = true := by decide +kernel
  cases he : parse (Canonical.text .degrees "sin50%".toList) with
  | error g =>
      rw [he] at hp
      cases hp
  | ok e =>
      exact ⟨ho, percentBehindWord_sine, e, rfl,
        ((calls_without_opening ho).2 e he).2 percentBehindWord_sine⟩

end DeskCalculator
