import DeskCalculator.Proofs.Phrase

/-!
# Texts put together

What is typed around texts that have a value is computed from their values: no rule reaches across
the parentheses, whatever the texts are.
-/

namespace DeskCalculator

open DeskCalculator.Except Grammar Parenthesis Canonical

/-! ## Values of phrases -/

/-- The evaluation yields this, unless something nests too deep for it. -/
def UnlessDeep (result expected : Except Fault Float) : Prop :=
  result ≠ .error (.grammar .tooDeep) → result = expected

theorem ReadAs.compute {mode : AngleMode} {raw : List Char} {t : ParseTree} {r : Except Fault Float}
    {n : Nat} (h : ReadAs mode raw (Category.ofStrength n) t) (hv : t.value = r) :
    UnlessDeep (compute (Canonical.text mode raw)) r := by
  obtain ⟨ts, hd, ht⟩ := h.exists_tokens
  intro hne
  rcases compute_sentence ht (hd.of_le (Nat.zero_le n)) with hc | hc
  · exact hc.trans hv
  · exact absurd hc hne

theorem isBalanced_of_tokens {mode : AngleMode} {raw : List Char} {ts : List Token} {t : ParseTree}
    (ht : tokens (Canonical.text mode raw) = .ok ts) (hs : Sentence ts t) : IsBalanced raw := by
  refine @balanced_of_expandTrig mode _ ?_
  show Balanced (ofText (Canonical.text mode raw))
  rw [← ofTokens_tokens ht]
  exact balanced_of_derives hs

/-! ## Values of texts put together -/

/-- Parentheses, a sign between parentheses and a function before them have the value that the values of
the texts within give, in every mode. -/
theorem compute_composed {mode : AngleMode} {s t : List Char} {x y : Float}
    (hs : compute (Canonical.text mode s) = .ok x) (ht : compute (Canonical.text mode t) = .ok y) :
    UnlessDeep (compute (Canonical.text mode (parenthesised s))) (.ok x) ∧
      (∀ o : Op, ∀ c ∈ o.signs,
        UnlessDeep (compute (Canonical.text mode (parenthesised s ++ c :: parenthesised t)))
          (do defined (← o.apply x y))) ∧
      UnlessDeep (compute (Canonical.text mode (parenthesised s ++ '^' :: parenthesised t)))
        (defined (x.pow y)) ∧
      ∀ f word, IsTyped f word →
        UnlessDeep (compute (Canonical.text mode (word ++ parenthesised s))) (f.applyIn mode x) := by
  obtain ⟨ts, a, hts, hsa, hva⟩ := exists_sentence_of_compute hs
  obtain ⟨us, b, hus, hsb, hvb⟩ := exists_sentence_of_compute ht
  have hb := isBalanced_of_tokens hts hsa
  have hb' := isBalanced_of_tokens hus hsb
  have ha : ReadAs mode (parenthesised s) .atom (.group a) := .bracketed hb hts hsa
  have ha' : ReadAs mode (parenthesised t) .atom (.group b) := .bracketed hb' hus hsb
  refine ⟨?_, ?_, ?_, ?_⟩
  · exact (ha.of_atom 5).compute hva
  · intro o c hc
    refine ((ha.of_atom _).binary hc (ha'.of_atom _)).compute ?_
    simp [ParseTree.value, hva, hvb]
  · have hp : ReadAs mode _ (Category.ofStrength 4) _ := ha.power (ha'.of_atom 3)
    refine hp.compute ?_
    simp [ParseTree.value, hva, hvb]
  · intro f word hf
    refine ((ReadAs.called hf hb hts hsa).of_atom 5).compute ?_
    simp [value_callTree, hva]

/-- The parts may use signs of typography and signs behind numbers. -/
theorem compute_composed_difference :
    compute (Canonical.text .degrees "2".toList) = .ok 2 ∧
    compute (Canonical.text .degrees "3!".toList) = .ok 6 ∧
      UnlessDeep (compute
        (Canonical.text .degrees (parenthesised "2".toList ++ '–' :: parenthesised "3!".toList)))
        (do defined (← Op.sub.apply 2 6)) := by
  have h2 : compute (Canonical.text .degrees "2".toList) = .ok 2 := by decide +kernel
  have h6 : compute (Canonical.text .degrees "3!".toList) = .ok 6 := by decide +kernel
  exact ⟨h2, h6, (compute_composed h2 h6).2.1 .sub '–' (by decide)⟩

end DeskCalculator
