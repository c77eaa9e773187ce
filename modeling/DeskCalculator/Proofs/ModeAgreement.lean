import DeskCalculator.Proofs.Call
import DeskCalculator.Proofs.Canonical.Powers
import DeskCalculator.Proofs.Canonical.Unmatched
import DeskCalculator.Proofs.NumberText
import DeskCalculator.Proofs.PostfixOrder.Places

/-!
# What both angle modes accept

The conversions of a closed call are written within parentheses, so they stand wherever the call itself
may stand, and in one place more: the parenthesis before an inverse call is taken for that of a function
named right before it. Except for such a name, a text is rejected in degrees just if it is rejected in
radians.
-/

namespace DeskCalculator

open Canonical Character DeskCalculator.Except

/-! ## Tokens in both modes -/

/-- The tokens in radians become those in degrees: each call that closes gets its conversion. -/
inductive Converted : List Token → List Token → Prop
  | same (ts : List Token) : Converted ts ts
  | append {ts us ts' us' : List Token} :
      Converted ts us → Converted ts' us' → Converted (ts ++ ts') (us ++ us')
  | call {f : NamedFunction} {ts us : List Token} : Converted ts us →
      Converted (Conversion.none.call f ts) ((conversion .degrees f).call f us)

section

variable {p q : Place} {f : NamedFunction} {ts us : List Token}

theorem read_grouped_iff : p.read (grouped ts ++ us) = some q ↔
    p ≠ .value ∧ Place.operand.read ts = some .value ∧ Place.value.read us = some q := by
  rw [grouped, List.cons_append, List.append_assoc]
  exact Place.read_group_iff

theorem read_called_iff : p.read (called f ts ++ us) = some q ↔
    p = .operand ∧ Place.operand.read ts = some .value ∧ Place.value.read us = some q := by
  rw [called, grouped, List.cons_append, List.cons_append, List.append_assoc]
  exact Place.read_call_iff

/-- A call stands where a value is wanted. In the parentheses of its conversion it also stands where one
is wanted. -/
theorem Conversion.read_call_iff {c : Conversion} : p.read (c.call f ts) = some q ↔
    (p = .operand ∨ c = .result ∧ p = .argument) ∧ Place.operand.read ts = some .value ∧ q = .value := by
  cases c with
  | none =>
      rw [Conversion.call, ← List.append_nil (called _ _), read_called_iff]
      simp [eq_comm]
  | argument =>
      have hscale :
          Place.value.read [.op .mul, .name "math.pi", .op .div, .number 180] = some .value := rfl
      rw [Conversion.call, ← List.append_nil (called _ _), read_called_iff, read_grouped_iff, hscale]
      simp [eq_comm]
  | result =>
      have hscale :
          Place.value.read [.op .mul, .number 180, .op .div, .name "math.pi"] = some .value := rfl
      rw [Conversion.call, ← List.append_nil (grouped _), read_grouped_iff, read_called_iff, hscale]
      cases p <;> simp [eq_comm]

end

/-- A function is named, and right behind the name stands the name of an inverse trigonometric one. -/
def NamesInverse (ts : List Token) : Prop :=
  ∃ f g : NamedFunction, conversion .degrees g = .result ∧ [.name f.name, .name g.name] <:+: ts

/-- The same of tokens from a place on. -/
def NamesInverseFrom (p : Place) (ts : List Token) : Prop :=
  (p = .argument ∧
    ∃ g : NamedFunction, conversion .degrees g = .result ∧ ts.head? = some (.name g.name)) ∨
  NamesInverse ts

theorem NamesInverse.of_infix {ts us : List Token} (h : NamesInverse ts) (hi : ts <:+: us) :
    NamesInverse us := by
  obtain ⟨f, g, hg, hpair⟩ := h
  exact ⟨f, g, hg, hpair.trans hi⟩

/-- The name of a function is followed by a parenthesis. -/
theorem NamesInverse.read_eq_none {ts : List Token} (h : NamesInverse ts) (p : Place) :
    p.read ts = none := by
  obtain ⟨f, g, -, before, after, rfl⟩ := h
  have hnone (q : Place) : q.read (.name f.name :: .name g.name :: after) = none := by
    cases q <;> simp [Place.next]
  rw [List.append_assoc, Place.read_append]
  cases p.read before with
  | none => rfl
  | some q => exact hnone q

theorem NamesInverseFrom.append {p : Place} {ts : List Token} (h : NamesInverseFrom p ts)
    (us : List Token) :
    NamesInverseFrom p (ts ++ us) := by
  rcases h with ⟨hp, g, hg, hh⟩ | h
  · exact .inl ⟨hp, g, hg, by rw [List.head?_append, hh]; rfl⟩
  · exact .inr (h.of_infix (List.prefix_append ts us).isInfix)

/-- Behind tokens that were read, the wanted parenthesis is that of the function they end with. -/
theorem NamesInverseFrom.behind {p q : Place} {ts us : List Token} (hr : p.read ts = some q)
    (h : NamesInverseFrom q us) :
    NamesInverseFrom p (ts ++ us) := by
  rcases h with ⟨rfl, g, hg, hh⟩ | h
  · rcases List.eq_nil_or_concat' ts with rfl | ⟨init, t, rfl⟩
    · exact .inl ⟨Option.some.inj hr, g, hg, hh⟩
    · rw [Place.read_append, Option.bind_eq_some_iff] at hr
      obtain ⟨r, -, hr⟩ := hr
      rw [Place.read_cons, Option.bind_eq_some_iff] at hr
      obtain ⟨r', hr, hr'⟩ := hr
      obtain rfl := Option.some.inj hr'
      obtain ⟨f, rfl⟩ := Place.next_eq_argument hr
      obtain ⟨rest, rfl⟩ := List.head?_eq_some_iff.mp hh
      exact .inr ⟨f, g, hg, init, rest, by simp⟩
  · exact .inr (h.of_infix (List.suffix_append ts us).isInfix)

namespace Converted

variable {ts us : List Token} {p q : Place}

/-- What may stand in radians may stand in degrees. -/
theorem read (h : Converted ts us) (hr : p.read ts = some q) : p.read us = some q := by
  induction h generalizing p q with
  | same => exact hr
  | append _ _ ih ih' =>
      rw [Place.read_append, Option.bind_eq_some_iff] at hr ⊢
      obtain ⟨r, hr, hr'⟩ := hr
      exact ⟨r, ih hr, ih' hr'⟩
  | call _ ih =>
      obtain ⟨hp | ⟨⟨⟩, -⟩, hts, rfl⟩ := Conversion.read_call_iff.mp hr
      exact Conversion.read_call_iff.mpr ⟨.inl hp, ih hts, rfl⟩

/-- What may stand in degrees may stand in radians, unless it is an inverse function where a parenthesis
is wanted. -/
theorem read_or_names (h : Converted ts us) (hr : p.read us = some q) :
    p.read ts = some q ∨ NamesInverseFrom p ts := by
  induction h generalizing p q with
  | same => exact .inl hr
  | append _ _ ih ih' =>
      rw [Place.read_append, Option.bind_eq_some_iff] at hr
      obtain ⟨r, hr, hr'⟩ := hr
      rcases ih hr with ht | hn
      · rcases ih' hr' with ht' | hn
        · rw [Place.read_append, ht]
          exact .inl ht'
        · exact .inr (hn.behind ht)
      · exact .inr (hn.append _)
  | @call f ts us _ ih =>
      obtain ⟨hp, hus, rfl⟩ := Conversion.read_call_iff.mp hr
      rcases ih hus with hts | ⟨⟨⟩, -⟩ | hn
      · rcases hp with hp | ⟨hf, hp⟩
        · exact .inl (Conversion.read_call_iff.mpr ⟨.inl hp, hts, rfl⟩)
        · exact .inr (.inl ⟨hp, f, hf, rfl⟩)
      · exact .inr (.inr (hn.of_infix
          ⟨[.name f.name, .opening], [.closing], by simp [Conversion.call, called, grouped]⟩))

end Converted

/-! ## Texts in both modes -/

/-- Neither text is read, or the tokens of the first become those of the second. -/
inductive ReadAlike : Except GrammarFault (List Token) → Except GrammarFault (List Token) → Prop
  | unread (g g' : GrammarFault) : ReadAlike (.error g) (.error g')
  | read {ts us : List Token} : Converted ts us → ReadAlike (.ok ts) (.ok us)

namespace ReadAlike

variable {x y x' y' : Except GrammarFault (List Token)}

theorem refl (x : Except GrammarFault (List Token)) : ReadAlike x x := by
  cases x with
  | error g => exact .unread g g
  | ok ts => exact .read (.same ts)

theorem join (h : ReadAlike x y) (h' : ReadAlike x' y') {f g : List Token → List Token}
    (hfg : ∀ ts us, Converted ts us → Converted (f ts) (g us)) :
    ReadAlike (do return f (← x) ++ (← x')) (do return g (← y) ++ (← y')) := by
  cases h with
  | unread g g' => exact .unread g g'
  | read h =>
      cases h' with
      | unread g g' => exact .unread g g'
      | read h' => exact .read ((hfg _ _ h).append h')

variable {ts us : List Token}

theorem exists_of_left (h : ReadAlike (.ok ts) y) : ∃ us, y = .ok us ∧ Converted ts us := by
  cases h with
  | read h => exact ⟨_, rfl, h⟩

theorem exists_of_right (h : ReadAlike x (.ok us)) : ∃ ts, x = .ok ts ∧ Converted ts us := by
  cases h with
  | read h => exact ⟨_, rfl, h⟩

end ReadAlike

/-- What is written for a call of the name is written for its function. -/
theorem exists_typedName {name : String} (h : name ∈ trigNames) : ∃ f, typedName f = some name ∧
    openTrig name.toList = f.name.toList ++ ['('] ∧
    ∀ mode, callText mode f = wrapping mode name.toList := by
  simp only [trigNames, List.mem_cons, List.not_mem_nil, or_false] at h
  rcases h with rfl | rfl | rfl | rfl | rfl | rfl
  · exact ⟨.asin, rfl, rfl, fun _ => rfl⟩
  · exact ⟨.acos, rfl, rfl, fun _ => rfl⟩
  · exact ⟨.atan, rfl, rfl, fun _ => rfl⟩
  · exact ⟨.sin, rfl, rfl, fun _ => rfl⟩
  · exact ⟨.cos, rfl, rfl, fun _ => rfl⟩
  · exact ⟨.tan, rfl, rfl, fun _ => rfl⟩

theorem conversion_radians (f : NamedFunction) : conversion .radians f = .none := by
  cases f <;> rfl

theorem readAlike_wrapped {name : String} {a a' b b' : List Char} (hn : name ∈ trigNames)
    (ha : ReadAlike (tokens a) (tokens a')) (hb : ReadAlike (tokens b) (tokens b')) :
    ReadAlike
      (tokens ((wrapping .radians name.toList).before ++ a ++
        (wrapping .radians name.toList).after ++ b))
      (tokens ((wrapping .degrees name.toList).before ++ a' ++
        (wrapping .degrees name.toList).after ++ b')) := by
  obtain ⟨f, hf, -, hw⟩ := exists_typedName hn
  rw [← hw, ← hw, tokens_callText _ _ hf, tokens_callText _ _ hf, conversion_radians]
  exact ha.join hb fun ts us h => .call h

/-! ## Texts that are never read -/

/-- The text starts like the writing of a call: with the letter of a full name or with a parenthesis. -/
def HasCallHead (text : List Char) : Prop := ∃ c ∈ text.head?, c = 'm' ∨ c = '('

/-- The text has a long s, or a point before what starts a call. -/
def Spoiled (text : List Char) : Prop :=
  'ſ' ∈ text ∨ ['.', 'm'] <:+: text ∨ ['.', '('] <:+: text

instance (text : List Char) : Decidable (Spoiled text) :=
  inferInstanceAs (Decidable ('ſ' ∈ text ∨ ['.', 'm'] <:+: text ∨ ['.', '('] <:+: text))

theorem Spoiled.of_infix {text text' : List Char} (h : Spoiled text) (hi : text <:+: text') :
    Spoiled text' :=
  h.imp (hi.subset ·) (.imp (·.trans hi) (·.trans hi))

theorem pair_infix_append {a b : Char} {text rest : List Char} (h : [a, b] <:+: text ++ rest) :
    [a, b] <:+: text ∨ [a, b] <:+: rest ∨ (text.getLast? = some a ∧ rest.head? = some b) := by
  rcases List.infix_append_iff.mp h with h | h | ⟨l₁, l₂, hl, h₁, h₂⟩
  · exact .inl h
  · exact .inr (.inl h)
  match l₁, hl with
  | [], hl => exact .inr (.inl (hl ▸ h₂.isInfix))
  | [c], hl =>
      obtain ⟨rfl, rfl⟩ := List.cons.inj hl
      obtain ⟨front, rfl⟩ := h₁
      obtain ⟨back, rfl⟩ := h₂
      exact .inr (.inr ⟨List.getLast?_concat, rfl⟩)
  | [c, d], hl =>
      obtain ⟨rfl, rfl, -⟩ : a = c ∧ b = d ∧ l₂ = [] := by simpa using hl
      exact .inl h₁.isInfix
  | c :: d :: e :: l, hl => simp at hl

/-- The word of a token that may stand at a place is not spoiled. -/
theorem not_spoiled_of_spelled {t : Token} {word : List Char} {p q : Place} (h : t.Spelled word)
    (hp : p.next t = some q) :
    ¬ Spoiled word := by
  cases h with
  | opening | closing | power => decide
  | op o => cases o <;> decide
  | name hw hl =>
      have hname : ∀ f : NamedFunction, ¬ Spoiled f.name.toList := fun f => by cases f <;> decide
      have hconstant : ∀ c : Constant, ¬ Spoiled c.name.toList := fun c => by cases c <;> decide
      rcases (Place.next_name hp).2 with ⟨f, hf, -⟩ | ⟨c, hc, -⟩
      · have := hname f
        rwa [← hf, String.toList_ofList] at this
      · have := hconstant c
        rwa [← hc, String.toList_ofList] at this
  | number hw =>
      rintro (hs | hs | hs)
      · exact absurd (hw _ hs) (by decide)
      · exact absurd (hw 'm' (hs.subset (by simp))) (by decide)
      · exact absurd (hw '(' (hs.subset (by simp))) (by decide)

/-- Only a number ends with a point. -/
theorem Token.Spelled.getLast?_point {t : Token} {word : List Char} (h : t.Spelled word)
    (hl : word.getLast? = some '.') :
    ∃ x, t = .number x := by
  cases h with
  | number => exact ⟨_, rfl⟩
  | op o => cases o <;> cases hl
  | opening | closing | power => cases hl
  | name _ hlast =>
      obtain ⟨c, hc, hp⟩ := hlast
      obtain rfl := Option.some.inj (hc.symm.trans hl)
      exact absurd hp (by decide)

/-- A name or an opening parenthesis does not stand behind a value. -/
theorem value_read_eq_none {text : List Char} {ts : List Token} (hc : HasCallHead text)
    (h : tokens text = .ok ts) :
    Place.value.read ts = none := by
  obtain ⟨c, hc, hcall⟩ := hc
  obtain ⟨rest, rfl⟩ := List.head?_eq_some_iff.mp hc
  rcases hcall with rfl | rfl
  · rw [tokens_cons (by decide), Lexeme.read_name (by decide), ok_bind] at h
    obtain ⟨us, -, hu⟩ := bind_eq_ok_iff.mp h
    obtain rfl := Except.ok.inj hu
    rfl
  · rw [tokens_opening] at h
    obtain ⟨us, -, hu⟩ := bind_eq_ok_iff.mp h
    obtain rfl := Except.ok.inj hu
    rfl

theorem not_spoiled_append {word rest : List Char} (hw : ¬ Spoiled word) (hr : ¬ Spoiled rest)
    (h : word.getLast? = some '.' → ¬ HasCallHead rest) : ¬ Spoiled (word ++ rest) := by
  rintro (hs | hs | hs)
  · rcases List.mem_append.mp hs with hs | hs
    · exact hw (.inl hs)
    · exact hr (.inl hs)
  · rcases pair_infix_append hs with hs | hs | ⟨hl, hh⟩
    · exact hw (.inr (.inl hs))
    · exact hr (.inr (.inl hs))
    · exact h hl ⟨'m', hh, .inl rfl⟩
  · rcases pair_infix_append hs with hs | hs | ⟨hl, hh⟩
    · exact hw (.inr (.inr hs))
    · exact hr (.inr (.inr hs))
    · exact h hl ⟨'(', hh, .inr rfl⟩

/-- Tokens that may stand in their order have no spoiled text: behind a point, which only a number ends
with, no call starts. -/
theorem not_spoiled_of_read {text : List Char} {ts : List Token} {p q : Place}
    (ht : tokens text = .ok ts) (hr : p.read ts = some q) : ¬ Spoiled text := by
  induction hn : text.length using Nat.strongRecOn generalizing text ts p with
  | _ n ih =>
      cases text with
      | nil => decide
      | cons c text =>
          cases hc : isWhiteSpace c with
          | true =>
              rw [tokens_space hc] at ht
              have hc : c ≠ '.' ∧ c ≠ 'ſ' := by
                constructor <;> rintro rfl <;> exact absurd hc (by decide)
              have hspace : ¬ Spoiled [c] := by simp [Spoiled, hc.2.symm, List.infix_cons_iff]
              exact not_spoiled_append hspace (ih text.length (by simp [← hn]) ht hr rfl)
                (by simp [hc.1])
          | false =>
              rw [tokens_cons hc] at ht
              simp only [bind_eq_ok_iff, pure_eq, Except.ok.injEq] at ht
              obtain ⟨lexeme, hl, us, hu, rfl⟩ := ht
              obtain ⟨word, rest, rfl, hlen, hw⟩ := Lexeme.exists_spelled hl
              rw [hlen, Nat.add_sub_cancel, tokensFrom_length] at hu
              obtain ⟨r, hp, hr⟩ := Option.bind_eq_some_iff.mp hr
              have hrest :=
                ih rest.length (by simp only [← hn, List.length_cons, List.length_append]; omega)
                  hu hr rfl
              refine not_spoiled_append (not_spoiled_of_spelled hw hp) hrest fun hlast hhead => ?_
              obtain ⟨x, hx⟩ := hw.getLast?_point hlast
              obtain rfl : .value = r := by
                rw [hx] at hp
                cases p <;> first | exact Option.some.inj hp | cases hp
              have hread : Place.value.read us = some q := hr
              rw [value_read_eq_none hhead hu] at hread
              cases hread

/-! ## Expansions in both modes -/

/-- The two texts are read alike, or neither is accepted. The second is needed for calls that the modes
read apart: behind a point the full name of one goes on with a number or a name, but its parenthesis does
not; and what is written for a name with a long s is no name. -/
def Agree (r d : List Char) : Prop :=
  ReadAlike (tokens r) (tokens d) ∨ (Spoiled r ∧ Spoiled d)

theorem Agree.within {a a' r d : List Char} (h : Agree a a') (hr : a <:+: r) (hd : a' <:+: d)
    (hread : ReadAlike (tokens a) (tokens a') → Agree r d) : Agree r d := by
  rcases h with h | ⟨h, h'⟩
  · exact hread h
  · exact .inr ⟨h.of_infix hr, h'.of_infix hd⟩

theorem spoiled_of_point {text : List Char} (before : List Char) (h : HasCallHead text) :
    Spoiled (before ++ ['.'] ++ text) := by
  obtain ⟨c, hc, hcall⟩ := h
  obtain ⟨rest, rfl⟩ := List.head?_eq_some_iff.mp hc
  have hi : ['.', c] <:+: before ++ ['.'] ++ c :: rest := ⟨before, rest, by simp⟩
  rcases hcall with rfl | rfl
  · exact .inr (.inl hi)
  · exact .inr (.inr hi)

/-- What stands before a call, if no point, is read apart from it. -/
theorem agree_behind {before r d : List Char} (hs : startsWord before.getLast? = true)
    (hr : HasCallHead r) (hd : HasCallHead d) (h : Agree r d) : Agree (before ++ r) (before ++ d) := by
  refine h.within (List.suffix_append _ _).isInfix (List.suffix_append _ _).isInfix fun h => ?_
  by_cases hpoint : before.getLast? = some '.'
  · obtain ⟨front, rfl⟩ := List.getLast?_eq_some_iff.mp hpoint
    exact .inr ⟨spoiled_of_point front hr, spoiled_of_point front hd⟩
  · have hsplits {text : List Char} (ht : HasCallHead text) : Splits before text := by
      refine ⟨?_, .inr fun c hc => ⟨?_, ?_⟩⟩
      · obtain ⟨c, hc, hcall⟩ := ht
        rintro d hd
        obtain rfl : c = d := Option.some.inj (hc.symm.trans hd)
        rcases hcall with rfl | rfl <;> decide
      · have hword : isWord c = false := by simpa [startsWord, Option.mem_def.mp hc] using hs
        exact Bool.eq_false_iff.mpr fun hp =>
          Bool.false_ne_true (hword.symm.trans (isWord_of_isNamePart hp))
      · rintro rfl
        exact hpoint hc
    rw [Agree, tokens_append (hsplits hr), tokens_append (hsplits hd)]
    exact .inl ((ReadAlike.refl (tokens before)).join h fun _ _ hc => hc)

theorem tokens_openTrig {name : String} (h : name ∈ trigNames) : ∃ f : NamedFunction, ∀ rest,
    tokens (openTrig name.toList ++ rest) =
      (do return [Token.name f.name, Token.opening] ++ (← tokens rest)) := by
  obtain ⟨f, -, hname, -⟩ := exists_typedName h
  refine ⟨f, fun rest => ?_⟩
  rw [hname, List.append_assoc, List.singleton_append,
    tokens_name (isName_of_function f) (noNameHead_mark (by decide) _), tokens_opening]
  cases tokens rest <;> rfl

/-- The name that is written for a call is that of its function, unless it was typed with a long s. -/
theorem Canonical.CallWord.map_toLower {before word : List Char} (h : CallWord before word) :
    (∃ name ∈ trigNames, word.map Char.toLower = name.toList) ∨ 'ſ' ∈ word.map Char.toLower := by
  obtain ⟨-, name, hn, hw⟩ := h
  have hlower : word.map Char.toLower = name.toList ∨ 'ſ' ∈ word.map Char.toLower := by
    clear hn
    generalize name.toList = letters at hw
    induction hw with
    | nil => exact .inl rfl
    | cons hc _ ih =>
        rcases toLower_of_spells hc, ih with ⟨hc | hc, hw | hw⟩
        · exact .inl (by rw [List.map_cons, hc, hw])
        · exact .inr (List.mem_cons_of_mem _ hw)
        · exact .inr (by simp [hc])
        · exact .inr (by simp [hc])
  exact hlower.imp_left fun h => ⟨name, hn, h⟩

theorem mem_openTrig {name : List Char} {c : Char} (h : c ∈ name) : c ∈ openTrig name :=
  List.mem_append_left _ (List.mem_append_right _ h)

theorem mem_wrapping {mode : AngleMode} {name : List Char} {c : Char} (h : c ∈ name) :
    c ∈ (wrapping mode name).before := by
  unfold wrapping
  split
  · exact mem_openTrig h
  · exact List.mem_append_left _ (mem_openTrig h)
  · exact List.mem_cons_of_mem _ (mem_openTrig h)

theorem hasCallHead_wrapping (mode : AngleMode) (name rest : List Char) :
    HasCallHead ((wrapping mode name).before ++ rest) := by
  unfold wrapping
  split
  · exact ⟨'m', rfl, .inl rfl⟩
  · exact ⟨'m', rfl, .inl rfl⟩
  · exact ⟨'(', rfl, .inr rfl⟩

theorem infix_wrapped (before argument after rest : List Char) :
    argument <:+: before ++ argument ++ after ++ rest :=
  (List.infix_append before argument after).trans (List.prefix_append _ rest).isInfix

theorem agree_of_expands {text r : List Char} (h : Expands .radians text r) :
    Agree r (expandTrig .degrees text) := by
  induction h with
  | plain h =>
      rw [expandTrig_noCall h]
      exact .inl (.refl _)
  | @closed text before word rest argument after a b hf hc _ _ iha ihb =>
      rw [expandTrig_closed hf hc]
      simp only [List.append_assoc]
      refine agree_behind hf.call.starts (hasCallHead_wrapping _ _ _) (hasCallHead_wrapping _ _ _) ?_
      simp only [← List.append_assoc]
      rcases hf.call.map_toLower with ⟨name, hn, hname⟩ | hlong
      · rw [hname]
        refine iha.within (infix_wrapped _ _ _ _) (infix_wrapped _ _ _ _) fun ha => ?_
        refine ihb.within (List.suffix_append _ _).isInfix (List.suffix_append _ _).isInfix fun hb => ?_
        exact .inl (readAlike_wrapped hn ha hb)
      · have hmem (mode : AngleMode) : 'ſ' ∈ (wrapping mode (word.map Char.toLower)).before :=
          mem_wrapping hlong
        exact .inr ⟨.inl (by simp [hmem]), .inl (by simp [hmem])⟩
  | @unclosed text before word rest b hf hc _ ih =>
      rw [expandTrig_unclosed hf hc]
      simp only [List.append_assoc]
      refine agree_behind hf.call.starts ⟨'m', rfl, .inl rfl⟩ ⟨'m', rfl, .inl rfl⟩ ?_
      rcases hf.call.map_toLower with ⟨name, hn, hname⟩ | hlong
      · obtain ⟨f, hf⟩ := tokens_openTrig hn
        refine ih.within (List.suffix_append _ _).isInfix (List.suffix_append _ _).isInfix fun h => ?_
        rw [hname, Agree, hf, hf]
        exact .inl ((ReadAlike.refl (.ok [.name f.name, .opening])).join h fun _ _ hc => hc)
      · exact .inr ⟨.inl (by simp [mem_openTrig hlong]), .inl (by simp [mem_openTrig hlong])⟩

/-! ## Acceptance in both modes -/

/-- The tokens of a canonical text have the parentheses that were typed. -/
theorem balanced_tokens_iff {mode : AngleMode} {raw : List Char} {ts : List Token}
    (h : tokens (Canonical.text mode raw) = .ok ts) :
    Parenthesis.Balanced (Parenthesis.ofTokens ts) ↔ Parenthesis.Balanced (Parenthesis.ofText raw) := by
  rw [ofTokens_tokens h, Parenthesis.balanced_iff_unmatched, unmatched_text,
    Parenthesis.balanced_iff_unmatched]

theorem accepted_radians_iff (raw : List Char) :
    (∃ ts, tokens (Canonical.text .radians raw) = .ok ts ∧ Accepted ts) ↔
      (∃ us, tokens (Canonical.text .degrees raw) = .ok us ∧ Accepted us) ∧
        ∀ ts, tokens (Canonical.text .radians raw) = .ok ts → ¬ NamesInverse ts := by
  have hagree : Agree (Canonical.text .radians raw) (Canonical.text .degrees raw) :=
    agree_of_expands (expands_expandTrig .radians (beforeTrig raw))
  constructor
  · rintro ⟨ts, ht, hts⟩
    refine ⟨?_, fun us hu hn => ?_⟩
    · rcases hagree with h | ⟨h, -⟩
      · obtain ⟨us, hu, hc⟩ := (ht ▸ h).exists_of_left
        exact ⟨us, hu, hc.read hts.read,
          (balanced_tokens_iff hu).mpr ((balanced_tokens_iff ht).mp hts.balanced)⟩
      · exact absurd h (not_spoiled_of_read ht hts.read)
    · obtain rfl := Except.ok.inj (ht.symm.trans hu)
      have hread := hts.read
      rw [hn.read_eq_none] at hread
      cases hread
  · rintro ⟨⟨us, hu, hus⟩, hno⟩
    rcases hagree with h | ⟨-, h⟩
    · obtain ⟨ts, ht, hc⟩ := (hu ▸ h).exists_of_right
      refine ⟨ts, ht, ?_, (balanced_tokens_iff ht).mpr ((balanced_tokens_iff hu).mp hus.balanced)⟩
      rcases hc.read_or_names hus.read with hr | ⟨⟨⟩, -⟩ | hn
      · exact hr
      · exact absurd hn (hno ts ht)
    · exact absurd h (not_spoiled_of_read hu hus.read)

theorem tokens_text_of_isBlank {mode : AngleMode} {raw : String} (h : isBlank raw = true) :
    tokens (Canonical.text mode raw.toList) = .ok [] := by
  have hw : ∀ c ∈ raw.toList, isWhiteSpace c = true := List.all_eq_true.mp h
  have hplain : ∀ c ∈ raw.toList, IsPlain c := fun c hc => plain_of_isWhiteSpace (hw c hc)
  rw [text_of_plain hplain (euler_quiet (e_not_mem_blank hw)).apply hplain]
  exact tokens_eq_nil_iff.mpr hw

theorem exists_evaluate_eq_grammar_iff {mode : AngleMode} {raw : String} (hb : isBlank raw = false)
    (h : evaluate mode raw ≠ .error (.grammar .tooDeep)) :
    (∃ g, evaluate mode raw = .error (.grammar g)) ↔
      ¬ ∃ ts, tokens (Canonical.text mode raw.toList) = .ok ts ∧ Accepted ts := by
  have hend : Ending (Canonical.text mode raw.toList) (evaluate mode raw) := ending_evaluate hb
  rw [← parse_eq_ok_iff fun hp => h (hend.eq_grammar_iff.mpr hp)]
  simp only [hend.eq_grammar_iff]
  cases parse (Canonical.text mode raw.toList) <;> simp

/-- Unless something nests too deep, what is rejected in degrees is rejected in radians, and what is
rejected in radians is rejected in degrees or has the name of an inverse function right behind that of a
function. -/
theorem rejected_radians_iff (raw : String) (hr : evaluate .radians raw ≠ .error (.grammar .tooDeep))
    (hd : evaluate .degrees raw ≠ .error (.grammar .tooDeep)) :
    (∃ g, evaluate .radians raw = .error (.grammar g)) ↔
      (∃ g, evaluate .degrees raw = .error (.grammar g)) ∨
        ∃ ts, tokens (Canonical.text .radians raw.toList) = .ok ts ∧ NamesInverse ts := by
  cases hb : isBlank raw with
  | true =>
      have hnil : ¬ NamesInverse [] := by
        rintro ⟨f, g, -, hi⟩
        exact absurd (List.infix_nil.mp hi) (by simp)
      simp [evaluate, hb, tokens_text_of_isBlank hb, hnil]
  | false =>
      rw [exists_evaluate_eq_grammar_iff hb hr, exists_evaluate_eq_grammar_iff hb hd,
        accepted_radians_iff, not_and_or]
      simp only [not_forall, not_not, exists_prop]

/-- The parenthesis around the converted arc sine is taken for that of the absolute value. -/
theorem rejected_only_in_radians : evaluate .radians "math.abs asin(1)" ≠ .error (.grammar .tooDeep) ∧
    evaluate .degrees "math.abs asin(1)" ≠ .error (.grammar .tooDeep) ∧
    (∃ g, evaluate .radians "math.abs asin(1)" = .error (.grammar g)) ∧
    ¬ ∃ g, evaluate .degrees "math.abs asin(1)" = .error (.grammar g) := by
  have hend (mode : AngleMode) : Ending _ (evaluate mode "math.abs asin(1)") :=
    ending_evaluate (by decide)
  have ht : tokens (Canonical.text .radians "math.abs asin(1)".toList) =
      .ok (.name "math.abs" :: called .asin [.number 1]) := by decide +kernel
  have hr : evaluate .radians "math.abs asin(1)" ≠ .error (.grammar .tooDeep) := by
    rw [ne_eq, (hend .radians).eq_grammar_iff, parse, ht, ok_bind]
    intro h
    cases h
  have hd : ¬ ∃ g, evaluate .degrees "math.abs asin(1)" = .error (.grammar g) := by
    have hp : (parse (Canonical.text .degrees "math.abs asin(1)".toList)).isOk = true := by
      decide +kernel
    rintro ⟨g, hg⟩
    rw [(hend .degrees).eq_grammar_iff.mp hg] at hp
    cases hp
  have hd' : evaluate .degrees "math.abs asin(1)" ≠ .error (.grammar .tooDeep) := fun h => hd ⟨_, h⟩
  have hn : NamesInverse (.name "math.abs" :: called .asin [.number 1]) :=
    ⟨.abs, .asin, rfl, [], grouped [.number 1], rfl⟩
  exact ⟨hr, hd', (rejected_radians_iff _ hr hd').mpr (.inr ⟨_, ht, hn⟩), hd⟩

end DeskCalculator
