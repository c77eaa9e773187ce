import DeskCalculator.Proofs.Canonical.Expansion
import DeskCalculator.Proofs.Canonical.Words

/-!
# The function that a call names

A text is cut into the calls of the functions that are not trigonometric and the characters between them.
Each call gets the full name of the function that it names, in whatever case it is written, except that a
name written with the long s is always taken for `ceil`.
-/

namespace DeskCalculator.Canonical

open Character Rule

/-! ## Letters without case -/

/-- Simple case folding, as far as it leads to ASCII: the long s and the sign for kelvin are letters too. -/
def foldCase (c : Char) : Char :=
  if c = 'ſ' then 's' else if c = '\u212A' then 'k' else c.toLower

/-- The word is the name of the function, in letters of any case. -/
def Spelled (f : NamedFunction) (word : List Char) : Prop :=
  ∃ name ∈ functionNames, typedName f = some name ∧ word.map foldCase = name.toList

theorem letters_of_functionNames : ∀ name ∈ functionNames, ∀ letter ∈ name.toList,
    letter.isAlpha = true ∧ letter ≠ 'k' := by
  have h : functionNames.all
      (fun name => name.toList.all fun letter => letter.isAlpha && letter != 'k') = true := by decide
  simpa using h

theorem spells_iff {letter c : Char} (hl : letter.isAlpha = true) (hk : letter ≠ 'k') :
    spells letter c = true ↔ foldCase c = letter := by
  have hlower : c.toLower.isAlpha = false → (c.toLower == letter) = false := by
    intro h
    simp only [beq_eq_false_iff_ne, ne_eq]
    rintro rfl
    simp [hl] at h
  by_cases hs : c = 'ſ'
  · have hne := hlower (by rw [hs]; decide)
    have hfold : foldCase c = 's' := if_pos hs
    have hlong : (c == 'ſ') = true := beq_iff_eq.mpr hs
    simp only [spells, hne, hlong, hfold, Bool.and_true, Bool.false_or, beq_iff_eq]
    exact eq_comm
  by_cases hkelvin : c = '\u212A'
  · have hne := hlower (by rw [hkelvin]; decide)
    have hfold : foldCase c = 'k' := by rw [foldCase, if_neg hs, if_pos hkelvin]
    simp [spells, hne, hs, hfold, hk.symm]
  · simp [spells, foldCase, hs, hkelvin]

theorem forall₂_spells_iff {letters word : List Char}
    (hl : ∀ letter ∈ letters, letter.isAlpha = true ∧ letter ≠ 'k') :
    List.Forall₂ (fun letter c => spells letter c = true) letters word ↔
    word.map foldCase = letters := by
  induction letters generalizing word with
  | nil => simp
  | cons letter letters ih =>
      obtain ⟨ha, hk⟩ := hl letter (by simp)
      cases word with
      | nil => simp
      | cons c word => simp [spells_iff ha hk, ih fun l hm => hl l (by simp [hm])]

theorem opening_notMem_of_spelled {f : NamedFunction} {word : List Char} (h : Spelled f word) :
    '(' ∉ word := by
  obtain ⟨name, hn, -, hw⟩ := h
  intro hm
  have hfold : foldCase '(' ∈ name.toList := hw ▸ List.mem_map_of_mem hm
  exact absurd (letters_of_functionNames name hn _ hfold).1 (by decide)

/-! ## Names are words -/

/-- A name of a function is a word, in whatever letters. -/
theorem word_of_forall₂ {name : String} {word : List Char} (hn : name ∈ functionNames ++ trigNames)
    (h : List.Forall₂ (fun letter c => spells letter c = true) name.toList word) :
    word ≠ [] ∧ ∀ c ∈ word, isWord c = true := by
  obtain ⟨hne, hall⟩ := letters_of_names name hn
  have hl := List.all_eq_true.mp hall
  constructor
  · rintro rfl
    exact hne (List.forall₂_nil_right_iff.mp h)
  · clear hne hall hn
    generalize name.toList = letters at hl h
    induction h with
    | nil => simp
    | cons hs _ ih =>
        rintro d (_ | ⟨_, hd⟩)
        · exact isWord_of_spells (hl _ (by simp)) hs
        · exact ih (fun l hm => hl l (by simp [hm])) d hd

theorem Spelled.isWord {f : NamedFunction} {word : List Char} (h : Spelled f word) :
    word ≠ [] ∧ ∀ c ∈ word, Character.isWord c = true := by
  obtain ⟨name, hn, -, hname⟩ := h
  exact word_of_forall₂ (by simp [hn])
    ((forall₂_spells_iff (letters_of_functionNames name hn)).mpr hname)

theorem CallWord.isWord {before word : List Char} (h : CallWord before word) :
    word ≠ [] ∧ ∀ c ∈ word, isWord c = true := by
  obtain ⟨-, name, hn, hname⟩ := h
  exact word_of_forall₂ (by simp [hn]) hname

theorem CallWord.isWord_toLower {before word : List Char} (h : CallWord before word) :
    word.map Char.toLower ≠ [] ∧ ∀ c ∈ word.map Char.toLower, Character.isWord c = true := by
  obtain ⟨hne, hw⟩ := h.isWord
  refine ⟨by simpa using hne, fun c hc => ?_⟩
  obtain ⟨d, hd, rfl⟩ := List.mem_map.mp hc
  exact Character.isWord_toLower (hw d hd)

/-! ## The name that is written -/

/-- The function that a call is taken for. -/
def calledFunction (f : NamedFunction) (word : List Char) : NamedFunction :=
  if 'ſ' ∈ word then .ceil else f

theorem map_toLower_eq_map_foldCase {word : List Char} (hs : 'ſ' ∉ word) (hk : 'k' ∉ word.map foldCase) :
    word.map Char.toLower = word.map foldCase := by
  refine List.map_congr_left fun c hc => ?_
  have hlong : c ≠ 'ſ' := ne_of_mem_of_not_mem hc hs
  have hkelvin : c ≠ '\u212A' := by
    rintro rfl
    exact hk (List.mem_map.mpr ⟨_, hc, by decide⟩)
  simp [foldCase, hlong, hkelvin]

theorem fullName_of_long {word : List Char} (hs : 'ſ' ∈ word) :
    fullName (String.ofList word) = "math.ceil" := by
  have hne : ∀ name ∈ functionNames, String.ofList word ≠ name := by
    rintro name hn rfl
    rw [← String.toList_ofList (l := word)] at hs
    exact absurd (letters_of_functionNames _ hn _ hs).1 (by decide)
  unfold fullName
  split <;> first | rfl | exact absurd ‹_› (hne _ (by decide))

theorem fullName_of_spelled {f : NamedFunction} {word : List Char} (h : Spelled f word) :
    fullName (String.ofList (word.map Char.toLower)) = (calledFunction f word).name := by
  obtain ⟨name, hn, hf, hw⟩ := h
  unfold calledFunction
  split
  · rename_i hs
    refine fullName_of_long (List.mem_map.mpr ⟨_, hs, by decide⟩)
  · rename_i hs
    have hk : 'k' ∉ word.map foldCase := by
      rw [hw]
      exact fun hm => (letters_of_functionNames name hn _ hm).2 rfl
    rw [map_toLower_eq_map_foldCase hs hk, hw, String.ofList_toList]
    obtain ⟨htrig, hname⟩ := fullName_typedName hf
    exact hname (htrig.mp hn)

/-! ## Pieces of a text -/

inductive Piece where
  /-- A character of no call. -/
  | kept (c : Char)
  /-- A call of the function with its parenthesis, as the word spells it. -/
  | call (f : NamedFunction) (word : List Char)

namespace Piece

/-- The piece with the name of the function that the text names. -/
def named : Piece → List Char
  | kept c => [c]
  | call f _ => f.name.toList ++ ['(']

/-- The piece with the name of the function that it is taken for. -/
def written : Piece → List Char
  | kept c => [c]
  | call f word => (calledFunction f word).name.toList ++ ['(']

end Piece

/-- A word that spells a function starts the text, and its parenthesis follows. -/
def StartsCall (previous : Option Char) (text : List Char) : Prop :=
  startsWord previous = true ∧ ∃ f word rest, text = word ++ '(' :: rest ∧ Spelled f word

/-- The text has these calls, from left to right, and these characters between them. -/
inductive Cut : (previous : Option Char) → (text : List Char) → List Piece → Prop
  | nil (previous) : Cut previous [] []
  | kept {previous c rest pieces} : ¬ StartsCall previous (c :: rest) → Cut (some c) rest pieces →
      Cut previous (c :: rest) (.kept c :: pieces)
  | call {previous f word rest pieces} :
      startsWord previous = true → Spelled f word → Cut (some '(') rest pieces →
      Cut previous (word ++ '(' :: rest) (.call f word :: pieces)

section

variable {previous : Option Char} {text : List Char}

theorem functionCall_eq_some {r : Replacement} (h : functionCall previous text = some r) :
    startsWord previous = true ∧ ∃ f word rest, text = word ++ '(' :: rest ∧ Spelled f word ∧
      r = ⟨word.length + 1, (Piece.call f word).written⟩ := by
  obtain ⟨_, hc, rfl⟩ := Option.map_eq_some_iff.mp h
  obtain ⟨hs, name, hn, hcall, rfl⟩ := calledName?_eq_some hc
  obtain ⟨word, rest, rfl, hw⟩ := startsWithCall_iff.mp hcall
  obtain ⟨f, hf⟩ : ∃ f, typedName f = some name := by
    have hall : ∀ name ∈ functionNames,
        ∃ f ∈ [NamedFunction.sqrt, .ln, .log10, .exp, .abs, .floor, .ceil],
          typedName f = some name := by decide
    obtain ⟨f, -, hf⟩ := hall name hn
    exact ⟨f, hf⟩
  have hspelled : Spelled f word :=
    ⟨name, hn, hf, (forall₂_spells_iff (letters_of_functionNames name hn)).mp hw⟩
  have hlen : name.length = word.length := by rw [← String.length_toList, hw.length_eq]
  refine ⟨hs, f, word, rest, rfl, hspelled, ?_⟩
  rw [hlen, List.take_left, List.length_map, fullName_of_spelled hspelled]
  rfl

theorem functionCall_of_startsCall (h : StartsCall previous text) :
    functionCall previous text ≠ none := by
  obtain ⟨hs, f, word, rest, rfl, name, hn, hf, hw⟩ := h
  have hcall :=
    startsWithCall_iff.mpr ⟨word, rest, rfl,
      (forall₂_spells_iff (letters_of_functionNames name hn)).mpr hw⟩
  simp only [functionCall, calledName?, hs, if_true, ne_eq, Option.map_eq_none_iff, List.find?_eq_none]
  exact fun hnone => hnone name hn hcall

theorem functionCall_takes : Takes functionCall where
  positive previous text r h := by
    obtain ⟨-, f, word, rest, -, -, rfl⟩ := functionCall_eq_some h
    exact Nat.succ_pos _
  bounded := functionCall_bounded

theorem Spelled.unique {f g : NamedFunction} {word : List Char} (hf : Spelled f word)
    (hg : Spelled g word) : f = g := by
  obtain ⟨name, hn, htf, hw⟩ := hf
  obtain ⟨name', hn', htg, hw'⟩ := hg
  obtain rfl : name = name' := String.toList_inj.mp (hw.symm.trans hw')
  obtain ⟨hf, hfname⟩ := fullName_typedName htf
  obtain ⟨hg, hgname⟩ := fullName_typedName htg
  exact NamedFunction.eq_of_name_eq ((hfname (hf.mp hn)).symm.trans (hgname (hg.mp hn')))

/-! ## The only way to cut a text -/

namespace Cut

variable {pieces : List Piece}

theorem of_nil (h : Cut previous [] pieces) : pieces = [] := by
  generalize ht : [] = text at h
  cases h with
  | nil => rfl
  | kept => cases ht
  | call => simp at ht

theorem of_not_startsCall {c : Char} {rest : List Char} (h : Cut previous (c :: rest) pieces)
    (hn : ¬ StartsCall previous (c :: rest)) : ∃ ps, pieces = .kept c :: ps ∧ Cut (some c) rest ps := by
  generalize ht : c :: rest = text at h
  cases h with
  | nil => cases ht
  | kept _ h =>
      obtain ⟨rfl, rfl⟩ := List.cons.inj ht
      exact ⟨_, rfl, h⟩
  | call hs hw h => exact absurd ⟨hs, _, _, _, ht, hw⟩ hn

theorem of_call {f : NamedFunction} {word rest : List Char}
    (h : Cut previous (word ++ '(' :: rest) pieces) (hs : startsWord previous = true)
    (hw : Spelled f word) : ∃ ps, pieces = .call f word :: ps ∧ Cut (some '(') rest ps := by
  generalize ht : word ++ '(' :: rest = text at h
  cases h with
  | nil => simp at ht
  | kept hn h => exact absurd ⟨hs, f, word, rest, ht.symm, hw⟩ hn
  | @call _ g word' rest' _ _ hw' h =>
      have hword := congrArg (List.takeWhile (· != '(')) ht
      rw [takeWhile_word (opening_notMem_of_spelled hw),
        takeWhile_word (opening_notMem_of_spelled hw')] at hword
      subst hword
      obtain rfl := (List.cons.inj (List.append_cancel_left ht)).2
      obtain rfl := hw.unique hw'
      exact ⟨_, rfl, h⟩

theorem unique {pieces' : List Piece} (h : Cut previous text pieces) (h' : Cut previous text pieces') :
    pieces = pieces' := by
  induction h generalizing pieces' with
  | nil previous => exact h'.of_nil.symm
  | kept hn _ ih =>
      obtain ⟨ps, rfl, hps⟩ := h'.of_not_startsCall hn
      rw [ih hps]
  | call hs hw _ ih =>
      obtain ⟨ps, rfl, hps⟩ := h'.of_call hs hw
      rw [ih hps]

end Cut

/-- The rule writes the pieces of the text. -/
theorem exists_cut (previous : Option Char) (text : List Char) :
    ∃ pieces, Cut previous text pieces ∧
      functionCall.applyFrom 0 previous text = pieces.flatMap Piece.written := by
  refine applyFrom_induction
    (motive := fun previous text written => ∃ pieces, Cut previous text pieces ∧
      written = pieces.flatMap Piece.written)
    functionCall_takes (fun previous => ⟨[], .nil previous, rfl⟩) ?_ ?_ previous text
  · rintro previous c rest written hc ⟨ps, hps, rfl⟩
    exact ⟨.kept c :: ps, .kept (fun h => functionCall_of_startsCall h hc) hps, rfl⟩
  · rintro previous taken rest written r hr hlen ⟨ps, hps, rfl⟩
    obtain ⟨hs, f, word, after, ht, hw, rfl⟩ := functionCall_eq_some hr
    obtain ⟨rfl, rfl⟩ : taken = word ++ ['('] ∧ rest = after := by
      rw [← List.singleton_append, ← List.append_assoc] at ht
      exact List.append_inj ht (by simpa using hlen.symm)
    rw [List.append_assoc] at hr ⊢
    rw [List.getLast?_concat] at hps
    exact ⟨.call f word :: ps, .call hs hw hps, rfl⟩

/-! ## Names with the long s -/

theorem name_append_opening {f g : NamedFunction} {text text' : List Char}
    (h : f.name.toList ++ '(' :: text = g.name.toList ++ '(' :: text') : f = g ∧ text = text' := by
  have ho : ∀ f : NamedFunction, '(' ∉ f.name.toList := by
    intro f
    cases f <;> decide
  have hname := congrArg (List.takeWhile (· != '(')) h
  rw [takeWhile_word (ho f), takeWhile_word (ho g)] at hname
  rw [hname] at h
  exact ⟨NamedFunction.eq_of_name_eq (String.toList_inj.mp hname),
    (List.cons.inj (List.append_cancel_left h)).2⟩

/-- No name with the long s is `ceil`. -/
theorem calledFunction_eq_iff {f : NamedFunction} {word : List Char} (h : Spelled f word) :
    calledFunction f word = f ↔ 'ſ' ∉ word := by
  unfold calledFunction
  split
  · rename_i hs
    obtain ⟨name, -, hf, hw⟩ := h
    have hm : 's' ∈ name.toList := hw ▸ List.mem_map.mpr ⟨_, hs, by decide⟩
    refine iff_of_false ?_ (not_not_intro hs)
    rintro rfl
    obtain rfl : "ceil" = name := Option.some.inj hf
    exact absurd hm (by decide)
  · rename_i hs
    exact iff_of_true rfl hs

theorem flatMap_written_eq_iff {pieces : List Piece} (h : Cut previous text pieces) :
    pieces.flatMap Piece.written = pieces.flatMap Piece.named ↔
    ∀ f word, .call f word ∈ pieces → 'ſ' ∉ word := by
  induction h with
  | nil => simp
  | kept _ _ ih => simp [Piece.written, Piece.named, ih]
  | @call _ f word _ pieces hs hw _ ih =>
      simp only [List.flatMap_cons, Piece.written, Piece.named, List.append_assoc, List.singleton_append,
        List.mem_cons, Piece.call.injEq]
      constructor
      · intro h g word' hm
        obtain ⟨hf, hrest⟩ := name_append_opening h
        rcases hm with ⟨rfl, rfl⟩ | hm
        · exact (calledFunction_eq_iff hw).mp hf
        · exact ih.mp hrest g word' hm
      · intro h
        rw [(calledFunction_eq_iff hw).mpr (h f word (.inl ⟨rfl, rfl⟩)),
          ih.mpr fun g word' hm => h g word' (.inr hm)]

end

/-! ## The rule in its place -/

/-- The text that the rule for functions finds: signs and constants are already written in full. -/
def beforeCalls (raw : List Char) : List Char :=
  (euler.apply (pi.apply (percent.apply (raw.map asciiSign)))).flatMap powerSign

/-- Of every typed text the calls are cut in one way, and each is written with the function that its word
spells, or with `ceil` if the word has a long s. So the text has the functions that it names just if no
call is spelled with the long s. -/
theorem functionCall_apply_eq (raw : List Char) : ∃ pieces, Cut none (beforeCalls raw) pieces ∧
    (∀ pieces', Cut none (beforeCalls raw) pieces' → pieces' = pieces) ∧
    functionCall.apply (beforeCalls raw) = pieces.flatMap Piece.written ∧
    beforeTrig raw = factorial.apply (pieces.flatMap Piece.written) ∧
    (functionCall.apply (beforeCalls raw) = pieces.flatMap Piece.named ↔
      ∀ f word, .call f word ∈ pieces → 'ſ' ∉ word) := by
  obtain ⟨pieces, hc, hw⟩ := exists_cut none (beforeCalls raw)
  refine ⟨pieces, hc, fun pieces' h => h.unique hc, hw, congrArg _ hw, ?_⟩
  rw [Rule.apply, hw]
  exact flatMap_written_eq_iff hc

example : functionCall.apply "ſqrt(Sqrt(16))".toList = "math.ceil(math.sqrt(16))".toList := by decide

end DeskCalculator.Canonical
