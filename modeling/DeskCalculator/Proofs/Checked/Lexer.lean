import DeskCalculator.Proofs.Checked.Range
import DeskCalculator.Proofs.Token.Lexer

/-!
# Reading tokens by index

The loop stands at an index of the text, looks at characters before the end only, and each token
brings it forward. The tokens are those that are read from the text itself.
-/

namespace DeskCalculator.Checked

open Character DeskCalculator.Except

/-! ## The loop -/

/-- There is a character at the index, and it has the property. -/
def holdsAt (p : Char → Bool) (text : List Char) (i : Nat) : Checked Bool :=
  if i < text.length then do return p (← item text i) else return false

/-- The first index from `i` on without the property. -/
def scan (p : Char → Bool) (text : List Char) : (turns : Nat) → (i : Nat) → Checked Nat
  | 0, _ => .error .turns
  | turns + 1, i => do if ← holdsAt p text i then scan p text turns (i + 1) else return i

/-- The end of the characters with the property. -/
def scanAll (p : Char → Bool) (text : List Char) (i : Nat) : Checked Nat :=
  scan p text (text.length + 1) i

/-- A point is at the index, and another part of the name behind it. -/
def pointAt (text : List Char) (i : Nat) : Checked Bool :=
  if i + 1 < text.length then do return (← item text i) == '.' && isNameStart (← item text (i + 1))
  else return false

/-- The end of a name, part after part. -/
def nameEnd (text : List Char) : (turns : Nat) → (i : Nat) → Checked Nat
  | 0, _ => .error .turns
  | turns + 1, i => do
    let i ← scanAll isNamePart text i
    if ← pointAt text i then nameEnd text turns (i + 1) else return i

def exponentEnd (text : List Char) (i : Nat) : Checked Nat := do
  if ← holdsAt (fun c => c == 'e' || c == 'E') text i then
    let signed ← holdsAt (fun c => c == '+' || c == '-') text (i + 1)
    let j := if signed then i + 2 else i + 1
    if ← holdsAt Char.isDigit text j then scanAll Char.isDigit text j else return i
  else return i

def numeralEnd (text : List Char) (i : Nat) : Checked Nat := do
  let i ← scanAll Char.isDigit text i
  if ← holdsAt (· == '.') text i then exponentEnd text (← scanAll Char.isDigit text (i + 1))
  else exponentEnd text i

/-- The token at an index, where the character `c` stands, and the index behind it. -/
def tokenAt (text : List Char) (i : Nat) (c : Char) : Checked (Except GrammarFault (Token × Nat)) :=
  match c with
  | '(' => return .ok (.opening, i + 1)
  | ')' => return .ok (.closing, i + 1)
  | '+' => return .ok (.op .add, i + 1)
  | '-' => return .ok (.op .sub, i + 1)
  | '*' => do
    if ← holdsAt (· == '*') text (i + 1) then return .ok (.power, i + 2)
    else return .ok (.op .mul, i + 1)
  | '/' => return .ok (.op .div, i + 1)
  | _ =>
    if isNameStart c then do
      let stop ← nameEnd text (text.length + 1) (i + 1)
      let word ← between text i stop
      return .ok (.name (String.ofList word), stop)
    else if c.isDigit || c == '.' then do
      let stop ← numeralEnd text i
      let word ← between text i stop
      match (Numeral.read word).value? with
      | some x => return .ok (.number x, stop)
      | none => return .error (.invalidNumber (String.ofList word))
    else return .error (.unexpectedCharacter c)

def tokensFrom (text : List Char) :
    (turns : Nat) → (i : Nat) → Checked (Except GrammarFault (List Token))
  | 0, _ => .error .turns
  | turns + 1, i =>
    if i < text.length then do
      let c ← item text i
      if isWhiteSpace c then tokensFrom text turns (i + 1)
      else match ← tokenAt text i c with
        | .error g => return .error g
        | .ok (t, next) =>
          if next ≤ i then .error .noProgress
          else return (← tokensFrom text turns next).map (t :: ·)
    else return .ok []

/-- Each turn takes a character at least, so there are no more turns than characters. -/
def tokens (text : List Char) : Checked (Except GrammarFault (List Token)) :=
  tokensFrom text (text.length + 1) 0

/-! ## Runs of characters -/

section

variable (p : Char → Bool) (done rest : List Char)

@[simp] theorem holdsAt_append : holdsAt p (done ++ rest) done.length = .ok (rest.head?.any p) := by
  cases rest with
  | nil => simp [holdsAt]
  | cons c rest => simp [holdsAt]

theorem holdsAt_append_cons (c : Char) :
    holdsAt p (done ++ c :: rest) (done.length + 1) = .ok (rest.head?.any p) := by
  simpa using holdsAt_append p (done ++ [c]) rest

theorem scan_append {turns : Nat} (h : rest.length < turns) :
    scan p (done ++ rest) turns done.length = .ok (done ++ rest.takeWhile p).length := by
  induction rest generalizing done turns with
  | nil =>
      obtain ⟨turns, rfl⟩ : ∃ n, turns = n + 1 := ⟨turns - 1, by omega⟩
      rw [scan, holdsAt_append]
      simp
  | cons c rest ih =>
      obtain ⟨turns, rfl⟩ : ∃ n, turns = n + 1 := ⟨turns - 1, by omega⟩
      rw [scan, holdsAt_append]
      cases hc : p c with
      | false => simp [hc]
      | true =>
          have := @ih (done ++ [c]) turns (Nat.lt_of_succ_lt_succ h)
          simpa [hc] using this

theorem scanAll_append : scanAll p (done ++ rest) done.length = .ok (done ++ rest.takeWhile p).length :=
  scan_append p done rest (by simp only [List.length_append]; omega)

theorem scanAll_append_cons (c : Char) :
    scanAll p (done ++ c :: rest) (done.length + 1) = .ok (done ++ c :: rest.takeWhile p).length := by
  simpa using scanAll_append p (done ++ [c]) rest

end

/-! ## Names -/

theorem nameTail_takeWhile (text : List Char) :
    nameTail text = text.takeWhile isNamePart ++ nameTail (text.dropWhile isNamePart) := by
  induction text with
  | nil => rfl
  | cons c text ih =>
      cases hc : isNamePart c with
      | true => simp [nameTail, hc, ih]
      | false => simp [hc]

theorem nameTail_of_not_part {c : Char} (hc : isNamePart c = false) (rest : List Char) :
    nameTail (c :: rest) = if c == '.' && rest.head?.any isNameStart then c :: nameTail rest
      else [] := by
  simp [nameTail, hc]

theorem pointAt_nil (done : List Char) : pointAt done done.length = .ok false := by
  rw [pointAt, if_neg (by omega), pure_eq]

theorem pointAt_cons (done : List Char) (c : Char) (rest : List Char) :
    pointAt (done ++ c :: rest) done.length = .ok (c == '.' && rest.head?.any isNameStart) := by
  cases rest with
  | nil => simp [pointAt]
  | cons d rest =>
      have hd : item (done ++ c :: d :: rest) (done.length + 1) = .ok d := by
        simpa using item_append (done ++ [c]) d rest
      simp [pointAt, hd]

theorem nameEnd_append {turns : Nat} (done rest : List Char) (h : rest.length < turns) :
    nameEnd (done ++ rest) turns done.length = .ok (done ++ nameTail rest).length := by
  induction turns generalizing done rest with
  | zero => cases h
  | succ turns ih =>
      have hrest : rest.takeWhile isNamePart ++ rest.dropWhile isNamePart = rest :=
        List.takeWhile_append_dropWhile
      have hhead := List.head?_dropWhile_not isNamePart rest
      rw [nameEnd, scanAll_append, nameTail_takeWhile, ok_bind]
      generalize rest.takeWhile isNamePart = word at hrest
      generalize rest.dropWhile isNamePart = tail at hrest hhead
      subst hrest
      rw [← List.append_assoc done]
      cases tail with
      | nil =>
          rw [List.append_nil, pointAt_nil]
          simp [nameTail]
      | cons c tail =>
          have := ih (done ++ word ++ [c]) tail
            (by simp only [List.length_append, List.length_cons] at h; omega)
          rw [pointAt_cons, nameTail_of_not_part hhead, ok_bind]
          cases (c == '.' && tail.head?.any isNameStart) with
          | false => simp
          | true => simpa [Nat.add_assoc] using this

/-! ## Numbers -/

/-- An exponent, or what cannot continue the digits before it. -/
def exponentText (text : List Char) : List Char :=
  ((WrittenExponent.read? text).map WrittenExponent.text).getD []

theorem isSome_sign? (text : List Char) :
    text.head?.any (fun c => c == '+' || c == '-') = (WrittenExponent.sign? text).isSome := by
  unfold WrittenExponent.sign?
  split
  · rfl
  · rfl
  · cases text with
    | nil => rfl
    | cons c text => simp_all

theorem isEmpty_takeWhile (p : Char → Bool) (text : List Char) :
    (!(text.takeWhile p).isEmpty) = text.head?.any p := by
  cases text with
  | nil => rfl
  | cons c text => cases hc : p c <;> simp [hc]

theorem exponentEnd_append (done rest : List Char) :
    exponentEnd (done ++ rest) done.length = .ok (done ++ exponentText rest).length := by
  rw [exponentEnd, holdsAt_append, ok_bind]
  cases rest with
  | nil => simp [exponentText, WrittenExponent.read?]
  | cons c rest =>
      rw [holdsAt_append_cons, isSome_sign?, exponentText, WrittenExponent.read?]
      have hsign := WrittenExponent.sign?_toList rest
      generalize WrittenExponent.sign? rest = sign at hsign
      generalize rest.drop sign.toList.length = after at hsign
      subst hsign
      have hj : (if sign.isSome then done.length + 2 else done.length + 1) =
          (done ++ c :: sign.toList).length := by
        cases sign <;> simp
      have ht : done ++ c :: (sign.toList ++ after) = done ++ c :: sign.toList ++ after := by simp
      simp only [ok_bind, hj, ht, holdsAt_append, scanAll_append, List.head?_cons, Option.any_some,
        isEmpty_takeWhile]
      cases (c == 'e' || c == 'E') <;> cases after.head?.any Char.isDigit <;> simp [WrittenExponent.text]

theorem numeralEnd_append (done rest : List Char) :
    numeralEnd (done ++ rest) done.length = .ok (done ++ (Numeral.read rest).text).length := by
  have hrest : rest.takeWhile Char.isDigit ++ rest.dropWhile Char.isDigit = rest :=
    List.takeWhile_append_dropWhile
  rw [numeralEnd, scanAll_append, Numeral.read, ok_bind]
  generalize rest.takeWhile Char.isDigit = whole at hrest
  generalize rest.dropWhile Char.isDigit = tail at hrest
  subst hrest
  rw [← List.append_assoc, holdsAt_append, ok_bind]
  by_cases hdot : ∃ after, tail = '.' :: after
  · obtain ⟨after, rfl⟩ := hdot
    have hafter : after.takeWhile Char.isDigit ++ after.dropWhile Char.isDigit = after :=
      List.takeWhile_append_dropWhile
    have hexp := exponentEnd_append (done ++ whole ++ '.' :: after.takeWhile Char.isDigit)
      (after.dropWhile Char.isDigit)
    rw [List.append_assoc _ ('.' :: _), List.cons_append, hafter] at hexp
    simp only [List.head?_cons, Option.any_some, beq_self_eq_true, if_true, scanAll_append_cons,
      ok_bind, hexp]
    simp [Numeral.text, exponentText]
  · have hhead : tail.head?.any (· == '.') = false := by
      cases tail with
      | nil => rfl
      | cons c tail =>
          have : c ≠ '.' := by
            rintro rfl
            exact hdot ⟨tail, rfl⟩
          simp [this]
    rw [hhead, if_neg (by decide)]
    split
    · exact absurd ⟨_, rfl⟩ hdot
    · rw [exponentEnd_append]
      simp [Numeral.text, exponentText]

theorem read_text_read (text : List Char) :
    Numeral.read (Numeral.read text).text = Numeral.read text := by
  have := @Numeral.read_text _ (Numeral.isFormed_read text) [] (by simp)
  rwa [List.append_nil] at this

/-! ## One token -/

theorem between_name (done : List Char) (c : Char) (rest : List Char) :
    between (done ++ c :: rest) done.length (done ++ c :: nameTail rest).length =
      .ok (c :: nameTail rest) := by
  obtain ⟨after, ht⟩ := exists_nameTail rest
  have := between_append done (c :: nameTail rest) after
  rwa [List.cons_append, ← ht] at this

theorem between_numeral (done text : List Char) :
    between (done ++ text) done.length (done ++ (Numeral.read text).text).length =
      .ok (Numeral.read text).text := by
  obtain ⟨after, ht⟩ := Numeral.text_read text
  have := between_append done (Numeral.read text).text after
  rwa [← ht] at this

theorem tokenAt_append (done : List Char) (c : Char) (rest : List Char) :
    tokenAt (done ++ c :: rest) done.length c =
    .ok ((Lexeme.read c rest).map fun lexeme => (lexeme.token, done.length + lexeme.length)) := by
  unfold tokenAt
  split
  · rfl
  · rfl
  · rfl
  · rfl
  · rw [holdsAt_append_cons]
    cases rest with
    | nil => rfl
    | cons d rest => by_cases hd : d = '*' <;> simp [Lexeme.read, hd, Except.map]
  · rfl
  · rename_i ho hc hp hm ht hd
    rw [Lexeme.read.eq_7 c rest ho hc hp hm ht hd]
    split
    · have hend : nameEnd (done ++ c :: rest) ((done ++ c :: rest).length + 1) (done.length + 1) =
          .ok (done ++ c :: nameTail rest).length := by
        have hlt : rest.length < (done ++ c :: rest).length + 1 := by
          simp only [List.length_append, List.length_cons]
          omega
        simpa using nameEnd_append (done ++ [c]) rest hlt
      rw [hend, ok_bind, between_name, ok_bind, List.length_append]
      rfl
    split
    · simp only [numeralEnd_append, ok_bind, between_numeral, read_text_read]
      cases (Numeral.read (c :: rest)).value? with
      | none => rfl
      | some x => simp only [pure_eq, Except.map, List.length_append]
    · rfl

/-! ## All tokens -/

theorem tokensFrom_append {turns : Nat} (done rest : List Char) (h : rest.length < turns) :
    tokensFrom (done ++ rest) turns done.length = .ok (DeskCalculator.tokensFrom 0 rest) := by
  induction turns generalizing done rest with
  | zero => cases h
  | succ turns ih =>
      cases rest with
      | nil => simp [tokensFrom, DeskCalculator.tokensFrom]
      | cons c rest =>
          have hlt : done.length < (done ++ c :: rest).length := by
            simp only [List.length_append, List.length_cons]
            omega
          rw [tokensFrom, if_pos hlt, item_append, ok_bind, DeskCalculator.tokensFrom]
          split
          · have := ih (done ++ [c]) rest (Nat.lt_of_succ_lt_succ h)
            simpa using this
          rw [tokenAt_append, ok_bind]
          cases hl : Lexeme.read c rest with
          | error g => rfl
          | ok lexeme =>
              obtain ⟨t, length⟩ := lexeme
              obtain ⟨word, after, rfl, hlen, -⟩ := Lexeme.exists_spelled hl
              obtain rfl : length = word.length + 1 := hlen
              have hnext : ¬ done.length + (word.length + 1) ≤ done.length := by omega
              have hrest :
                  tokensFrom (done ++ c :: (word ++ after)) turns (done.length + (word.length + 1)) =
                  .ok (DeskCalculator.tokensFrom 0 after) := by
                have := ih (done ++ c :: word) after
                  (by simp only [List.length_append, List.length_cons] at h; omega)
                simpa using this
              simp only [Except.map, if_neg hnext, hrest, ok_bind, Nat.add_sub_cancel, tokensFrom_length]
              cases DeskCalculator.tokensFrom 0 after <;> rfl

theorem tokens_eq (text : List Char) : tokens text = .ok (DeskCalculator.tokens text) :=
  tokensFrom_append [] text (Nat.lt_succ_self _)

end DeskCalculator.Checked
