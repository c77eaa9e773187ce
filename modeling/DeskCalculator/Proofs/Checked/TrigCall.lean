import DeskCalculator.Proofs.Canonical.TrigCall
import DeskCalculator.Proofs.Checked.Range

/-!
# The expansion of calls over offsets in bytes

The loop goes from call to call and from closing to closing. It copies the piece of the text between
its cursor and the place it goes to, and what it writes there is what the expansion writes.
-/

namespace DeskCalculator.Canonical.Ahead

theorem pending_eq_nil {position level : Nat} {opened : List (List Char)} {pending : List Closing}
    (h : Ahead position [] level opened pending) : pending = [] := by
  generalize ht : ([] : List Char) = text at h
  induction h with
  | nil => rfl
  | plain _ ih => exact ih
  | wrapped ho =>
      subst ht
      cases ho

theorem le_position {position level : Nat} {text : List Char} {opened : List (List Char)}
    {pending : List Closing} (h : Ahead position text level opened pending) :
    ∀ q ∈ pending, position ≤ q.position := by
  induction h with
  | nil => simp
  | plain _ ih => exact ih
  | wrapped _ _ ih =>
      intro q hq
      rcases List.mem_cons.mp hq with rfl | hq
      · exact Nat.le_add_right _ _
      · exact ih q hq

end DeskCalculator.Canonical.Ahead

namespace DeskCalculator.Checked

open Canonical Parenthesis DeskCalculator.Except

/-! ## Where a call closes -/

/-- The offset of the closing parenthesis that brings the level back to zero. -/
def closingFrom : (level offset : Nat) → List UInt8 → Checked (Option Nat)
  | _, _, [] => .ok none
  | level, offset, b :: rest =>
    if b = 40 then closingFrom (level + 1) (offset + 1) rest
    else if b = 41 then do
      let level ← decrease 1 level
      if level = 0 then return some offset else closingFrom level (offset + 1) rest
    else closingFrom level (offset + 1) rest

/-- The closing parenthesis for the one at an offset. -/
def closing (text : List Char) (opening : Nat) : Checked (Option Nat) :=
  closingFrom 0 opening ((bytes text).drop opening)

/-! ## Calls ahead -/

/-- A call up to its parenthesis lies between two offsets. -/
structure CallSite where
  start : Nat
  stop : Nat
  name : List Char

/-- The first call of a text that starts at an offset. -/
def callFrom? : (offset : Nat) → (previous : Option Char) → List Char → Option CallSite
  | _, _, [] => none
  | offset, previous, c :: rest =>
    match calledName? trigNames previous (c :: rest) with
    | some name => some ⟨offset, offset + size ((c :: rest).take (name.length + 1)), name⟩
    | none => callFrom? (offset + c.utf8Size) (some c) rest

def nextCall (text : List Char) (start : Nat) : Checked (Option CallSite) :=
  match splitAt? start text with
  | none => .error .piece
  | some (before, after) => .ok (callFrom? start before.getLast? after)

/-! ## The loop -/

/-- What was written, how far the text was copied, the closings that lie ahead, the nearest first, and
the next call. -/
structure Expansion where
  written : List Char
  cursor : Nat
  closings : List Closing
  next : Option CallSite

namespace Expansion

def close (text : List Char) (s : Expansion) (c : Closing) (outer : List Closing) :
    Checked Expansion := do
  let kept ← slice text s.cursor c.position
  return { s with
    written := s.written ++ kept ++ c.written, cursor := c.position + 1, closings := outer }

def call (mode : AngleMode) (text : List Char) (s : Expansion) (m : CallSite) : Checked Expansion := do
  let kept ← slice text s.cursor m.start
  let next ← nextCall text m.stop
  match ← closing text (← decrease 1 m.stop) with
  | none => return ⟨s.written ++ kept ++ openTrig m.name, m.stop, s.closings, next⟩
  | some position =>
    let w := wrapping mode m.name
    return ⟨s.written ++ kept ++ w.before, m.stop, ⟨position, w.after⟩ :: s.closings, next⟩

/-- One turn; there is none without a call or a closing ahead. -/
def turn (mode : AngleMode) (text : List Char) (s : Expansion) : Checked (Option Expansion) :=
  match s.closings, s.next with
  | [], none => return none
  | [], some m => return some (← s.call mode text m)
  | c :: outer, none => return some (← s.close text c outer)
  | c :: outer, some m =>
    if c.position < m.start then return some (← s.close text c outer)
    else return some (← s.call mode text m)

def run (mode : AngleMode) (text : List Char) : (turns : Nat) → Expansion → Checked Expansion
  | 0, _ => .error .turns
  | turns + 1, s => do
    match ← s.turn mode text with
    | none => return s
    | some s => run mode text turns s

def finish (text : List Char) (s : Expansion) : Checked (List Char) := do
  return s.written ++ (← slice text s.cursor (size text))

end Expansion

/-- Each turn takes a character at least, so there are no more turns than characters. -/
def expandTrig (mode : AngleMode) (text : List Char) : Checked (List Char) := do
  let s ← Expansion.run mode text (text.length + 1) ⟨[], 0, [], ← nextCall text 0⟩
  s.finish text

/-! ## Parentheses among the bytes -/

/-- A byte of ASCII stands for its character only. -/
theorem eq_of_byte {c d : Char} (hd : d.toNat < 128)
    (h : UInt8.ofNat d.toNat ∈ String.utf8EncodeChar c) : c = d := by
  have h := List.mem_map_of_mem (f := UInt8.toNat) h
  have hc : c.toNat = c.val.toNat := rfl
  rw [UInt8.toNat_ofNat', Nat.mod_eq_of_lt (by omega)] at h
  rw [String.utf8EncodeChar] at h
  split at h
  · have : d.toNat = c.val.toNat := by
      simp only [List.map_cons, List.map_nil, List.mem_singleton, UInt8.toNat_ofNat'] at h
      omega
    exact Char.toNat_inj.mp (hc.trans this.symm)
  -- All bytes of the longer forms have their highest bit.
  all_goals
    exfalso
    repeat' split at h
    all_goals
      simp only [List.map_cons, List.map_nil, List.mem_cons, List.not_mem_nil, or_false,
        UInt8.toNat_ofNat'] at h
      omega

theorem closingFrom_other {level offset : Nat} {bs : List UInt8} (ho : (40 : UInt8) ∉ bs)
    (hc : (41 : UInt8) ∉ bs) (rest : List UInt8) :
    closingFrom level offset (bs ++ rest) = closingFrom level (offset + bs.length) rest := by
  induction bs generalizing offset with
  | nil => rfl
  | cons b bs ih =>
      simp only [List.mem_cons, not_or] at ho hc
      rw [List.cons_append, closingFrom, if_neg (Ne.symm ho.1), if_neg (Ne.symm hc.1), ih ho.2 hc.2,
        List.length_cons]
      congr 1
      omega

theorem closingFrom_bytes (level offset : Nat) (text : List Char) :
    closingFrom (level + 1) offset (bytes text) =
    .ok ((closingOffset? level text).map fun n => offset + size (text.take n)) := by
  induction text generalizing level offset with
  | nil => rfl
  | cons c text ih =>
      have hb : bytes (c :: text) = String.utf8EncodeChar c ++ bytes text := List.flatMap_cons
      have hshift : ∀ o : Option Nat, (o.map (· + 1)).map (fun n => offset + size ((c :: text).take n)) =
          o.map fun n => offset + c.utf8Size + size (text.take n) := by
        intro o
        cases o <;> simp [size_cons, Nat.add_assoc]
      by_cases ho : c = '('
      · subst ho
        have hoff : closingOffset? level ('(' :: text) =
            (closingOffset? (level + 1) text).map (· + 1) := by
          simp [closingOffset?]
        rw [hoff, hshift, hb]
        exact ih (level + 1) (offset + 1)
      by_cases hcl : c = ')'
      · subst hcl
        rw [hb]
        cases level with
        | zero => rfl
        | succ level =>
            have hoff : closingOffset? (level + 1) (')' :: text) =
                (closingOffset? level text).map (· + 1) := by
              simp [closingOffset?]
            rw [hoff, hshift]
            exact ih level (offset + 1)
      · have hoff : closingOffset? level (c :: text) = (closingOffset? level text).map (· + 1) := by
          simp [closingOffset?, ho, hcl]
        rw [hoff, hshift, hb, closingFrom_other (fun h => ho (eq_of_byte (d := '(') (by decide) h))
          (fun h => hcl (eq_of_byte (d := ')') (by decide) h)), String.length_utf8EncodeChar, ih]

theorem closing_append (before argument : List Char) :
    closing (before ++ '(' :: argument) (size before) =
    .ok ((closingOffset? 0 argument).map fun n => size before + 1 + size (argument.take n)) := by
  have hd : (bytes (before ++ '(' :: argument)).drop (size before) = 40 :: bytes argument := by
    rw [bytes_append, size, List.drop_left]
    rfl
  rw [closing, hd]
  exact closingFrom_bytes 0 (size before + 1) argument

/-! ## Calls ahead -/

section

variable {offset : Nat} {previous : Option Char} {rest : List Char}

theorem callFrom?_cons {c : Char} (h : calledName? trigNames previous (c :: rest) = none) :
    callFrom? offset previous (c :: rest) = callFrom? (offset + c.utf8Size) (some c) rest := by
  simp [callFrom?, h]

theorem callFrom?_call {word name : List Char}
    (h : calledName? trigNames previous (word ++ '(' :: rest) = some name)
    (hl : word.length = name.length) : callFrom? offset previous (word ++ '(' :: rest) =
      some ⟨offset, offset + size (word ++ ['(']), name⟩ := by
  have ht : (word ++ '(' :: rest).take (name.length + 1) = word ++ ['('] := by
    rw [← hl, List.append_cons]
    exact List.take_left' (by simp)
  cases word with
  | nil => simp [calledName?_opening] at h
  | cons c word =>
      simp only [List.cons_append] at h ht ⊢
      simp only [callFrom?, h, ht]

theorem le_start_of_callFrom? {m : CallSite} (h : callFrom? offset previous rest = some m) :
    offset ≤ m.start := by
  induction rest generalizing offset previous with
  | nil => cases h
  | cons c rest ih =>
      unfold callFrom? at h
      split at h
      · obtain rfl := Option.some.inj h
        exact Nat.le_refl _
      · have := ih h
        omega

theorem nextCall_append (before rest : List Char) :
    nextCall (before ++ rest) (size before) = .ok (callFrom? (size before) before.getLast? rest) := by
  rw [nextCall, splitAt?_append]

end

/-! ## One place of the text -/

/-- A closing of the text by its offset in bytes. -/
def byteClosing (text : List Char) (c : Closing) : Closing :=
  ⟨size (text.take c.position), c.written⟩

theorem byteClosing_append (before rest : List Char) (offset : Nat) (w : List Char) :
    byteClosing (before ++ rest) ⟨before.length + offset, w⟩ =
      ⟨size before + size (rest.take offset), w⟩ := by
  rw [byteClosing, List.take_length_add_append, size_append]

/-- The loop copied the text up to its cursor, and between the cursor and this place there is nothing
to expand. What it knows of the rest is what lies ahead there. -/
structure Reached (text done kept : List Char) (previous : Option Char) (opened : List (List Char))
    (rest : List Char) (s : Expansion) : Prop where
  parts : text = done ++ kept ++ rest
  cursor : s.cursor = size done
  next : s.next = callFrom? (size (done ++ kept)) previous rest
  closings : ∃ pending, Ahead (done ++ kept).length rest 0 opened pending ∧
  s.closings = pending.map (byteClosing text)

theorem size_le_take {before : List Char} {n : Nat} (h : before.length ≤ n) (rest : List Char) :
    size before ≤ size ((before ++ rest).take n) := by
  rw [List.take_append, List.take_of_length_le h, size_append]
  exact Nat.le_add_right _ _

namespace Reached

variable {text done kept rest : List Char} {previous : Option Char} {opened : List (List Char)}
  {s : Expansion}

/-- A place up to which all is copied. -/
theorem of_copied {pending : List Closing} (hp : text = done ++ rest) (hc : s.cursor = size done)
    (hn : s.next = callFrom? (size done) previous rest) (ha : Ahead done.length rest 0 opened pending)
    (hcl : s.closings = pending.map (byteClosing text)) :
    Reached text done [] previous opened rest s := by
  refine ⟨?_, hc, ?_, pending, ?_, hcl⟩ <;> rwa [List.append_nil]

theorem slice (h : Reached text done kept previous opened rest s) :
    Checked.slice text s.cursor (size (done ++ kept)) = .ok kept := by
  rw [h.parts, h.cursor]
  exact slice_append done kept rest

/-- A character of no call that closes nothing is kept for later. -/
theorem keep {c : Char} {opened' : List (List Char)} {pending : List Closing}
    (h : Reached text done kept previous opened (c :: rest) s)
    (hc : calledName? trigNames previous (c :: rest) = none)
    (hs : s.closings = pending.map (byteClosing text))
    (ha : Ahead ((done ++ kept).length + 1) rest 0 opened' pending) :
    Reached text done (kept ++ [c]) (some c) opened' rest s where
  parts := by simp [h.parts]
  cursor := h.cursor
  next := by
    have hsize : size (done ++ (kept ++ [c])) = size (done ++ kept) + c.utf8Size := by
      rw [← List.append_assoc, size_append _ [c], size_cons, size_nil, Nat.add_zero]
    rw [h.next, callFrom?_cons hc, hsize]
  closings := by
    refine ⟨pending, ?_, hs⟩
    rwa [← List.append_assoc, List.length_append]

/-! ## One turn -/

theorem byteClosing_here (h : Reached text done kept previous opened rest s) (w : List Char) :
    byteClosing text ⟨(done ++ kept).length, w⟩ = ⟨size (done ++ kept), w⟩ := by
  rw [byteClosing, h.parts, List.take_left]

theorem close {mode : AngleMode} {w : List Char} {pending : List Closing}
    (h : Reached text done kept previous (w :: opened) (')' :: rest) s)
    (hp : Ahead ((done ++ kept).length + 1) rest 0 opened pending)
    (hc : s.closings = (⟨(done ++ kept).length, w⟩ :: pending).map (byteClosing text)) :
    ∃ s', s.turn mode text = .ok (some s') ∧ s'.written = s.written ++ kept ++ w ∧
      Reached text (done ++ kept ++ [')']) [] (some ')') opened rest s' := by
  rw [List.map_cons, h.byteClosing_here] at hc
  have hnext : s.next = callFrom? (size (done ++ kept) + 1) (some ')') rest :=
    h.next.trans (callFrom?_cons calledName?_closing)
  have hclose : s.close text ⟨size (done ++ kept), w⟩ (pending.map (byteClosing text)) =
      .ok ⟨s.written ++ kept ++ w, size (done ++ kept) + 1, pending.map (byteClosing text), s.next⟩ := by
    rw [Expansion.close, h.slice]
    rfl
  have hsize : size (done ++ kept ++ [')']) = size (done ++ kept) + 1 := size_append _ _
  refine ⟨⟨s.written ++ kept ++ w, size (done ++ kept) + 1, pending.map (byteClosing text), s.next⟩, ?_,
    rfl, ?_⟩
  · unfold Expansion.turn
    rw [hc]
    cases hm : s.next with
    | none => simp only [hclose, hm, ok_bind, pure_eq]
    | some m =>
        have : size (done ++ kept) < m.start := le_start_of_callFrom? (hnext.symm.trans hm)
        simp only [if_pos this, hclose, hm, ok_bind, pure_eq]
  · refine .of_copied (by simp [h.parts]) hsize.symm ?_ ?_ rfl
    · rw [hnext, hsize]
    · rwa [List.length_append]

theorem turn_of_next {mode : AngleMode} {m : CallSite}
    (h : Reached text done kept previous opened rest s) (hm : s.next = some m)
    (hs : m.start = size (done ++ kept)) :
    s.turn mode text = (do return some (← s.call mode text m)) := by
  obtain ⟨pending, hp, hc⟩ := h.closings
  unfold Expansion.turn
  rw [hc, hm]
  cases pending with
  | nil => rfl
  | cons q outer =>
      have hle : ¬ (byteClosing text q).position < m.start := by
        rw [hs, byteClosing, h.parts]
        exact Nat.not_lt.mpr (size_le_take (hp.le_position q (by simp)) rest)
      simp only [List.map_cons, if_neg hle]

theorem call {mode : AngleMode} {word name : List Char}
    (h : Reached text done kept previous opened (word ++ '(' :: rest) s)
    (hc : calledName? trigNames previous (word ++ '(' :: rest) = some name)
    (hl : word.length = name.length) (hw : ofText word = []) :
    ∃ s', s.turn mode text = .ok (some s') ∧
      s'.written = s.written ++ kept ++ (callWrapping mode name rest).before ∧
      Reached text (done ++ kept ++ word ++ ['(']) [] (some '(')
        ((callWrapping mode name rest).after :: opened) rest s' := by
  obtain ⟨pending, hp, hcl⟩ := h.closings
  have hahead := hp.word hw
  have hlength : (done ++ kept).length + (word.length + 1) = (done ++ kept ++ word ++ ['(']).length := by
    simp only [List.length_append, List.length_singleton, Nat.add_assoc]
  rw [hlength] at hahead
  have hsize : size (done ++ kept) + size (word ++ ['(']) = size (done ++ kept ++ word ++ ['(']) := by
    simp only [size_append, Nat.add_assoc]
  have hnext := h.next.trans (callFrom?_call hc hl)
  rw [hsize] at hnext
  have htext : text = done ++ kept ++ word ++ ['('] ++ rest := by simp [h.parts]
  have hafter : nextCall text (size (done ++ kept ++ word ++ ['('])) =
      .ok (callFrom? (size (done ++ kept ++ word ++ ['('])) (some '(') rest) := by
    rw [htext, nextCall_append, List.getLast?_concat]
  have hstop : size (done ++ kept ++ word ++ ['(']) = size (done ++ kept ++ word) + 1 := size_append _ _
  have hclosing : closing text (size (done ++ kept ++ word)) =
      .ok ((closingOffset? 0 rest).map fun n =>
        size (done ++ kept ++ word ++ ['(']) + size (rest.take n)) := by
    rw [hstop, htext, List.append_assoc _ ['('] rest]
    exact closing_append _ _
  rw [h.turn_of_next hnext rfl, Expansion.call, h.slice, hafter, hstop,
    decrease_of_le (Nat.le_add_left 1 _)]
  simp only [ok_bind, Nat.add_sub_cancel, hclosing, callWrapping]
  cases hoff : closingOffset? 0 rest with
  | none => exact ⟨_, rfl, rfl, .of_copied htext hstop.symm (by rw [hstop]) (.plain hahead) hcl⟩
  | some offset =>
      refine ⟨_, rfl, rfl, .of_copied htext hstop.symm (by rw [hstop]) (.wrapped hoff hahead) ?_⟩
      rw [List.map_cons, hcl, htext, byteClosing_append]

/-- At the end nothing lies ahead. -/
theorem finish {mode : AngleMode} (h : Reached text done kept previous opened [] s) :
    s.turn mode text = .ok none ∧ s.finish text = .ok (s.written ++ kept) := by
  obtain ⟨pending, hp, hc⟩ := h.closings
  obtain rfl := hp.pending_eq_nil
  have ht : text = done ++ kept := h.parts.trans (List.append_nil _)
  refine ⟨?_, ?_⟩
  · unfold Expansion.turn
    rw [hc, h.next]
    rfl
  · have hs := h.slice
    rw [← ht] at hs
    rw [Expansion.finish, hs]
    rfl

end Reached

/-! ## All turns -/

theorem Expansion.run_succ {mode : AngleMode} {text : List Char} {s s' : Expansion}
    (h : s.turn mode text = .ok (some s')) (turns : Nat) :
    s.run mode text (turns + 1) = s'.run mode text turns := by
  rw [Expansion.run, h]
  rfl

/-- From each place on, the loop writes what the expansion writes there. -/
theorem Reached.run {mode : AngleMode} {text done kept rest : List Char} {previous : Option Char}
    {opened : List (List Char)} {s : Expansion} {turns : Nat}
    (h : Reached text done kept previous opened rest s) (ht : rest.length < turns) :
    (s.run mode text turns >>= Expansion.finish text) =
      .ok (s.written ++ kept ++ expandWithin mode 0 previous opened rest) := by
  -- A turn is made only where a call starts or a wrapped argument closes; other characters are kept.
  induction previous, rest using call_induction generalizing done kept opened s turns with
  | nil previous =>
      obtain ⟨turns, rfl⟩ : ∃ n, turns = n + 1 := ⟨turns - 1, by omega⟩
      obtain ⟨hturn, hfinish⟩ := h.finish
      rw [Expansion.run, hturn]
      refine hfinish.trans ?_
      rw [expandWithin, List.append_nil]
  | step previous c rest hc ih =>
      have hlt : rest.length < turns := Nat.lt_of_succ_lt ht
      obtain ⟨pending, hp, hs⟩ := h.closings
      have hkeep : ∀ {opened'}, Ahead ((done ++ kept).length + 1) rest 0 opened' pending →
          (s.run mode text turns >>= Expansion.finish text) =
            .ok (s.written ++ kept ++ c :: expandWithin mode 0 (some c) opened' rest) := by
        intro opened' ha
        rw [ih (h.keep hc hs ha) hlt]
        simp only [List.append_assoc, List.cons_append, List.nil_append]
      by_cases ho : c = '('
      · subst ho
        rw [expandWithin_opening]
        exact hkeep (.plain hp.opening)
      by_cases hcl : c = ')'
      · subst hcl
        cases hp with
        | nil =>
            rw [expandWithin_unmatched]
            exact hkeep (.nil 0)
        | @plain _ opened _ hp =>
            rw [expandWithin_closing]
            exact hkeep hp.closing
        | @wrapped _ opened pending offset w hoff hp =>
            obtain rfl : offset = 0 := by simpa [closingOffset?, eq_comm] using hoff
            obtain ⟨s', hturn, hw, hr⟩ := h.close hp.closing hs
            obtain ⟨turns, rfl⟩ : ∃ n, turns = n + 1 := ⟨turns - 1, by omega⟩
            rw [expandWithin_closing, Expansion.run_succ hturn, ih hr (Nat.lt_of_succ_lt_succ ht), hw,
              List.append_nil, List.append_assoc]
      · rw [expandWithin_other hc ho hcl]
        exact hkeep (hp.other ho hcl)
  | call previous word rest name hc hl hw hname ih =>
      obtain ⟨s', hturn, hwritten, hr⟩ := h.call hc hl hw
      obtain ⟨turns, rfl⟩ : ∃ n, turns = n + 1 := ⟨turns - 1, by omega⟩
      have hlt : rest.length < turns := by
        simp only [List.length_append, List.length_cons] at ht
        omega
      rw [expandWithin_call hc hl, Expansion.run_succ hturn, ih hr hlt, hwritten, List.append_nil,
        List.append_assoc]

theorem nextCall_zero (text : List Char) : nextCall text 0 = .ok (callFrom? 0 none text) :=
  nextCall_append [] text

/-- From the start of the text, the loop writes its expansion. -/
theorem Expansion.run_start (mode : AngleMode) {text : List Char} {turns : Nat}
    (ht : text.length < turns) :
    (run mode text turns ⟨[], 0, [], callFrom? 0 none text⟩ >>= finish text) =
      .ok (Canonical.expandTrig mode text) := by
  have h : Reached text [] [] none [] text ⟨[], 0, [], callFrom? 0 none text⟩ :=
    .of_copied rfl rfl rfl (.nil 0) rfl
  rw [h.run ht, expandTrig_eq_expandWithin]
  rfl

theorem expandTrig_eq (mode : AngleMode) (text : List Char) :
    expandTrig mode text = .ok (Canonical.expandTrig mode text) := by
  rw [expandTrig, nextCall_zero]
  exact Expansion.run_start mode (Nat.lt_succ_self _)

end DeskCalculator.Checked
