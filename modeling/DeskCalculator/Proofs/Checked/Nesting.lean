import DeskCalculator.Proofs.Checked.Matching

/-!
# Closings within one another

At each turn of the loop that expands the calls, the closings that lie ahead are in their order, each
closes its own call, and a call that starts before one of them is closed before it. What was written
stands for the text up to the cursor, each of its characters once.
-/

namespace DeskCalculator.Checked

open Canonical Parenthesis DeskCalculator.Except

/-! ## Calls of a text -/

/-- The offset of the parenthesis that the call opens. -/
def CallSite.opening (m : CallSite) : Nat := m.stop - 1

/-- A call of the text. -/
def CallSite.Stands (text : List Char) (m : CallSite) : Prop :=
  ∃ before word rest, text = before ++ word ++ '(' :: rest ∧ CallWord before word ∧
    m = ⟨size before, size (before ++ word) + 1, word.map Char.toLower⟩

theorem stands_of_callFrom? {before rest : List Char} {m : CallSite}
    (h : callFrom? (size before) before.getLast? rest = some m) : m.Stands (before ++ rest) := by
  induction rest generalizing before with
  | nil => cases h
  | cons c rest ih =>
      cases hc : calledName? trigNames before.getLast? (c :: rest) with
      | some name =>
          obtain ⟨word, rest', ht, hw⟩ := exists_callWord hc
          rw [ht, callFrom?_call hw.calledName (List.length_map _).symm] at h
          obtain rfl := Option.some.inj h
          refine ⟨before, word, rest', by rw [ht, List.append_assoc], hw, ?_⟩
          simp only [size_append, size_opening, size_nil, Nat.zero_add, Nat.add_assoc]
      | none =>
          have hsize : size before + c.utf8Size = size (before ++ [c]) := by
            rw [size_append, size_cons, size_nil, Nat.add_zero]
          have hlast : some c = (before ++ [c]).getLast? := List.getLast?_concat.symm
          rw [callFrom?_cons hc, hsize, hlast] at h
          simpa using ih h

theorem stands_of_nextCall {text : List Char} {start : Nat} {m : CallSite}
    (h : nextCall text start = .ok (some m)) :
    m.Stands text ∧ start ≤ m.start := by
  unfold nextCall at h
  split at h
  · cases h
  · rename_i before after hs
    obtain ⟨rfl, rfl⟩ := splitAt?_eq_some hs
    have h := Except.ok.inj h
    exact ⟨stands_of_callFrom? h, le_start_of_callFrom? h⟩

theorem closing_not_mem_of_callWord {before word : List Char} (h : CallWord before word) :
    ')' ∉ word ++ ['('] := by
  obtain ⟨name, hn, hw⟩ := h.spelled
  have hm : ')' ∈ marks := by decide
  have := notMem_of_spells (trigNames_of_mark hm name hn).2 hw
  simp [this]

/-- A closing parenthesis behind the start of a call is behind its opening one. -/
theorem le_size_of_closing {before word rest b after : List Char} (hw : ')' ∉ word)
    (h : before ++ word ++ rest = b ++ ')' :: after) (hs : size before ≤ size b) :
    size (before ++ word) ≤ size b := by
  rw [List.append_assoc] at h
  obtain ⟨e, rfl, he⟩ := exists_of_size_le h hs
  rcases List.append_eq_append_iff.mp he with ⟨f, rfl, -⟩ | ⟨f, rfl, hf⟩
  · simp only [size_append]
    omega
  · cases f with
    | nil => simp
    | cons c f =>
        obtain rfl := (List.cons.inj hf).1
        simp at hw

/-! ## What was written -/

/-- What is written for the part of the text that was read: a copy, with something else for the start of
a call and for the parenthesis that closes one. -/
inductive Emitted (mode : AngleMode) (text : List Char) : (done written : List Char) → Prop
  | start : Emitted mode text [] []
  | copied {done written} (kept : List Char) : Emitted mode text done written →
      Emitted mode text (done ++ kept) (written ++ kept)
  | closed {done written word i} : Emitted mode text done written → CallWord done word →
      Matches text (size (done ++ word)) i →
      Emitted mode text (done ++ word ++ ['('])
        (written ++ (wrapping mode (word.map Char.toLower)).before)
  | unclosed {done written word} : Emitted mode text done written → CallWord done word →
      (∀ i, ¬ Matches text (size (done ++ word)) i) →
      Emitted mode text (done ++ word ++ ['(']) (written ++ openTrig (word.map Char.toLower))
  | closing {done written} {m : CallSite} : Emitted mode text done written → m.Stands text →
      Matches text m.opening (size done) →
      Emitted mode text (done ++ [')']) (written ++ (wrapping mode m.name).after)

namespace Expansion

/-! ## One turn -/

/-- What holds of the loop before each turn; the nearest closing is the first. -/
structure Nested (mode : AngleMode) (text : List Char) (s : Expansion) : Prop where
  ascending : s.closings.Pairwise fun c d => c.position < d.position
  ahead : ∀ c ∈ s.closings, s.cursor ≤ c.position
  matched : ∀ c ∈ s.closings, ∃ m : CallSite,
    m.Stands text ∧ m.stop ≤ s.cursor ∧ Matches text m.opening c.position ∧
      c.written = (wrapping mode m.name).after
  next : ∀ m ∈ s.next, m.Stands text ∧ s.cursor ≤ m.start
  covered : ∃ done rest, text = done ++ rest ∧ s.cursor = size done ∧ Emitted mode text done s.written

namespace Nested

variable {mode : AngleMode} {text : List Char} {s : Expansion} {c : Closing} {m : CallSite}

theorem start {first : Option CallSite} (h : nextCall text 0 = .ok first) :
    Nested mode text ⟨[], 0, [], first⟩ where
  ascending := .nil
  ahead := by simp
  matched := by simp
  next m hm := stands_of_nextCall (hm ▸ h)
  covered := ⟨[], text, rfl, rfl, .start⟩

theorem le_of_head (h : s.Nested mode text) {n : Nat} (hc : ∀ c ∈ s.closings.head?, n ≤ c.position) :
    ∀ c ∈ s.closings, n ≤ c.position := by
  have hp := h.ascending
  intro c hmem
  cases hs : s.closings with
  | nil => simp [hs] at hmem
  | cons d outer =>
      rw [hs] at hc hp hmem
      have hd := hc d rfl
      rcases List.mem_cons.mp hmem with rfl | hmem
      · exact hd
      · exact Nat.le_trans hd (Nat.le_of_lt (List.rel_of_pairwise_cons hp hmem))

/-- A call before a closing is closed before it. -/
theorem inner (h : s.Nested mode text) (hm : s.next = some m)
    (hc : ∀ c ∈ s.closings.head?, m.start ≤ c.position) :
    ∀ c ∈ s.closings, m.stop ≤ c.position ∧ ∃ i, Matches text m.opening i ∧ i < c.position := by
  intro c hmem
  have hle := h.le_of_head hc c hmem
  obtain ⟨⟨before, word, rest, ht, hw, rfl⟩, hcursor⟩ := h.next m hm
  obtain ⟨_, ⟨_, _, _, -, -, rfl⟩, hstop, hmatch, -⟩ := h.matched c hmem
  obtain ⟨b, after, hb, hpos⟩ := hmatch.closing_parts
  have htext : before ++ (word ++ ['(']) ++ rest = b ++ ')' :: after := by
    rw [← hb, ht]
    simp
  have hbehind := le_size_of_closing (closing_not_mem_of_callWord hw) htext (hpos ▸ hle)
  simp only [size_append, size_opening, size_nil] at hbehind hstop hcursor
  refine ⟨?_, hmatch.inner ht ?_ ?_⟩
  · simp only [size_append]
    omega
  · simp only [CallSite.opening, size_append]
    omega
  · simp only [size_append]
    omega

/-- The text behind the cursor is copied up to a place ahead. -/
theorem exists_kept (h : s.Nested mode text) {before rest : List Char} (ht : text = before ++ rest)
    (hs : s.cursor ≤ size before) :
    ∃ kept, slice text s.cursor (size before) = .ok kept ∧
      Emitted mode text before (s.written ++ kept) := by
  obtain ⟨done, rest', hdone, hcursor, hw⟩ := h.covered
  obtain ⟨kept, rfl, -⟩ := exists_of_size_le (hdone.symm.trans ht) (hcursor ▸ hs)
  refine ⟨kept, ?_, .copied kept hw⟩
  rw [ht, hcursor]
  exact slice_append ..

/-- Behind the nearest closing the others lie ahead. -/
theorem closed {outer : List Closing} (h : s.Nested mode text) (hs : s.closings = c :: outer)
    (hn : ∀ m ∈ s.next, c.position < m.start) {done rest written : List Char} (ht : text = done ++ rest)
    (hcursor : c.position + 1 = size done) (hw : Emitted mode text done written) :
    Nested mode text ⟨written, c.position + 1, outer, s.next⟩ where
  ascending := by
    have hp := h.ascending
    rw [hs] at hp
    exact hp.of_cons
  ahead d hd := by
    have hp := h.ascending
    rw [hs] at hp
    exact List.rel_of_pairwise_cons hp hd
  matched d hd := by
    obtain ⟨m, hm, hstop, hmatch⟩ := h.matched d (by simp [hs, hd])
    have hle := h.ahead c (by simp [hs])
    exact ⟨m, hm, Nat.le_trans hstop (Nat.le_succ_of_le hle), hmatch⟩
  next m hm := ⟨(h.next m hm).1, hn m hm⟩
  covered := ⟨done, rest, ht, hcursor, hw⟩

theorem close {outer : List Closing} (h : s.Nested mode text) (hs : s.closings = c :: outer)
    (hn : ∀ m ∈ s.next, c.position < m.start) :
    ∃ s', s.close text c outer = .ok s' ∧ s'.Nested mode text := by
  have hmem : c ∈ s.closings := by simp [hs]
  obtain ⟨m, hm, -, hmatch, hafter⟩ := h.matched c hmem
  obtain ⟨before, after, ht, hpos⟩ := hmatch.closing_parts
  obtain ⟨kept, hslice, hw⟩ := h.exists_kept ht (hpos ▸ h.ahead c hmem)
  rw [← hpos] at hslice
  refine ⟨⟨s.written ++ kept ++ c.written, c.position + 1, outer, s.next⟩, ?_, ?_⟩
  · rw [Expansion.close, hslice]
    rfl
  · have htext : text = before ++ [')'] ++ after := by simp [ht]
    refine h.closed hs hn htext ?_ ?_
    · rw [hpos, size_append _ [')']]
      rfl
    · rw [hafter]
      exact hw.closing hm (hpos ▸ hmatch)

/-- Behind the start of a call all that lay ahead still does. -/
theorem opened (h : s.Nested mode text) (hm : s.next = some m)
    (hc : ∀ c ∈ s.closings.head?, m.start ≤ c.position) {done rest written : List Char}
    {next : Option CallSite} (ht : text = done ++ rest) (hs : m.stop = size done)
    (hw : Emitted mode text done written) (hn : nextCall text m.stop = .ok next) :
    Nested mode text ⟨written, m.stop, s.closings, next⟩ where
  ascending := h.ascending
  ahead c hmem := (h.inner hm hc c hmem).1
  matched c hmem := by
    obtain ⟨m', hm', hstop, hc'⟩ := h.matched c hmem
    obtain ⟨⟨before, word, rest, -, -, rfl⟩, hcursor⟩ := h.next m hm
    refine ⟨m', hm', ?_, hc'⟩
    simp only [size_append] at hcursor ⊢
    omega
  next m' hm' := stands_of_nextCall (hm' ▸ hn)
  covered := ⟨done, rest, ht, hs, hw⟩

theorem push {i : Nat} (h : s.Nested mode text) (hm : m.Stands text) (hstop : m.stop ≤ s.cursor)
    (hi : Matches text m.opening i) (hcursor : s.cursor ≤ i) (hlt : ∀ c ∈ s.closings, i < c.position) :
    Nested mode text { s with closings := ⟨i, (wrapping mode m.name).after⟩ :: s.closings } where
  ascending := .cons hlt h.ascending
  ahead := List.forall_mem_cons.mpr ⟨hcursor, h.ahead⟩
  matched := List.forall_mem_cons.mpr ⟨⟨m, hm, hstop, hi, rfl⟩, h.matched⟩
  next := h.next
  covered := h.covered

theorem call (h : s.Nested mode text) (hm : s.next = some m)
    (hc : ∀ c ∈ s.closings.head?, m.start ≤ c.position) :
    ∃ s', s.call mode text m = .ok s' ∧ s'.Nested mode text := by
  have hinner := h.inner hm hc
  obtain ⟨hstands, hcursor⟩ := h.next m hm
  obtain ⟨before, word, rest, ht, hword, rfl⟩ := id hstands
  obtain ⟨kept, hslice, hw⟩ := h.exists_kept (ht.trans (List.append_assoc ..)) hcursor
  have hstop : size (before ++ word) + 1 = size (before ++ word ++ ['(']) := by
    rw [size_append _ ['(']]
    rfl
  have htext : text = before ++ word ++ ['('] ++ rest := by simp [ht]
  have hnext := nextCall_append (before ++ word ++ ['(']) rest
  rw [← htext, ← hstop] at hnext
  obtain ⟨r, hr⟩ := exists_closing (before ++ word) rest
  have hmatches : ∀ i, r = some i ↔ Matches text (size (before ++ word)) i := by
    intro i
    rw [ht, ← closing_eq_some_iff, hr, Except.ok.injEq]
  rw [← ht] at hr
  rw [Expansion.call, hslice, hnext, decrease_of_le (Nat.le_add_left 1 _), Nat.add_sub_cancel]
  simp only [ok_bind, hr]
  cases r with
  | none =>
      refine ⟨_, rfl, h.opened hm hc htext hstop (hw.unclosed hword fun i hi => ?_) hnext⟩
      cases (hmatches i).mpr hi
  | some i =>
      have hi := (hmatches i).mp rfl
      have hopened := h.opened hm hc htext hstop (hw.closed hword hi) hnext
      refine ⟨_, rfl, hopened.push hstands (Nat.le_refl _) hi hi.lt fun c hmem => ?_⟩
      obtain ⟨-, j, hj, hlt⟩ := hinner c hmem
      rwa [hi.unique hj]

theorem turn (h : s.Nested mode text) :
    s.turn mode text = .ok none ∨ ∃ s', s.turn mode text = .ok (some s') ∧ s'.Nested mode text := by
  have hcall : ∀ m, s.next = some m → (∀ c ∈ s.closings.head?, m.start ≤ c.position) →
      ∃ s', (do return some (← s.call mode text m) : Checked _) = .ok (some s') ∧
        s'.Nested mode text := by
    intro m hm hc
    obtain ⟨s', hs, h'⟩ := h.call hm hc
    exact ⟨s', by rw [hs]; rfl, h'⟩
  have hclose : ∀ c outer, s.closings = c :: outer → (∀ m ∈ s.next, c.position < m.start) →
      ∃ s', (do return some (← s.close text c outer) : Checked _) = .ok (some s') ∧
        s'.Nested mode text := by
    intro c outer hs hn
    obtain ⟨s', hs', h'⟩ := h.close hs hn
    exact ⟨s', by rw [hs']; rfl, h'⟩
  unfold Expansion.turn
  cases hs : s.closings with
  | nil =>
      cases hn : s.next with
      | none => exact .inl rfl
      | some m => exact .inr (hcall m hn (by simp [hs]))
  | cons c outer =>
      cases hn : s.next with
      | none => exact .inr (hclose c outer hs (by simp [hn]))
      | some m =>
          simp only
          split
          · rename_i hlt
            exact .inr (hclose c outer hs (by simpa [hn] using hlt))
          · rename_i hlt
            exact .inr (hcall m hn (by simpa [hs] using hlt))

end Nested

/-! ## All turns -/

/-- The state after so many turns, or the last one. -/
def runFor (mode : AngleMode) (text : List Char) : (turns : Nat) → Expansion → Checked Expansion
  | 0, s => .ok s
  | turns + 1, s => do
    match ← s.turn mode text with
    | none => return s
    | some s => runFor mode text turns s

/-- The state after so many turns from the start of the text. -/
def after (mode : AngleMode) (text : List Char) (turns : Nat) : Checked Expansion := do
  runFor mode text turns ⟨[], 0, [], ← nextCall text 0⟩

section

variable {mode : AngleMode} {text : List Char}

theorem Nested.runFor {s : Expansion} (h : s.Nested mode text) (turns : Nat) :
    ∃ s', s.runFor mode text turns = .ok s' ∧ s'.Nested mode text := by
  induction turns generalizing s with
  | zero => exact ⟨s, rfl, h⟩
  | succ turns ih =>
      rw [Expansion.runFor]
      rcases h.turn with hs | ⟨s', hs, h'⟩
      · exact ⟨s, by rw [hs]; rfl, h⟩
      · rw [hs]
        exact ih h'

/-- The loop goes on from the state after some of its turns. -/
theorem run_runFor (s : Expansion) (turns more : Nat) :
    (s.runFor mode text turns >>= run mode text (more + 1)) = s.run mode text (turns + (more + 1)) := by
  induction turns generalizing s with
  | zero => rw [Nat.zero_add]; rfl
  | succ turns ih =>
      rw [Nat.add_right_comm, run, runFor]
      cases hs : s.turn mode text with
      | error e => rfl
      | ok next =>
          cases next with
          | none =>
              simp only [ok_bind, pure_eq]
              rw [run, hs]
              rfl
          | some s' => exact ih s'

/-- The loop writes the expansion from each of its states on. -/
theorem run_after {s : Expansion} {turns : Nat} (h : after mode text turns = .ok s) :
    (s.run mode text (text.length + 1) >>= finish text) = .ok (Canonical.expandTrig mode text) := by
  have hs : runFor mode text turns ⟨[], 0, [], callFrom? 0 none text⟩ = .ok s := by
    rw [after, nextCall_zero] at h
    exact h
  have hrun := @run_runFor mode text ⟨[], 0, [], callFrom? 0 none text⟩ turns text.length
  rw [hs, ok_bind] at hrun
  rw [hrun]
  exact run_start mode (by omega)

end

end Expansion

/-- The function that looks for the end of a call finds the least offset up to which all is balanced. At
each turn of the loop the closings that lie ahead are nested, a call before one of them is closed before
it, and what was written stands for the text up to the cursor; from there on the loop writes the rest of
the expansion. -/
theorem closings_nested (mode : AngleMode) (text : List Char) :
    (∀ before argument i,
      (closing (before ++ '(' :: argument) (size before) = .ok (some i) ↔
        Matches (before ++ '(' :: argument) (size before) i) ∧
      (Matches (before ++ '(' :: argument) (size before) i ↔
        IsLeast {i | BalancedTo (before ++ '(' :: argument) (size before) i} i)) ∧
    (∀ before argument, closing (before ++ '(' :: argument) (size before) = .ok none ↔
      ∀ i, ¬ BalancedTo (before ++ '(' :: argument) (size before) i) ∧
    ∀ turns, ∃ s, Expansion.after mode text turns = .ok s ∧ s.Nested mode text ∧
      (∀ m ∈ s.next, (∀ c ∈ s.closings.head?, m.start ≤ c.position) →
        ∀ c ∈ s.closings, ∃ i, Matches text m.opening i ∧ i < c.position) ∧
      (s.run mode text (text.length + 1) >>= Expansion.finish text) =
        .ok (Canonical.expandTrig mode text) := by
  refine ⟨fun _ _ _ => ⟨closing_eq_some_iff, matches_iff_isLeast⟩, fun _ _ => closing_eq_none_iff,
    fun turns => ?_⟩
  have hstart : Expansion.Nested mode text ⟨[], 0, [], callFrom? 0 none text⟩ :=
    .start (nextCall_zero text)
  obtain ⟨s, hs, h⟩ := hstart.runFor turns
  have hs : Expansion.after mode text turns = .ok s := by
    rw [Expansion.after, nextCall_zero]
    exact hs
  exact ⟨s, hs, h, fun m hm hc c hmem => (h.inner hm hc c hmem).2, Expansion.run_after hs⟩

end DeskCalculator.Checked
