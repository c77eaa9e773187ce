import DeskCalculator.Proofs.Except

/-!
# Operations that keep their range

Subtractions from natural numbers, accesses to a text by index and pieces of a text between two
offsets are defined on a part of their arguments only. Here each of them checks its arguments, and
a loop counts its turns. A run that gives a result has kept all its operations in their range.
-/

namespace DeskCalculator

/-- How a run could leave the range of an operation. -/
inductive RangeFault where
  | subtraction
  | index
  | piece
  /-- A turn of a loop that does not come nearer to the end. -/
  | noProgress
  | turns
deriving DecidableEq

abbrev Checked (α : Type) := Except RangeFault α

namespace Checked

open DeskCalculator.Except

/-! ## Numbers -/

/-- One less than a number that must not be lower than the bound. -/
def decrease (bound n : Nat) : Checked Nat :=
  if n < bound then .error .subtraction else .ok (n - 1)

theorem decrease_of_le {bound n : Nat} (h : bound ≤ n) : decrease bound n = .ok (n - 1) := by
  simp [decrease, Nat.not_lt.mpr h]

/-! ## Places of a text -/

def item (text : List Char) (i : Nat) : Checked Char :=
  match text[i]? with
  | some c => .ok c
  | none => .error .index

/-- The characters from an index up to another. -/
def between (text : List Char) (start stop : Nat) : Checked (List Char) :=
  if start ≤ stop ∧ stop ≤ text.length then .ok ((text.take stop).drop start) else .error .piece

@[simp] theorem item_append (done : List Char) (c : Char) (rest : List Char) :
    item (done ++ c :: rest) done.length = .ok c := by
  simp [item]

theorem between_append (done word rest : List Char) :
    between (done ++ (word ++ rest)) done.length (done ++ word).length = .ok word := by
  have ht : (done ++ (word ++ rest)).take (done ++ word).length = done ++ word := by
    rw [← List.append_assoc, List.take_left]
  have hle : done.length ≤ (done ++ word).length ∧
      (done ++ word).length ≤ (done ++ (word ++ rest)).length := by
    simp only [List.length_append]
    omega
  rw [between, if_pos hle, ht, List.drop_left]

/-! ## Offsets in bytes -/

def bytes (text : List Char) : List UInt8 :=
  text.flatMap String.utf8EncodeChar

/-- How many bytes a text takes. -/
def size (text : List Char) : Nat := (bytes text).length

/-- The text before an offset in bytes and the text behind it. There are none for an offset within a
character or behind the end. -/
def splitAt? : (offset : Nat) → List Char → Option (List Char × List Char)
  | 0, text => some ([], text)
  | _ + 1, [] => none
  | offset + 1, c :: rest =>
    if offset + 1 < c.utf8Size then none
    else (splitAt? (offset + 1 - c.utf8Size) rest).map fun (before, after) => (c :: before, after)

/-- The characters from an offset in bytes up to another; both are the start of a character or the end. -/
def slice (text : List Char) (start stop : Nat) : Checked (List Char) :=
  if stop < start then .error .piece
  else match splitAt? stop text with
    | none => .error .piece
    | some (before, _) => match splitAt? start before with
      | none => .error .piece
      | some (_, piece) => .ok piece

@[simp] theorem size_nil : size [] = 0 := rfl

@[simp] theorem bytes_append (text rest : List Char) : bytes (text ++ rest) = bytes text ++ bytes rest :=
  List.flatMap_append

@[simp] theorem size_append (text rest : List Char) : size (text ++ rest) = size text + size rest := by
  simp [size]

theorem size_cons (c : Char) (text : List Char) : size (c :: text) = c.utf8Size + size text := by
  simp [size, bytes, String.length_utf8EncodeChar]

theorem splitAt?_append (text rest : List Char) :
    splitAt? (size text) (text ++ rest) = some (text, rest) := by
  induction text with
  | nil => simp [splitAt?]
  | cons c text ih =>
      have hc := c.utf8Size_pos
      obtain ⟨n, hn⟩ : ∃ n, size (c :: text) = n + 1 :=
        ⟨c.utf8Size - 1 + size text, by rw [size_cons]; omega⟩
      have hr : n + 1 - c.utf8Size = size text := by
        rw [← hn, size_cons]
        omega
      have hlt : ¬ n + 1 < c.utf8Size := by
        rw [← hn, size_cons]
        omega
      rw [hn, List.cons_append, splitAt?, if_neg hlt, hr, ih]
      rfl

theorem slice_append (done kept rest : List Char) :
    slice (done ++ kept ++ rest) (size done) (size (done ++ kept)) = .ok kept := by
  have hle : ¬ size (done ++ kept) < size done := by
    rw [size_append]
    omega
  rw [slice, if_neg hle, splitAt?_append]
  simp only [splitAt?_append]

/-! ## Parts of a text by their sizes -/

section

variable {text a b c d piece : List Char} {start stop : Nat}

theorem eq_nil_of_size (h : size a = 0) : a = [] := by
  cases a with
  | nil => rfl
  | cons x a =>
      have := x.utf8Size_pos
      rw [size_cons] at h
      omega

theorem exists_of_size_le (h : a ++ b = c ++ d) (hs : size a ≤ size c) :
    ∃ e, c = a ++ e ∧ b = e ++ d := by
  rcases List.append_eq_append_iff.mp h with ⟨e, rfl, rfl⟩ | ⟨e, rfl, rfl⟩
  · exact ⟨e, rfl, rfl⟩
  · obtain rfl : e = [] := eq_nil_of_size (by rw [size_append] at hs; omega)
    exact ⟨[], by simp, rfl⟩

theorem eq_of_size_eq (h : a ++ b = c ++ d) (hs : size a = size c) : a = c ∧ b = d := by
  obtain ⟨e, rfl, rfl⟩ := exists_of_size_le h (Nat.le_of_eq hs)
  obtain rfl : e = [] := eq_nil_of_size (by rw [size_append] at hs; omega)
  exact ⟨(List.append_nil a).symm, rfl⟩

theorem splitAt?_eq_some (h : splitAt? start text = some (a, b)) : text = a ++ b ∧ size a = start := by
  induction text generalizing start a with
  | nil =>
      cases start with
      | zero =>
          obtain ⟨rfl, rfl⟩ := Prod.mk.inj (Option.some.inj h)
          exact ⟨rfl, rfl⟩
      | succ n => cases h
  | cons x text ih =>
      cases start with
      | zero =>
          obtain ⟨rfl, rfl⟩ := Prod.mk.inj (Option.some.inj h)
          exact ⟨rfl, rfl⟩
      | succ n =>
          rw [splitAt?] at h
          split at h
          · cases h
          · obtain ⟨⟨a', b'⟩, hs, hab⟩ := Option.map_eq_some_iff.mp h
            obtain ⟨rfl, rfl⟩ := Prod.mk.inj hab
            obtain ⟨rfl, hsize⟩ := ih hs
            refine ⟨rfl, ?_⟩
            rw [size_cons, hsize]
            omega

theorem exists_of_slice (h : slice text start stop = .ok piece) :
    ∃ before after, text = before ++ (piece ++ after) ∧ size before = start ∧
      size (before ++ piece) = stop := by
  unfold slice at h
  split at h
  · cases h
  split at h
  · cases h
  split at h
  · cases h
  · rename_i before after hstop _ before' piece' hstart
    obtain rfl := Except.ok.inj h
    obtain ⟨rfl, rfl⟩ := splitAt?_eq_some hstop
    obtain ⟨rfl, rfl⟩ := splitAt?_eq_some hstart
    exact ⟨_, _, List.append_assoc .., rfl, rfl⟩

end

end Checked

end DeskCalculator
