/-!
# The names of canonical texts

A canonical text may name fourteen functions and two constants, and nothing else.
-/

namespace DeskCalculator

/-! ## Constants -/

inductive Constant where
  | pi
  | e
deriving DecidableEq, Repr

namespace Constant

def name : Constant → String
  | pi => "math.pi"
  | e => "math.e"

def ofName? : String → Option Constant
  | "math.pi" => some pi
  | "math.e" => some e
  | _ => none

/-- The nearest double. -/
def value : Constant → Float
  | pi => Float.ofBits 0x400921FB54442D18
  | e => Float.ofBits 0x4005BF0A8B145769

@[simp] theorem ofName?_name (c : Constant) : ofName? c.name = some c := by
  cases c <;> rfl

theorem ofName?_eq_some_iff {n : String} {c : Constant} : ofName? n = some c ↔ n = c.name := by
  refine ⟨fun h => ?_, fun h => h ▸ ofName?_name c⟩
  unfold ofName? at h
  split at h <;> cases h <;> rfl

theorem eq_of_name_eq {c c' : Constant} (h : c.name = c'.name) : c = c' := by
  simpa using congrArg ofName? h

end Constant

/-! ## Functions -/

inductive NamedFunction where
  | sqrt
  | ln
  | log10
  | exp
  | abs
  | floor
  | ceil
  | sin
  | cos
  | tan
  | asin
  | acos
  | atan
  | factorial
deriving DecidableEq, Repr

namespace NamedFunction

def name : NamedFunction → String
  | sqrt => "math.sqrt"
  | ln => "math.ln"
  | log10 => "math.log10"
  | exp => "math.exp"
  | abs => "math.abs"
  | floor => "math.floor"
  | ceil => "math.ceil"
  | sin => "math.sin"
  | cos => "math.cos"
  | tan => "math.tan"
  | asin => "math.asin"
  | acos => "math.acos"
  | atan => "math.atan"
  | factorial => "factorial"

def ofName? : String → Option NamedFunction
  | "math.sqrt" => some sqrt
  | "math.ln" => some ln
  | "math.log10" => some log10
  | "math.exp" => some exp
  | "math.abs" => some abs
  | "math.floor" => some floor
  | "math.ceil" => some ceil
  | "math.sin" => some sin
  | "math.cos" => some cos
  | "math.tan" => some tan
  | "math.asin" => some asin
  | "math.acos" => some acos
  | "math.atan" => some atan
  | "factorial" => some factorial
  | _ => none

@[simp] theorem ofName?_name (f : NamedFunction) : ofName? f.name = some f := by
  cases f <;> rfl

theorem ofName?_eq_some_iff {n : String} {f : NamedFunction} : ofName? n = some f ↔ n = f.name := by
  refine ⟨fun h => ?_, fun h => h ▸ ofName?_name f⟩
  unfold ofName? at h
  split at h <;> cases h <;> rfl

theorem eq_of_name_eq {f f' : NamedFunction} (h : f.name = f'.name) : f = f' := by
  simpa using congrArg ofName? h

end NamedFunction

/-- No name is both a constant and a function. -/
theorem Constant.name_ne_name (c : Constant) (f : NamedFunction) : c.name ≠ f.name := by
  cases c <;> cases f <;> decide

theorem Constant.ofName?_functionName (f : NamedFunction) : Constant.ofName? f.name = none := by
  cases f <;> rfl

end DeskCalculator
