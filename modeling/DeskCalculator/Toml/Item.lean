/-!
# Items of a TOML document

A table remembers how it came about, because that decides what may still be added to it: a table
under its own header is complete, one implied by the header of an inner table may yet get its own,
one made by a dotted key may get more dotted keys, and an inline table gets nothing more.
-/

namespace DeskCalculator.Toml

inductive TableKind where
  | header
  | implied
  | dotted
  | inline
deriving DecidableEq, Repr

inductive Item where
  | string (s : String)
  | integer (n : Int)
  | float (x : Float)
  | boolean (b : Bool)
  | dateTime (text : String)
  | array (items : List Item)
  | table (kind : TableKind) (entries : List (String × Item))
  /-- Tables under repeated headers, the last one first. -/
  | rows (tables : List (List (String × Item)))

abbrev Entries := List (String × Item)

namespace Entries

/-- Changes the item of a key, or makes one; `f` may refuse either. -/
def update (key : String) (f : Option Item → Option Item) : Entries → Option Entries
  | [] => (f none).map fun item => [(key, item)]
  | (k, item) :: rest =>
    if k = key then (f (some item)).map fun item => (k, item) :: rest
    else (update key f rest).map ((k, item) :: ·)

def add (key : String) (item : Item) : Entries → Option Entries :=
  update key fun
    | none => some item
    | some _ => none

/-- Applies `f` to the table at a path of headers, making the tables on the way. Of repeated tables
the last is meant. -/
def atHeader (f : Entries → Option Entries) : List String → Entries → Option Entries
  | [], entries => f entries
  | key :: path, entries =>
    entries.update key fun
      | none => (atHeader f path []).map (.table .implied)
      | some (.table .inline _) => none
      | some (.table kind inner) => (atHeader f path inner).map (.table kind)
      | some (.rows (last :: others)) => (atHeader f path last).map fun last => .rows (last :: others)
      | some _ => none

/-- Adds an item under a dotted key. Tables made by dotted keys may grow; of the others only a table
on the way that was never given a header of its own may be passed. -/
def putDotted (key : String) (item : Item) : List String → Entries → Option Entries
  | [], entries => entries.add key item
  | step :: path, entries =>
    entries.update step fun
      | none => (putDotted key item path []).map (.table .dotted)
      | some (.table .dotted inner) => (putDotted key item path inner).map (.table .dotted)
      | some (.table .implied inner) =>
        if path.isEmpty then none else (putDotted key item path inner).map (.table .implied)
      | some (.rows (last :: others)) =>
        if path.isEmpty then none
        else (putDotted key item path last).map fun last => .rows (last :: others)
      | some _ => none

def openTable (path : List String) (key : String) : Entries → Option Entries :=
  atHeader (fun entries => entries.update key fun
    | none => some (.table .header [])
    | some (.table .implied inner) => some (.table .header inner)
    | some _ => none) path

def openRow (path : List String) (key : String) : Entries → Option Entries :=
  atHeader (fun entries => entries.update key fun
    | none => some (.rows [[]])
    | some (.rows tables) => some (.rows ([] :: tables))
    | some _ => none) path

end Entries

end DeskCalculator.Toml
