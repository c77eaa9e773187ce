import DeskCalculator.Toml.Lexical
import DeskCalculator.Toml.Scalar

/-!
# TOML documents

A document is a sequence of lines: keys with their items, and headers which say where the following
keys belong.
-/

namespace DeskCalculator.Toml

/-! ## Items -/

mutual

def item? : (fuel depth : Nat) → List Char → Option (Item × List Char)
  | 0, _, _ => none
  | fuel + 1, depth, text =>
    match text, depth with
    | '[' :: _, 0 | '\x7b' :: _, 0 => none
    | '[' :: rest, depth + 1 => do
      let (items, rest) ← arrayItems? fuel depth (← skipSpace false rest)
      return (.array items, rest)
    | '\x7b' :: rest, depth + 1 => do
      let (entries, rest) ← inlineEntries? fuel depth [] (← skipSpace false rest)
      return (.table .inline entries, rest)
    | '"' :: _, _ | '\'' :: _, _ => do
      let (s, rest) ← string? text
      return (.string (String.ofList s), rest)
    | _, _ => do
      let (run, rest) := takeScalar text
      return (← scalar? run, rest)

/-- The items up to the end of an array, behind its bracket or a comma. -/
def arrayItems? : (fuel depth : Nat) → List Char → Option (List Item × List Char)
  | 0, _, _ => none
  | fuel + 1, depth, text =>
    match text with
    | ']' :: rest => some ([], rest)
    | text => do
      let (item, rest) ← item? fuel depth text
      match ← skipSpace false rest with
      | ']' :: rest => return ([item], rest)
      | ',' :: rest =>
        let (items, rest) ← arrayItems? fuel depth (← skipSpace false rest)
        return (item :: items, rest)
      | _ => none

/-- The entries up to the end of an inline table, behind its brace or a comma, added to those before
them. Ends of line and comments may stand on either side of a key, a sign and an item. -/
def inlineEntries? : (fuel depth : Nat) → Entries → List Char → Option (Entries × List Char)
  | 0, _, _, _ => none
  | fuel + 1, depth, entries, text =>
    match text with
    | '\x7d' :: rest => some (entries, rest)
    | text => do
      let (path, rest) ← key? maxDepth text
      match ← skipSpace false rest with
      | '=' :: rest =>
        let (item, rest) ← item? fuel depth (← skipSpace false rest)
        let entries ← entries.putDotted (path.getLast?.getD "") item path.dropLast
        match ← skipSpace false rest with
        | '\x7d' :: rest => return (entries, rest)
        | ',' :: rest => inlineEntries? fuel depth entries (← skipSpace false rest)
        | _ => none
      | _ => none

end

/-! ## Lines -/

structure Builder where
  root : Entries
  header : List String

/-- A header of a table, or of one more table, behind its first bracket. -/
def readHeader? (b : Builder) (text : List Char) : Option (Builder × List Char) := do
  let (repeated, text) := match text with
    | '[' :: rest => (true, rest)
    | text => (false, text)
  let (path, rest) ← key? maxDepth text
  let key := path.getLast?.getD ""
  let place := if repeated then Entries.openRow else Entries.openTable
  let root ← place path.dropLast key b.root
  match repeated, rest with
  | true, ']' :: ']' :: rest => return (⟨root, path⟩, rest)
  | false, ']' :: rest => return (⟨root, path⟩, rest)
  | _, _ => none

def readEntry? (b : Builder) (text : List Char) : Option (Builder × List Char) := do
  let (path, rest) ← key? maxDepth text
  match rest with
  | '=' :: rest =>
    let (item, rest) ← item? (2 * text.length + 2) maxDepth (skipBlanks rest)
    let root ← b.root.atHeader (Entries.putDotted (path.getLast?.getD "") item path.dropLast) b.header
    return ({ b with root }, rest)
  | _ => none

def readLine? (b : Builder) (text : List Char) : Option (Builder × List Char) :=
  match skipBlanks text with
  | [] | '\n' :: _ | '\x0d' :: _ | '#' :: _ => some (b, text)
  | '[' :: rest => readHeader? b rest
  | text => readEntry? b text

/-- Reads all lines; each takes at least one character. -/
def readLines? : (fuel : Nat) → Builder → List Char → Option Builder
  | _, b, [] => some b
  | 0, _, _ => none
  | fuel + 1, b, text => do
    let (b, rest) ← readLine? b text
    readLines? fuel b (← skipLineEnd rest)

/-- The entries of a document; a byte order mark may stand before it. -/
def document? (text : String) : Option Entries :=
  let chars := match text.toList with
    | '\uFEFF' :: rest => rest
    | chars => chars
  (readLines? chars.length ⟨[], []⟩ chars).map Builder.root

end DeskCalculator.Toml
