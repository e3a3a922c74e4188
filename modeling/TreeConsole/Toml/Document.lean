import TreeConsole.Toml.Scalar

/-! Documents of TOML.
A document is a list of lines: comments, headers that open a section, and keys with values that go into the open
section. A table can be opened once, may be mentioned before that by longer headers, and dotted keys extend only
the tables that dotted keys have made. An array of tables grows by one element per header.
-/
namespace TreeConsole.Toml
open Reader

/-- How a table came to be: by its own header, by a longer header, or by a dotted key. -/
inductive Origin where
  | opened
  | mentioned
  | dotted
deriving DecidableEq

inductive Item where
  | string (s : String)
  | integer (i : Int64)
  | float (x : Binary64)
  | boolean (b : Bool)
  | moment
  | array (items : List Item)
  | inline (entries : List (String × Item))
  | table (origin : Origin) (entries : List (String × Item))
  | tables (elements : List (List (String × Item)))

abbrev Entries := List (String × Item)

namespace Entries

def put (entries : Entries) (key : String) (item : Item) : Entries :=
  if (entries.lookup key).isSome then entries.map fun entry => if entry.1 = key then (key,item) else entry
  else entries ++ [(key,item)]

def erase (entries : Entries) (key : String) : Entries := entries.filter fun entry => entry.1 != key

/-- Puts a value below a dotted key. `inDotted` says whether dotted keys made the table at hand; a dotted
key has to end in such a table, a plain one in any other. -/
def assign (value : Item) (key : String) (nested : Bool) :
    (path : List String) → (inDotted : Bool) → Entries → Option Entries
  | [],inDotted,entries =>
    if inDotted = nested ∧ (entries.lookup key).isNone then some (entries ++ [(key,value)]) else none
  | part :: path,_,entries =>
    match entries.lookup part with
    | none => (assign value key nested path true []).map fun below => put entries part (.table .dotted below)
    | some (.table .opened _) => none
    | some (.table origin below) =>
      (assign value key nested path (origin = .dotted) below).map fun below => put entries part (.table origin below)
    | some (.tables elements) =>
      match elements.getLast? with
      | some last =>
        (assign value key nested path false last).map fun last =>
          put entries part (.tables (elements.dropLast ++ [last]))
      | none => none
    | some _ => none

/-- Changes the table that a header's path leads to; tables on the way are made where there are none, and an
array of tables stands for its last element. -/
def change {α : Type} (act : Entries → Option (α × Entries)) : List String → Entries → Option (α × Entries)
  | [],entries => act entries
  | part :: path,entries =>
    match entries.lookup part with
    | none => (change act path []).map fun (a,below) => (a,put entries part (.table .mentioned below))
    | some (.table origin below) =>
      (change act path below).map fun (a,below) => (a,put entries part (.table origin below))
    | some (.tables elements) =>
      match elements.getLast? with
      | some last =>
        (change act path last).map fun (a,last) => (a,put entries part (.tables (elements.dropLast ++ [last])))
      | none => none
    | some _ => none

end Entries

/-- A document being read: what is closed, and the open section with its header. -/
structure Draft where
  closed : Entries
  path : List String
  /-- The last part of the header; the section before all headers has none. -/
  name : Option String
  isElement : Bool
  current : Entries

namespace Draft

def start : Draft := ⟨[],[],none,false,[]⟩

def close (d : Draft) : Option Entries :=
  match d.name with
  | none => some d.current
  | some name =>
    (Entries.change (fun entries =>
      match d.isElement,entries.lookup name with
      | false,none => some ((),Entries.put entries name (.table .opened d.current))
      | true,none => some ((),Entries.put entries name (.tables [d.current]))
      | true,some (.tables elements) => some ((),Entries.put entries name (.tables (elements ++ [d.current])))
      | _,_ => none) d.path d.closed).map Prod.snd

/-- Opens a table; one that longer headers mention keeps what they put into it. -/
def openTable (d : Draft) (path : List String) (name : String) : Option Draft := do
  let closed ← d.close
  let (current,closed) ← Entries.change (fun entries =>
    match entries.lookup name with
    | none => some ([],entries)
    | some (.table .mentioned below) => some (below,Entries.erase entries name)
    | some _ => none) path closed
  pure ⟨closed,path,some name,false,current⟩

def openElement (d : Draft) (path : List String) (name : String) : Option Draft := do
  let closed ← d.close
  let (_,closed) ← Entries.change (fun entries =>
    match entries.lookup name with
    | none | some (.tables _) => some ((),entries)
    | some _ => none) path closed
  pure ⟨closed,path,some name,true,[]⟩

def assign (d : Draft) (path : List String) (name : String) (value : Item) : Option Draft :=
  (Entries.assign value name (!path.isEmpty) path false d.current).map fun current => { d with current := current }

end Draft

def scalarItem : Reader Item := do
  match ← peek with
  | some '"' => return .string (← string '"')
  | some '\'' => return .string (← string '\'')
  | some c =>
    if c.isDigit || c == '+' || c == '-' then
      (do moment; return .moment) <|> (do return .float (← pointed)) <|> (do return .float (← named))
        <|> (do return .integer (← integer))
    else if c == 't' || c == 'f' then return .boolean (← boolean)
    else return .float (← named)
  | none => failure

/-- The values of an array up to its closing bracket; a comma may follow the last. -/
def arrayItems (value : Reader Item) : Nat → Reader (List Item)
  | 0 => failure
  | steps + 1 => do
    gap (← get).length
    if ← accept [']'] then return []
    else do
      let item ← value
      gap (← get).length
      if ← accept [','] then return item :: (← arrayItems value steps)
      else do
        char ']'
        return [item]

/-- Adds the keys of an inline table up to its closing brace; no comma follows the last. -/
def inlineEntries (value : Reader Item) : Nat → Entries → Reader Entries
  | 0,_ => failure
  | steps + 1,entries => do
    let (path,name) ← key
    char '='
    spaces
    let item ← value
    spaces
    match Entries.assign item name (!path.isEmpty) path false entries with
    | none => failure
    | some entries =>
      if ← accept [','] then inlineEntries value steps entries
      else do
        char '\x7d'
        return entries

/-- Any value, with so many levels of arrays and inline tables left. -/
def item : (levels : Nat) → Reader Item
  | 0 => scalarItem
  | levels + 1 => do
    if ← accept ['['] then return .array (← arrayItems (item levels) (← get).length)
    else if ← accept ['\x7b'] then do
      spaces
      if ← accept ['\x7d'] then return .inline []
      else return .inline (← inlineEntries (item levels) (← get).length [])
    else scalarItem

def header (d : Draft) : Reader Draft := do
  let isElement ← accept ['[','[']
  if !isElement then char '['
  let (path,name) ← key
  if isElement then do
    char ']'
    char ']'
    lineEnd
    StateT.lift (d.openElement path name)
  else do
    char ']'
    lineEnd
    StateT.lift (d.openTable path name)

def setting (d : Draft) : Reader Draft := do
  let (path,name) ← key
  char '='
  spaces
  let value ← item (depthLimit - 1)
  lineEnd
  StateT.lift (d.assign path name value)

def lines : Nat → Draft → Reader Draft
  | 0,_ => failure
  | steps + 1,d => do
    spaces
    match ← peek with
    | none => pure d
    | some '#' => do
      comment
      lineEnd
      lines steps d
    | some '\n' | some '\r' => do
      newline
      lines steps d
    | some '[' => do lines steps (← header d)
    | some _ => do lines steps (← setting d)

/-- Reads a document; a byte order mark in front is skipped. -/
def read? (text : String) : Option Entries := do
  let cs := match text.toList with
    | '\ufeff' :: rest => rest
    | cs => cs
  let (d,_) ← lines (cs.length + 1) .start cs
  d.close

end TreeConsole.Toml
