import TreeConsole.Signature
import TreeConsole.Table

/-! Catalogs of commands.
A catalog holds one entry per command name, with whatever is attached to the command, and aliases that lead to
names. A name is looked up among the commands first and then, once, among the aliases.
-/
namespace TreeConsole

structure Entry (α : Type) where
  signature : Signature
  content : α

structure Catalog (α : Type) where
  commands : Table (Entry α)
  /-- From alias to command name. -/
  aliases : Table String

namespace Catalog
variable {α : Type}

def empty : Catalog α := ⟨.empty,.empty⟩

/-- Adds a command under its name, in place of an older one of that name. -/
def register (catalog : Catalog α) (signature : Signature) (content : α) : Catalog α :=
  { catalog with commands := catalog.commands.insert signature.name ⟨signature,content⟩ }

def addAlias (catalog : Catalog α) (name command : String) : Catalog α :=
  { catalog with aliases := catalog.aliases.insert name command }

def find? (catalog : Catalog α) (name : String) : Option (Entry α) :=
  (catalog.commands.get? name).or ((catalog.aliases.get? name).bind catalog.commands.get?)

def contains (catalog : Catalog α) (name : String) : Bool := (catalog.find? name).isSome

def signatures (catalog : Catalog α) : List Signature := catalog.commands.values.map Entry.signature

def aliasesOf (catalog : Catalog α) (command : String) : List String :=
  (catalog.aliases.entries.filter fun entry => entry.2 == command).map Prod.fst

def size (catalog : Catalog α) : Nat := catalog.commands.size

def listing (catalog : Catalog α) : Catalog Unit :=
  ⟨catalog.commands.map fun entry => ⟨entry.signature,()⟩,catalog.aliases⟩

end Catalog
end TreeConsole
