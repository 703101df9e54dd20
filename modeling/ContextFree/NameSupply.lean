import ContextFree.Grammar

namespace ContextFree

/-- A source of numbered names. The number of the next name only grows: it is 0 at first, and one more
for every name that is given out or found to be in use. All of these stay in memory, so it never comes near the
bound of a machine word, and no bound is set here. -/
structure NameSupply where
  stem : String
  next : Nat
  deriving DecidableEq, Repr

/-- A new nonterminal, the grammar that declares it and what is left of the supply. -/
structure Minted where
  name : Name
  grammar : Grammar
  supply : NameSupply

namespace NameSupply

def ofStem (stem : String) : NameSupply := ⟨stem, 0⟩

def numbered (stem : String) (n : Nat) : Name :=
  stem ++ toString n

/-- The least number from `first` on whose name is free. One more numbers than there are declared
symbols are tried, so one of them is. -/
def freeNumber (g : Grammar) (stem : String) (first : Nat) : Nat :=
  let tries := List.range' first (g.terminals.size + g.nonterminals.size + 1)
  (tries.find? fun n => !g.usesName (numbered stem n)).getD first

/-- Declares the nonterminal with the first free number after `stem`. -/
def mintNumbered (supply : NameSupply) (g : Grammar) (stem : String) : Minted :=
  let n := freeNumber g stem supply.next
  let name := numbered stem n
  { name := name
    grammar := g.declareNonterminal name
    supply := { supply with next := n + 1 } }

/-- Declares a nonterminal named by the supply's own stem and a number. -/
def mint (supply : NameSupply) (g : Grammar) : Minted :=
  supply.mintNumbered g supply.stem

/-- Declares a nonterminal of the given name, with a number after it only if the name is used. -/
def mintNamed (supply : NameSupply) (g : Grammar) (name : Name) : Minted :=
  if g.usesName name then
    supply.mintNumbered g name
  else
    { name := name, grammar := g.declareNonterminal name, supply := supply }

end NameSupply

end ContextFree
