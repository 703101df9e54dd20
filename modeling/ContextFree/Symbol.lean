import ContextFree.FiniteSet

namespace ContextFree

open Std

/-- Names are compared code point by code point. -/
abbrev Name := String

abbrev NameSet := FiniteSet Name

/-- A terminal and a nonterminal of one name are different symbols. -/
inductive Symbol where
  | terminal (name : Name)
  | nonterminal (name : Name)
  deriving DecidableEq, Repr

namespace Symbol

def name : Symbol → Name
  | terminal a => a
  | nonterminal a => a

def isNonterminal : Symbol → Bool
  | terminal _ => false
  | nonterminal _ => true

def terminal? : Symbol → Option Name
  | terminal a => some a
  | nonterminal _ => none

def nonterminal? : Symbol → Option Name
  | terminal _ => none
  | nonterminal a => some a

theorem eq_of_kind_of_name {x y : Symbol} (kind : x.isNonterminal = y.isNonterminal)
    (name : x.name = y.name) : x = y := by
  cases x <;> cases y <;> simp_all [isNonterminal, Symbol.name]

/-- Terminals come before nonterminals; symbols of one kind are ordered by name. -/
instance : Ord Symbol where
  compare := compareLex (compareOn isNonterminal) (compareOn name)

instance : TransOrd Symbol :=
  inferInstanceAs (TransCmp (compareLex (compareOn isNonterminal) (compareOn name)))

instance : LawfulEqOrd Symbol where
  eq_of_compare {x y} equal := by
    obtain ⟨kind, name⟩ := Ordering.then_eq_eq.mp equal
    exact eq_of_kind_of_name (LawfulEqCmp.eq_of_compare kind) (LawfulEqCmp.eq_of_compare name)

end Symbol

/-- The symbols of a sentential form with single spaces between them; `ε` stands for none. -/
def renderForm (form : List Symbol) : String :=
  if form.isEmpty then "ε" else " ".intercalate (form.map Symbol.name)

end ContextFree
