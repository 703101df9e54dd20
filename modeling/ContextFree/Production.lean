import ContextFree.Symbol

namespace ContextFree

open Std

/-- The rule `lhs -> rhs`. An empty right-hand side is ε. -/
structure Production where
  lhs : Name
  rhs : List Symbol
  deriving DecidableEq, Repr

namespace Production

/-- Productions are ordered by left-hand side, then lexicographically by right-hand side. -/
instance : Ord Production where
  compare := compareLex (compareOn lhs) (compareOn rhs)

instance : TransOrd Production :=
  inferInstanceAs (TransCmp (compareLex (compareOn lhs) (compareOn rhs)))

instance : LawfulEqOrd Production where
  eq_of_compare {p q} equal := by
    obtain ⟨sameLhs, sameRhs⟩ := Ordering.then_eq_eq.mp equal
    obtain ⟨lhs, rhs⟩ := p
    obtain rfl : lhs = q.lhs := LawfulEqCmp.eq_of_compare sameLhs
    obtain rfl : rhs = q.rhs := LawfulEqCmp.eq_of_compare sameRhs
    rfl

def isEpsilon (p : Production) : Bool := p.rhs.isEmpty

/-- The nonterminal `B` of a production `A -> B`. -/
def unitTarget (p : Production) : Option Name :=
  match p.rhs with
  | [.nonterminal b] => some b
  | _ => none

def render (p : Production) : String :=
  s!"{p.lhs} -> {renderForm p.rhs}"

end Production

end ContextFree
