import ContextFree.Grammar
import ContextFree.Trail

namespace ContextFree

/-- Whether a symbol is a member of a set of nonterminals. Terminals count as members if
`terminals` is set. -/
def Symbol.within (terminals : Bool) (known : NameSet) : Symbol → Bool
  | terminal _ => terminals
  | nonterminal a => known.contains a

namespace Grammar

/-- Goes through productions in order and adds the left-hand side of each whose right-hand side
lies within the set. What is added counts at once. -/
def absorb (terminals : Bool) : NameSet → List Production → NameSet
  | known, [] => known
  | known, p :: rest =>
    absorb terminals (if p.rhs.all (·.within terminals known) then known.insert p.lhs else known) rest

theorem mem_absorb_of_mem {terminals : Bool} {known : NameSet} {productions : List Production}
    {a : Name} (member : a ∈ known) : a ∈ absorb terminals known productions := by
  induction productions generalizing known with
  | nil => exact member
  | cons p rest ih =>
    apply ih
    split
    · exact FiniteSet.mem_insert_iff.mpr (.inr member)
    · exact member

theorem mem_absorb {terminals : Bool} {known : NameSet} {productions : List Production} {a : Name}
    (member : a ∈ absorb terminals known productions) :
    a ∈ known ∨ ∃ p ∈ productions, p.lhs = a := by
  induction productions generalizing known with
  | nil => exact .inl member
  | cons p rest ih =>
    rcases ih member with early | ⟨q, inRest, same⟩
    · split at early
      · rcases FiniteSet.mem_insert_iff.mp early with same | old
        · exact .inr ⟨p, .head _, same.symm⟩
        · exact .inl old
      · exact .inl early
    · exact .inr ⟨q, .tail _ inRest, same⟩

variable (g : Grammar) (terminals : Bool)

theorem absorb_shrinks (known : NameSet) (changed : absorb terminals known g.productions.toList ≠ known) :
    (g.heads \ absorb terminals known g.productions.toList).size < (g.heads \ known).size := by
  obtain ⟨a, isNew, notOld⟩ := FiniteSet.exists_new_of_ne (fun _ => mem_absorb_of_mem) changed
  obtain old | ⟨p, isProduction, same⟩ := mem_absorb isNew
  · exact absurd old notOld
  · refine FiniteSet.size_diff_lt (fun _ => mem_absorb_of_mem) ?_ notOld isNew
    exact mem_heads.mpr ⟨p, Std.ExtTreeSet.mem_toList.mp isProduction, same⟩

/-- The sets that passes over all productions go through until a pass adds nothing. -/
def absorptions : NameSet → List NameSet :=
  trail (absorb terminals · g.productions.toList) (fun known => (g.heads \ known).size)
    (g.absorb_shrinks terminals)

/-- The set to which a pass over all productions adds nothing more. -/
def absorbed : NameSet → NameSet :=
  settle (absorb terminals · g.productions.toList) (fun known => (g.heads \ known).size)
    (g.absorb_shrinks terminals)

end Grammar

end ContextFree
