import ContextFree.Proofs.Stages
import ContextFree.Proofs.Usefulness

namespace ContextFree

/-- A name of its own for a terminal: the stem and the terminal, with a number after them if need be. -/
def NamesTerminal (stem : String) (terminal : Name) (a : Name) : Prop :=
  a = stem ++ terminal ∨ ∃ n, a = NameSupply.numbered (stem ++ terminal) n

namespace Isolation

variable {stem : String} {isolation : Isolation}

theorem supply_assign (stem : String) (isolation : Isolation) (t : Name) :
    (assign stem isolation t).supply.stem = isolation.supply.stem := by
  unfold assign NameSupply.mintNamed
  split
  · rfl
  · dsimp only
    split <;> rfl

theorem supply_foldl (stem : String) (isolation : Isolation) (terminals : List Name) :
    (terminals.foldl (assign stem) isolation).supply.stem = isolation.supply.stem := by
  induction terminals generalizing isolation with
  | nil => rfl
  | cons t rest ih => rw [List.foldl_cons, ih, supply_assign]

theorem namesTerminal_mintNamed (supply : NameSupply) (g : Grammar) (stem : String) (t : Name) :
    NamesTerminal stem t (supply.mintNamed g (stem ++ t)).name := by
  unfold NameSupply.mintNamed
  split
  · exact .inr ⟨_, rfl⟩
  · exact .inl rfl

theorem namesTerminal_assign (old : ∀ entry ∈ isolation.assigned, NamesTerminal stem entry.1 entry.2) (t : Name) :
    ∀ entry ∈ (assign stem isolation t).assigned, NamesTerminal stem entry.1 entry.2 := by
  unfold assign
  split
  · exact old
  · refine List.forall_mem_append.mpr ⟨old, List.forall_mem_singleton.mpr ?_⟩
    exact namesTerminal_mintNamed isolation.supply isolation.grammar stem t

theorem namesTerminal_foldl (old : ∀ entry ∈ isolation.assigned, NamesTerminal stem entry.1 entry.2)
    (terminals : List Name) :
    ∀ entry ∈ (terminals.foldl (assign stem) isolation).assigned, NamesTerminal stem entry.1 entry.2 := by
  induction terminals generalizing isolation with
  | nil => exact old
  | cons t rest ih => exact ih (namesTerminal_assign old t)

end Isolation

namespace Binarization

/-- The nonterminals that were added have names from the supply, which keeps its stem. -/
structure Numbers (before after : Binarization) : Prop where
  stem : after.supply.stem = before.supply.stem
  nonterminals : ∀ a ∈ after.grammar.nonterminals,
    a ∈ before.grammar.nonterminals ∨ ∃ n, a = NameSupply.numbered before.supply.stem n

theorem Numbers.refl (split : Binarization) : Numbers split split :=
  ⟨rfl, fun _ => .inl⟩

theorem Numbers.trans {first second third : Binarization} (left : Numbers first second) (right : Numbers second third) :
    Numbers first third := by
  refine ⟨right.stem.trans left.stem, fun a member => ?_⟩
  rcases right.nonterminals a member with old | ⟨n, rfl⟩
  · exact left.nonterminals a old
  · exact .inr ⟨n, by rw [left.stem]⟩

theorem numbers_shorten (split : Binarization) (rhs : List Symbol) : Numbers split (split.shorten rhs).1 := by
  fun_induction shorten split rhs with
  | case1 s t u rest after pair ran fresh ih =>
    rw [ran] at ih
    refine ih.trans ⟨rfl, fun a member => ?_⟩
    rcases FiniteSet.mem_insert_iff.mp member with rfl | old
    · exact .inr ⟨_, rfl⟩
    · exact .inl old
  | case2 => exact .refl _

theorem numbers_foldl (split : Binarization) (productions : List Production) :
    Numbers split (productions.foldl Binarization.add split) := by
  induction productions generalizing split with
  | nil => exact .refl split
  | cons p rest ih =>
    obtain ⟨stem, nonterminals⟩ := numbers_shorten split p.rhs
    have added : Numbers split (split.add p) := ⟨stem, nonterminals⟩
    exact added.trans (ih (split.add p))

end Binarization

namespace Passes.Ran

variable {g : Grammar} {options : Options} {passes : Passes} (ran : passes.Ran g options) (formed : g.WellFormed)
include ran formed

theorem mem_of_mem_useful_terminals : ∀ t ∈ passes.useful.terminals, t ∈ g.terminals := by
  rw [← ran.unitFree_terminals, ran.useful]
  exact (ran.unitFree_wellFormed formed).terminals_withoutUseless

theorem mem_of_mem_useful_nonterminals : ∀ a ∈ passes.useful.nonterminals, a ∈ g.nonterminals := by
  rw [← ran.unitFree_nonterminals, ran.useful]
  exact (ran.unitFree_wellFormed formed).nonterminals_withoutUseless

/-- Isolation adds only names for terminals. -/
theorem isolation_nonterminals {a : Name} (member : a ∈ passes.isolation.grammar.nonterminals) :
    a ∈ passes.useful.nonterminals ∨ ∃ t ∈ passes.useful.terminals, NamesTerminal options.terminalPrefix t a := by
  have named := Grammar.isolateTerminals_named passes.useful (.ofStem options.freshPrefix) options.terminalPrefix
  rw [ran.isolation, named.nonterminals] at member
  refine member.imp_right fun isNew => ?_
  obtain ⟨⟨t, b⟩, assigned, rfl⟩ := List.mem_map.mp isNew
  obtain ⟨q, stored, _, inside⟩ := Grammar.mem_innerTerminals.mp ((named.keys t).mp (List.mem_map_of_mem assigned))
  refine ⟨t, (ran.useful_wellFormed formed).letters q stored t inside, ?_⟩
  exact Isolation.namesTerminal_foldl (List.forall_mem_nil _) passes.useful.innerTerminals _ assigned

omit formed in
/-- Binarization adds only numbered names. -/
theorem binarization_nonterminals {a : Name} (member : a ∈ passes.binarization.grammar.nonterminals) :
    a ∈ passes.isolation.grammar.nonterminals ∨ ∃ n, a = NameSupply.numbered options.freshPrefix n := by
  have stem : passes.isolation.supply.stem = options.freshPrefix := by
    rw [ran.isolation]
    exact Isolation.supply_foldl _ _ _
  have numbers := Binarization.numbers_foldl ⟨passes.isolation.grammar.withoutProductions, passes.isolation.supply, []⟩
    passes.isolation.grammar.productions.toList
  rw [← stem]
  rw [ran.binarization] at member
  exact numbers.nonterminals a member

end Passes.Ran

/-- A converted grammar has no names but the old ones, those that stand for terminals and numbered ones. -/
theorem Grammar.names_of_convert {g : Grammar} {options : Options} {c : Conversion}
    (converted : g.convert options = .ok c) {a : Name} (used : c.grammar.usesName a = true) :
    g.usesName a = true ∨ (∃ t ∈ g.terminals, NamesTerminal options.terminalPrefix t a) ∨
      ∃ n, a = NameSupply.numbered options.freshPrefix n := by
  obtain ⟨formed, passes, result, same, _⟩ := convert_eq_ok converted
  have ran := ran_of_runPasses result
  have letters := ran.mem_of_mem_useful_terminals formed
  simp only [usesName, same, Bool.or_eq_true, Std.ExtTreeSet.contains_iff_mem] at used ⊢
  rcases used with terminal | nonterminal
  · rw [ran.binarization_terminals formed] at terminal
    exact .inl (.inl (letters a terminal))
  · rcases ran.binarization_nonterminals nonterminal with old | numbered
    · rcases ran.isolation_nonterminals formed old with useful | ⟨t, member, named⟩
      · exact .inl (.inr (ran.mem_of_mem_useful_nonterminals formed a useful))
      · exact .inr (.inl ⟨t, letters t member, named⟩)
    · exact .inr (.inr numbered)

end ContextFree
