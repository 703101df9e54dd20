import ContextFree.Proofs.WellFormed
import ContextFree.Spec
import Mathlib.Data.List.Basic

namespace ContextFree

/-! ### What a description has to meet -/

/-- Something that is asked of a description. -/
inductive Demand where
  | terminal (name : Name)
  | nonterminal (name : Name)
  | start (name : Name)
  | head (name : Name)
  | symbol (lhs name : Name)

namespace Demand

def Met (spec : Spec) : Demand → Prop
  | terminal name => name ≠ ""
  | nonterminal name => name ≠ "" ∧ name ∉ spec.terminals
  | start name | head name => name ∈ spec.nonterminals
  | symbol _ name => name ∈ spec.nonterminals ∨ name ∈ spec.terminals

instance (spec : Spec) : DecidablePred (Met spec)
  | terminal _ => inferInstanceAs (Decidable (_ ≠ _))
  | nonterminal _ => inferInstanceAs (Decidable (_ ∧ _))
  | start _ | head _ => inferInstanceAs (Decidable (_ ∈ _))
  | symbol _ _ => inferInstanceAs (Decidable (_ ∨ _))

/-- Why a description is refused that does not meet the demand. -/
def fault : Demand → GrammarError
  | terminal _ => .emptyName
  | nonterminal name => if name = "" then .emptyName else .ambiguousSymbol name
  | start name => .undeclaredStart name
  | head name => .undeclaredNonterminal name
  | symbol lhs name => .undeclaredSymbol lhs name

def faults (spec : Spec) (demand : Demand) : List GrammarError :=
  if demand.Met spec then [] else [demand.fault]

end Demand

namespace Spec

/-- The demands of a rule: on its name, then on the names in its alternatives. -/
def ruleDemands (rule : Rule) : List Demand :=
  .head rule.name :: rule.choices.flatMap fun choice => choice.map (.symbol rule.name)

/-- All demands, in the order in which they are looked at. -/
def demands (spec : Spec) : List Demand :=
  spec.terminals.map .terminal ++ spec.nonterminals.map .nonterminal ++ [.start spec.start] ++
    spec.rules.flatMap ruleDemands

/-- Each name is declared before it counts, and it is declared for one purpose. -/
structure WellFormed (spec : Spec) : Prop where
  terminal_ne : ∀ t ∈ spec.terminals, t ≠ ""
  nonterminal_ne : ∀ a ∈ spec.nonterminals, a ≠ ""
  disjoint : ∀ a ∈ spec.nonterminals, a ∉ spec.terminals
  start : spec.start ∈ spec.nonterminals
  heads : ∀ rule ∈ spec.rules, rule.name ∈ spec.nonterminals
  symbols : ∀ rule ∈ spec.rules, ∀ choice ∈ rule.choices, ∀ name ∈ choice,
    name ∈ spec.nonterminals ∨ name ∈ spec.terminals

/-- An alternative is given for a name, in one of the rules for it. -/
def Offers (spec : Spec) (lhs : Name) (choice : List Name) : Prop :=
  ∃ rule ∈ spec.rules, rule.name = lhs ∧ choice ∈ rule.choices

/-- The grammar of a description, with or without faults. -/
def grammar (spec : Spec) : Grammar where
  nonterminals := .ofList spec.nonterminals
  terminals := .ofList spec.terminals
  productions := .ofList spec.productions
  start := spec.start

variable {spec : Spec}

theorem wellFormed_iff_demands : spec.WellFormed ↔ ∀ demand ∈ spec.demands, demand.Met spec := by
  simp only [demands, ruleDemands, List.forall_mem_append, List.forall_mem_map, List.forall_mem_singleton,
    List.forall_mem_flatMap, List.forall_mem_cons, Demand.Met]
  constructor
  · intro formed
    exact ⟨⟨⟨formed.terminal_ne, fun a declared => ⟨formed.nonterminal_ne a declared, formed.disjoint a declared⟩⟩,
      formed.start⟩, fun rule member => ⟨formed.heads rule member, formed.symbols rule member⟩⟩
  · intro met
    obtain ⟨⟨⟨terminals, nonterminals⟩, start⟩, rules⟩ := met
    exact {
      terminal_ne := terminals
      nonterminal_ne := fun a declared => (nonterminals a declared).1
      disjoint := fun a declared => (nonterminals a declared).2
      start := start
      heads := fun rule member => (rules rule member).1
      symbols := fun rule member => (rules rule member).2 }

theorem symbol?_eq_some_iff {name : Name} {s : Symbol} : spec.symbol? name = some s ↔
    (name ∈ spec.nonterminals ∧ s = .nonterminal name) ∨
      (name ∉ spec.nonterminals ∧ name ∈ spec.terminals ∧ s = .terminal name) := by
  unfold symbol?
  by_cases nonterminal : name ∈ spec.nonterminals
  · simp [nonterminal, eq_comm]
  · by_cases terminal : name ∈ spec.terminals <;> simp [nonterminal, terminal, eq_comm]

theorem symbol?_eq_none_iff {name : Name} :
    spec.symbol? name = none ↔ ¬ (name ∈ spec.nonterminals ∨ name ∈ spec.terminals) := by
  unfold symbol?
  by_cases nonterminal : name ∈ spec.nonterminals
  · simp [nonterminal]
  · by_cases terminal : name ∈ spec.terminals <;> simp [nonterminal, terminal]

theorem ruleFaults_eq (spec : Spec) (rule : Rule) :
    spec.ruleFaults rule = (ruleDemands rule).flatMap (Demand.faults spec) := by
  have symbols (names : List Name) : ((names.filter fun name => (spec.symbol? name).isNone).map
      fun name => GrammarError.undeclaredSymbol rule.name name) =
        names.flatMap fun name => Demand.faults spec (.symbol rule.name name) := by
    induction names with
    | nil => rfl
    | cons name rest ih =>
      rw [List.flatMap_cons, ← ih, Demand.faults]
      by_cases declared : Demand.Met spec (.symbol rule.name name)
      · have found : spec.symbol? name ≠ none := mt symbol?_eq_none_iff.mp (not_not_intro declared)
        rw [if_pos declared, List.filter_cons_of_neg (by simpa using found), List.nil_append]
      · have missing : spec.symbol? name = none := symbol?_eq_none_iff.mpr declared
        rw [if_neg declared, List.filter_cons_of_pos (by simp [missing])]
        rfl
  have head : (if spec.nonterminals.contains rule.name then [] else [GrammarError.undeclaredNonterminal rule.name]) =
      Demand.faults spec (.head rule.name) := if_congr List.contains_iff_mem rfl rfl
  rw [ruleFaults, symbols, head, ruleDemands, List.flatMap_cons, List.flatMap_assoc, ← List.flatMap_id,
    List.flatMap_assoc]
  simp only [List.flatMap_map, id]

theorem faults_eq (spec : Spec) : spec.faults = spec.demands.flatMap (Demand.faults spec) := by
  have terminals : (spec.terminals.filterMap fun name => if name = "" then some GrammarError.emptyName else none) =
      spec.terminals.flatMap fun name => Demand.faults spec (.terminal name) := by
    rw [List.filterMap_eq_flatMap_toList]
    refine List.flatMap_congr fun name _ => ?_
    by_cases empty : name = "" <;> simp [Demand.faults, Demand.Met, Demand.fault, empty]
  have nonterminals : (spec.nonterminals.filterMap fun name =>
      if name = "" then some GrammarError.emptyName
      else if spec.terminals.contains name then some (.ambiguousSymbol name)
      else none) = spec.nonterminals.flatMap fun name => Demand.faults spec (.nonterminal name) := by
    rw [List.filterMap_eq_flatMap_toList]
    refine List.flatMap_congr fun name _ => ?_
    by_cases empty : name = ""
    · simp [Demand.faults, Demand.Met, Demand.fault, empty]
    · by_cases ambiguous : name ∈ spec.terminals <;> simp [Demand.faults, Demand.Met, Demand.fault, empty, ambiguous]
  have start : (if spec.nonterminals.contains spec.start then [] else [GrammarError.undeclaredStart spec.start]) =
      Demand.faults spec (.start spec.start) := if_congr List.contains_iff_mem rfl rfl
  rw [faults, declarationFaults, terminals, nonterminals, start, demands, List.flatMap_append, List.flatMap_append,
    List.flatMap_append, List.flatMap_map, List.flatMap_map, List.flatMap_singleton, List.flatMap_assoc]
  exact congrArg _ (List.flatMap_congr fun rule _ => ruleFaults_eq spec rule)

/-- The first demand that is not met decides. -/
theorem raise_faults_eq_error_iff {demands : List Demand} {cause : GrammarError} :
    GrammarError.raise (demands.flatMap (Demand.faults spec)) = .error cause ↔ ∃ before demand after,
      demands = before ++ demand :: after ∧ (∀ earlier ∈ before, earlier.Met spec) ∧ ¬ demand.Met spec ∧
        cause = demand.fault := by
  induction demands with
  | nil => simp [GrammarError.raise]
  | cons demand rest ih =>
    rw [List.flatMap_cons, Demand.faults]
    by_cases met : demand.Met spec
    · rw [if_pos met, List.nil_append, ih]
      constructor
      · intro found
        obtain ⟨before, unmet, after, rfl, earlier, first⟩ := found
        exact ⟨demand :: before, unmet, after, rfl, List.forall_mem_cons.mpr ⟨met, earlier⟩, first⟩
      · intro found
        obtain ⟨before, unmet, after, split, earlier, first⟩ := found
        cases before with
        | nil =>
          obtain ⟨rfl, rfl⟩ := List.cons.inj split
          exact absurd met first.1
        | cons _ before =>
          obtain ⟨rfl, rfl⟩ := List.cons.inj split
          exact ⟨before, unmet, after, rfl, (List.forall_mem_cons.mp earlier).2, first⟩
    · rw [if_neg met]
      constructor
      · intro raised
        exact ⟨[], demand, rest, rfl, List.forall_mem_nil _, met, (Except.error.inj raised).symm⟩
      · intro found
        obtain ⟨before, unmet, after, split, earlier, _, same⟩ := found
        cases before with
        | nil =>
          obtain ⟨rfl, rfl⟩ := List.cons.inj split
          rw [same]
          rfl
        | cons _ before =>
          obtain ⟨rfl, rfl⟩ := List.cons.inj split
          exact absurd (earlier demand (.head _)) met

theorem faults_eq_nil_iff : spec.faults = [] ↔ spec.WellFormed := by
  rw [faults_eq, List.flatMap_eq_nil_iff, wellFormed_iff_demands]
  refine forall₂_congr fun demand _ => ?_
  by_cases met : demand.Met spec <;> simp [Demand.faults, met]

/-! ### The grammar of a well-formed description -/

theorem mem_productions {p : Production} :
    p ∈ spec.productions ↔ ∃ choice, spec.Offers p.lhs choice ∧ p.rhs = choice.filterMap spec.symbol? := by
  simp only [productions, List.mem_flatMap, List.mem_map, production, Offers]
  constructor
  · intro found
    obtain ⟨rule, member, choice, inRule, rfl⟩ := found
    exact ⟨choice, ⟨rule, member, rfl, inRule⟩, rfl⟩
  · intro found
    obtain ⟨choice, ⟨rule, member, same, inRule⟩, rhs⟩ := found
    exact ⟨rule, member, choice, inRule, by rw [same, ← rhs]⟩

theorem name_of_symbol? {name : Name} {s : Symbol} (found : spec.symbol? name = some s) : s.name = name := by
  rcases symbol?_eq_some_iff.mp found with ⟨_, rfl⟩ | ⟨_, _, rfl⟩ <;> rfl

namespace WellFormed

variable (formed : spec.WellFormed)
include formed

theorem symbol?_iff {s : Symbol} : spec.symbol? s.name = some s ↔ spec.grammar.declares s = true := by
  rw [symbol?_eq_some_iff]
  cases s with
  | terminal t =>
    simp only [Symbol.name, Grammar.declares, grammar, reduceCtorEq, and_false, false_or, and_true,
      Std.ExtTreeSet.contains_iff_mem, FiniteSet.mem_ofList_iff]
    exact and_iff_right_of_imp fun terminal nonterminal => formed.disjoint t nonterminal terminal
  | nonterminal a => simp [Symbol.name, Grammar.declares, grammar]

/-- An alternative is read symbol by symbol, and the names can be read off again. -/
theorem form_eq_iff {lhs : Name} {choice : List Name} (offered : spec.Offers lhs choice) {form : List Symbol} :
    form = choice.filterMap spec.symbol? ↔
      form.map Symbol.name = choice ∧ ∀ s ∈ form, spec.grammar.declares s = true := by
  obtain ⟨rule, member, _, inRule⟩ := offered
  have declared := formed.symbols rule member choice inRule
  clear inRule
  induction choice generalizing form with
  | nil =>
    constructor
    · rintro rfl
      exact ⟨rfl, List.forall_mem_nil _⟩
    · exact fun found => List.map_eq_nil_iff.mp found.1
  | cons name rest ih =>
    obtain ⟨first, later⟩ := List.forall_mem_cons.mp declared
    obtain ⟨s, found⟩ := Option.ne_none_iff_exists'.mp (mt symbol?_eq_none_iff.mp (not_not_intro first))
    have same := name_of_symbol? found
    rw [List.filterMap_cons_some found]
    constructor
    · rintro rfl
      obtain ⟨names, inside⟩ := (ih later).mp rfl
      refine ⟨by rw [List.map_cons, same, names], List.forall_mem_cons.mpr ⟨?_, inside⟩⟩
      rw [← formed.symbol?_iff, same, found]
    · intro found'
      obtain ⟨names, inside⟩ := found'
      cases form with
      | nil => cases names
      | cons other form =>
        obtain ⟨sameName, names⟩ := List.cons.inj names
        obtain ⟨known, inside⟩ := List.forall_mem_cons.mp inside
        rw [← formed.symbol?_iff, sameName, found] at known
        rw [Option.some.inj known, (ih later).mpr ⟨names, inside⟩]

theorem mem_grammar_iff {p : Production} : p ∈ spec.grammar.productions ↔
    spec.Offers p.lhs (p.rhs.map Symbol.name) ∧ ∀ s ∈ p.rhs, spec.grammar.declares s = true := by
  rw [grammar, FiniteSet.mem_ofList_iff, mem_productions]
  constructor
  · intro found
    obtain ⟨choice, offered, rhs⟩ := found
    obtain ⟨rfl, declared⟩ := (formed.form_eq_iff offered).mp rhs
    exact ⟨offered, declared⟩
  · intro found
    exact ⟨_, found.1, (formed.form_eq_iff found.1).mpr ⟨rfl, found.2⟩⟩

/-- Productions are told apart by the names in them. -/
theorem eq_of_mem_grammar {p q : Production} (first : p ∈ spec.grammar.productions)
    (second : q ∈ spec.grammar.productions) (lhs : p.lhs = q.lhs)
    (names : p.rhs.map Symbol.name = q.rhs.map Symbol.name) : p = q := by
  obtain ⟨offered, declared⟩ := formed.mem_grammar_iff.mp first
  obtain ⟨_, other⟩ := formed.mem_grammar_iff.mp second
  have here := (formed.form_eq_iff offered).mpr ⟨rfl, declared⟩
  have there := (formed.form_eq_iff offered).mpr ⟨names.symm, other⟩
  exact congrArg₂ Production.mk lhs (here.trans there.symm)

theorem grammar_wellFormed : spec.grammar.WellFormed := by
  have declared {p : Production} (stored : p ∈ spec.grammar.productions) := (formed.mem_grammar_iff.mp stored).2
  have known {a : Name} : a ∈ spec.grammar.nonterminals ↔ a ∈ spec.nonterminals := FiniteSet.mem_ofList_iff
  have letter {t : Name} : t ∈ spec.grammar.terminals ↔ t ∈ spec.terminals := FiniteSet.mem_ofList_iff
  exact {
    start := known.mpr formed.start
    heads := fun p stored => by
      obtain ⟨rule, member, same, _⟩ := (formed.mem_grammar_iff.mp stored).1
      exact known.mpr (same ▸ formed.heads rule member)
    mentioned := fun p stored a member => by simpa [Grammar.declares] using declared stored _ member
    letters := fun p stored t member => by simpa [Grammar.declares] using declared stored _ member
    disjoint := fun t terminal nonterminal => formed.disjoint t (known.mp nonterminal) (letter.mp terminal)
    terminal_ne := fun t terminal => formed.terminal_ne t (letter.mp terminal)
    nonterminal_ne := fun a nonterminal => formed.nonterminal_ne a (known.mp nonterminal) }

end WellFormed

/-- After the faults of the description there is nothing left for the check to find. -/
theorem build_eq (spec : Spec) : spec.build = (GrammarError.raise spec.faults >>= fun _ => .ok spec.grammar) := by
  have unfolded : spec.build =
      (GrammarError.raise spec.faults >>= fun _ => spec.grammar.check >>= fun _ => .ok spec.grammar) := rfl
  rw [unfolded]
  cases clean : spec.faults with
  | nil =>
    rw [Grammar.check_eq_ok_iff.mpr (faults_eq_nil_iff.mp clean).grammar_wellFormed]
    rfl
  | cons first rest => rfl

theorem build_eq_ok_iff {g : Grammar} : spec.build = .ok g ↔ spec.WellFormed ∧ g = spec.grammar := by
  rw [build_eq, bind_eq_ok_iff]
  constructor
  · intro found
    obtain ⟨_, clean, same⟩ := found
    exact ⟨faults_eq_nil_iff.mp (Grammar.raise_eq_ok_iff.mp clean), (Except.ok.inj same).symm⟩
  · intro found
    obtain ⟨formed, rfl⟩ := found
    exact ⟨(), Grammar.raise_eq_ok_iff.mpr (faults_eq_nil_iff.mpr formed), rfl⟩

theorem build_eq_error_iff {cause : GrammarError} : spec.build = .error cause ↔ ∃ before demand after,
    spec.demands = before ++ demand :: after ∧ (∀ earlier ∈ before, earlier.Met spec) ∧ ¬ demand.Met spec ∧
      cause = demand.fault := by
  rw [build_eq, bind_ok_eq_error_iff, faults_eq, raise_faults_eq_error_iff]

end Spec

end ContextFree
