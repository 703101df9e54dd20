import ContextFree.Proofs.Assertion
import ContextFree.Proofs.Description
import Std.Data.HashMap

namespace ContextFree

/-! ### Building by way of a symbol table -/

/-- What each name stands for. -/
abbrev SymbolTable := Std.HashMap Name Symbol

/-- A way to list the entries of tables, in any order. -/
structure Enumeration where
  entries : SymbolTable → List (Name × Symbol)
  complete : ∀ table, (entries table).Perm table.toList

def Grammar.declare (g : Grammar) : Symbol → Grammar
  | .terminal t => g.declareTerminal t
  | .nonterminal a => g.declareNonterminal a

-- `Spec.build` as it goes about it: names are entered one by one, a later entry in place of an earlier one,
-- and everything else is looked up. Each loop ends at the first violation that it meets.
namespace Tabled

def enterTerminal (table : SymbolTable) (name : Name) : Except Interruption SymbolTable :=
  if name = "" then .error (.refused .emptyName) else .ok (table.insert name (.terminal name))

def enterNonterminal (table : SymbolTable) (name : Name) : Except Interruption SymbolTable :=
  if name = "" then .error (.refused .emptyName)
  else match table[name]? with
    | some (.terminal _) => .error (.refused (.ambiguousSymbol name))
    | _ => .ok (table.insert name (.nonterminal name))

def nonterminal (table : SymbolTable) (name : Name) (cause : GrammarError) : Except Interruption Name :=
  match table[name]? with
  | some (.nonterminal a) => .ok a
  | _ => .error (.refused cause)

def symbol (table : SymbolTable) (lhs name : Name) : Except Interruption Symbol :=
  match table[name]? with
  | some s => .ok s
  | none => .error (.refused (.undeclaredSymbol lhs name))

def addRule (table : SymbolTable) (g : Grammar) (rule : Rule) : Except Interruption Grammar := do
  let lhs ← nonterminal table rule.name (.undeclaredNonterminal rule.name)
  rule.choices.foldlM (fun out choice => do
    let rhs ← choice.mapM (symbol table rule.name)
    out.assertAdd ⟨lhs, rhs⟩) g

/-- The grammar as it is before the check. -/
def assemble (order : Enumeration) (spec : Spec) : Except Interruption Grammar := do
  let terminals ← spec.terminals.foldlM enterTerminal ∅
  let table ← spec.nonterminals.foldlM enterNonterminal terminals
  let start ← nonterminal table spec.start (.undeclaredStart spec.start)
  let symbols := (order.entries table).map Prod.snd
  spec.rules.foldlM (addRule table) (symbols.foldl Grammar.declare (.ofStart start))

def build (order : Enumeration) (spec : Spec) : Except Interruption Grammar := do
  let g ← assemble order spec
  refuse g.check
  return g

end Tabled

/-! ### The loops -/

/-- An answer that is given if there is no fault. -/
def guarded {β : Type} (faults : List GrammarError) (answer : β) : Except Interruption β :=
  refuse (GrammarError.raise faults) >>= fun _ => .ok answer

@[simp] theorem guarded_nil {β : Type} (answer : β) : guarded [] answer = .ok answer := rfl

theorem guarded_bind {β γ : Type} (faults later : List GrammarError) {answer : β} {next : β → Except Interruption γ}
    {result : γ} (same : faults = [] → next answer = guarded later result) :
    (guarded faults answer >>= next) = guarded (faults ++ later) result := by
  cases faults with
  | nil => exact same rfl
  | cons first rest => rfl

theorem guarded_bind_ok {β γ : Type} (faults : List GrammarError) {answer : β} {next : β → Except Interruption γ}
    {result : γ} (same : faults = [] → next answer = .ok result) :
    (guarded faults answer >>= next) = guarded faults result := by
  rw [guarded_bind faults [] same, List.append_nil]

theorem guarded_congr {β : Type} {faults : List GrammarError} {answer other : β}
    (same : faults = [] → answer = other) : guarded faults answer = guarded faults other := by
  cases faults with
  | nil => rw [same rfl]
  | cons first rest => rfl

/-- A loop whose steps look for faults looks for all of them, in order. What holds while there is none may be
used for the next step. -/
theorem foldlM_guarded {α β : Type} {step : β → α → Except Interruption β} (faults : α → List GrammarError)
    (run : β → α → β) (safe : β → Prop) {xs : List α}
    (steps : ∀ x ∈ xs, ∀ b, safe b → step b x = guarded (faults x) (run b x) ∧ (faults x = [] → safe (run b x)))
    {b : β} (initial : safe b) : xs.foldlM step b = guarded (xs.flatMap faults) (xs.foldl run b) := by
  induction xs generalizing b with
  | nil => rfl
  | cons x rest ih =>
    obtain ⟨same, next⟩ := steps x (.head _) b initial
    rw [List.foldlM_cons, same, List.flatMap_cons, List.foldl_cons]
    exact guarded_bind _ _ fun clean => ih (fun y later => steps y (.tail _ later)) (next clean)

namespace Tabled

open Demand

variable {spec : Spec} {table : SymbolTable}

/-- The table that the two loops make. -/
def entered (spec : Spec) : SymbolTable :=
  spec.nonterminals.foldl (fun table name => table.insert name (.nonterminal name))
    (spec.terminals.foldl (fun table name => table.insert name (.terminal name)) ∅)

theorem getElem?_foldl_insert (names : List Name) (kind : Name → Symbol) (table : SymbolTable) (name : Name) :
    (names.foldl (fun table name => table.insert name (kind name)) table)[name]? =
      if name ∈ names then some (kind name) else table[name]? := by
  induction names generalizing table with
  | nil => simp
  | cons first rest ih =>
    rw [List.foldl_cons, ih, Std.HashMap.getElem?_insert]
    by_cases later : name ∈ rest
    · rw [if_pos later, if_pos (.tail _ later)]
    · by_cases same : first = name
      · subst same
        rw [if_neg later, if_pos (beq_self_eq_true first), if_pos (.head _)]
      · rw [if_neg later, if_neg (by simpa using same), if_neg (by simp [later, Ne.symm same])]

/-- A name that is declared for both purposes is a nonterminal, since that was entered last. -/
theorem getElem?_entered (name : Name) : (entered spec)[name]? = spec.symbol? name := by
  rw [entered, getElem?_foldl_insert, getElem?_foldl_insert, Std.HashMap.getElem?_empty, Spec.symbol?]
  simp only [List.contains_iff_mem]

theorem enterTerminal_eq (spec : Spec) (table : SymbolTable) (name : Name) :
    enterTerminal table name = guarded (faults spec (.terminal name)) (table.insert name (.terminal name)) := by
  unfold enterTerminal faults
  by_cases empty : name = ""
  · rw [if_pos empty, if_neg (show ¬ Met spec (.terminal name) from not_not_intro empty)]
    rfl
  · rw [if_neg empty, if_pos (show Met spec (.terminal name) from empty)]
    rfl

theorem enterNonterminal_eq {name : Name} (known : ∀ a, (∃ t, table[a]? = some (.terminal t)) ↔ a ∈ spec.terminals) :
    enterNonterminal table name =
      guarded (faults spec (.nonterminal name)) (table.insert name (.nonterminal name)) := by
  unfold enterNonterminal faults
  by_cases empty : name = ""
  · rw [if_pos empty, if_neg (show ¬ Met spec (.nonterminal name) from fun met => met.1 empty), fault, if_pos empty]
    rfl
  · rw [if_neg empty, fault, if_neg empty]
    by_cases ambiguous : name ∈ spec.terminals
    · obtain ⟨t, found⟩ := (known name).mpr ambiguous
      rw [found, if_neg (show ¬ Met spec (.nonterminal name) from fun met => met.2 ambiguous)]
      rfl
    · rw [if_pos (show Met spec (.nonterminal name) from ⟨empty, ambiguous⟩), guarded_nil]
      split
      · next t found => exact absurd ((known name).mp ⟨t, found⟩) ambiguous
      · rfl

/-- Which names are terminals does not change while nonterminals are entered. -/
theorem foldlM_enter (spec : Spec) :
    (spec.terminals.foldlM enterTerminal ∅ >>= fun terminals => spec.nonterminals.foldlM enterNonterminal terminals) =
      guarded ((spec.terminals.flatMap fun name => faults spec (.terminal name)) ++
        spec.nonterminals.flatMap fun name => faults spec (.nonterminal name)) (entered spec) := by
  rw [foldlM_guarded _ _ (fun _ => True)
    (fun name _ table _ => ⟨enterTerminal_eq spec table name, fun _ => trivial⟩) trivial]
  refine guarded_bind _ _ fun _ => ?_
  refine foldlM_guarded (fun name => faults spec (.nonterminal name))
    (fun (table : SymbolTable) name => table.insert name (.nonterminal name))
    (fun table => ∀ a, (∃ t, table[a]? = some (.terminal t)) ↔ a ∈ spec.terminals)
    (fun name _ table known => ⟨enterNonterminal_eq known, fun clean a => ?_⟩) fun a => ?_
  · have met : Met spec (.nonterminal name) := by simpa [faults] using clean
    rw [Std.HashMap.getElem?_insert]
    by_cases same : name = a
    · subst same
      simp [met.2]
    · rw [if_neg (by simpa using same), known]
  · rw [getElem?_foldl_insert, Std.HashMap.getElem?_empty]
    by_cases terminal : a ∈ spec.terminals <;> simp [terminal]

theorem nonterminal_eq (spec : Spec) (name : Name) (cause : GrammarError) : nonterminal (entered spec) name cause =
    guarded (if name ∈ spec.nonterminals then [] else [cause]) name := by
  rw [nonterminal, getElem?_entered]
  by_cases declared : name ∈ spec.nonterminals
  · rw [Spec.symbol?_eq_some_iff.mpr (.inl ⟨declared, rfl⟩), if_pos declared]
    rfl
  · rw [if_neg declared]
    split
    · next a found =>
      rcases Spec.symbol?_eq_some_iff.mp found with ⟨here, _⟩ | ⟨_, _, same⟩
      · exact absurd here declared
      · cases same
    · rfl

theorem mapM_symbol (spec : Spec) (lhs : Name) (choice : List Name) : choice.mapM (symbol (entered spec) lhs) =
    guarded ((choice.map (Demand.symbol lhs)).flatMap (faults spec)) (choice.filterMap spec.symbol?) := by
  induction choice with
  | nil => rfl
  | cons name rest ih =>
    rw [List.mapM_cons, ih, List.map_cons, List.flatMap_cons, symbol, getElem?_entered, faults]
    cases found : spec.symbol? name with
    | some s =>
      have met : Met spec (.symbol lhs name) := by
        by_contra missing
        cases found.symm.trans (Spec.symbol?_eq_none_iff.mpr missing)
      rw [if_pos met, List.filterMap_cons_some found]
      exact guarded_bind_ok _ fun _ => rfl
    | none =>
      rw [if_neg (show ¬ Met spec (.symbol lhs name) from Spec.symbol?_eq_none_iff.mp found)]
      rfl

theorem addRule_eq {g : Grammar} {rule : Rule} (declared : ∀ a ∈ spec.nonterminals, a ∈ g.nonterminals) :
    addRule (entered spec) g rule = guarded ((Spec.ruleDemands rule).flatMap (faults spec))
      (g.insertAll (rule.choices.map (spec.production rule.name))) := by
  rw [addRule, nonterminal_eq, Spec.ruleDemands, List.flatMap_cons]
  refine guarded_bind _ _ fun clean => ?_
  have known : rule.name ∈ spec.nonterminals := by simpa using clean
  rw [List.flatMap_assoc, Grammar.insertAll_eq_foldl, List.foldl_map]
  refine foldlM_guarded (fun choice : List Name => (choice.map (Demand.symbol rule.name)).flatMap (faults spec))
    (fun (out : Grammar) choice => out.insert (spec.production rule.name choice)) (rule.name ∈ ·.nonterminals)
    (fun choice _ out inOut => ⟨?_, fun _ => inOut⟩) (declared _ known)
  rw [mapM_symbol]
  exact guarded_bind_ok _ fun _ => Grammar.assertAdd_of_mem inOut

theorem foldl_insertAll {α : Type} (g : Grammar) (productions : α → List Production) (xs : List α) :
    xs.foldl (fun out x => out.insertAll (productions x)) g = g.insertAll (xs.flatMap productions) := by
  induction xs generalizing g with
  | nil => rfl
  | cons x rest ih => rw [List.foldl_cons, ih, List.flatMap_cons, Grammar.insertAll_append]

theorem declares_foldl_declare (g : Grammar) (symbols : List Symbol) {s : Symbol} :
    (symbols.foldl Grammar.declare g).declares s = true ↔ g.declares s = true ∨ s ∈ symbols := by
  induction symbols generalizing g with
  | nil => simp
  | cons first rest ih =>
    have one : (g.declare first).declares s = true ↔ g.declares s = true ∨ s = first := by
      cases first <;> cases s <;>
        simp only [Grammar.declare, Grammar.declares, Grammar.declareTerminal, Grammar.declareNonterminal,
          Std.ExtTreeSet.contains_iff_mem, FiniteSet.mem_insert_iff, Symbol.terminal.injEq, Symbol.nonterminal.injEq,
          reduceCtorEq, false_or, or_comm]
    rw [List.foldl_cons, ih, one, List.mem_cons, or_assoc]

theorem foldl_declare_productions (g : Grammar) (symbols : List Symbol) :
    (symbols.foldl Grammar.declare g).productions = g.productions ∧
      (symbols.foldl Grammar.declare g).start = g.start := by
  induction symbols generalizing g with
  | nil => exact ⟨rfl, rfl⟩
  | cons s rest ih => cases s <;> exact ih _

/-- The entries are the declared symbols, whatever the order. -/
theorem mem_entries_iff (order : Enumeration) (spec : Spec) {s : Symbol} :
    s ∈ (order.entries (entered spec)).map Prod.snd ↔ spec.symbol? s.name = some s := by
  simp only [List.mem_map, Prod.exists, exists_eq_right, (order.complete _).mem_iff,
    Std.HashMap.mem_toList_iff_getElem?_eq_some, getElem?_entered]
  constructor
  · rintro ⟨name, found⟩
    rwa [Spec.name_of_symbol? found]
  · exact fun found => ⟨s.name, found⟩

theorem foldl_declare_insertAll (formed : spec.WellFormed) (order : Enumeration) :
    (((order.entries (entered spec)).map Prod.snd).foldl Grammar.declare (.ofStart spec.start)).insertAll
      spec.productions = spec.grammar := by
  have declares (s : Symbol) : (((order.entries (entered spec)).map Prod.snd).foldl Grammar.declare
      (.ofStart spec.start)).declares s = true ↔ spec.grammar.declares s = true := by
    rw [declares_foldl_declare, mem_entries_iff, formed.symbol?_iff]
    refine or_iff_right_of_imp fun atStart => ?_
    cases s with
    | terminal t => simp [Grammar.declares, Grammar.ofStart] at atStart
    | nonterminal a =>
      obtain rfl : spec.start = a := by simpa [Grammar.declares, Grammar.ofStart] using atStart
      simpa [Grammar.declares, Spec.grammar] using formed.start
  obtain ⟨empty, start⟩ :=
    foldl_declare_productions (.ofStart spec.start) ((order.entries (entered spec)).map Prod.snd)
  generalize ((order.entries (entered spec)).map Prod.snd).foldl Grammar.declare (.ofStart spec.start) = out at *
  refine Grammar.ext_mem (fun a => ?_) (fun t => ?_) (fun p => ?_) start
  · simpa [Grammar.declares, Grammar.insertAll] using declares (.nonterminal a)
  · simpa [Grammar.declares, Grammar.insertAll] using declares (.terminal t)
  · simp [empty, Grammar.ofStart, Spec.grammar]

theorem assemble_eq (order : Enumeration) (spec : Spec) : assemble order spec = guarded spec.faults spec.grammar := by
  have lookups : assemble order spec = ((spec.terminals.foldlM enterTerminal ∅ >>= fun terminals =>
      spec.nonterminals.foldlM enterNonterminal terminals) >>= fun table =>
        nonterminal table spec.start (.undeclaredStart spec.start) >>= fun start =>
          spec.rules.foldlM (addRule table)
            (((order.entries table).map Prod.snd).foldl Grammar.declare (.ofStart start))) := by
    rw [bind_assoc]
    rfl
  refine Eq.trans ?_ (guarded_congr fun clean => foldl_declare_insertAll (Spec.faults_eq_nil_iff.mp clean) order)
  rw [lookups, foldlM_enter, Spec.faults_eq, Spec.demands, List.flatMap_append, List.flatMap_append,
    List.flatMap_append, List.flatMap_map, List.flatMap_map, List.flatMap_singleton, List.append_assoc]
  refine guarded_bind _ _ fun _ => ?_
  rw [nonterminal_eq]
  refine guarded_bind _ _ fun _ => ?_
  rw [List.flatMap_assoc, Spec.productions, ← foldl_insertAll]
  refine foldlM_guarded (fun rule : Rule => (Spec.ruleDemands rule).flatMap (faults spec))
    (fun (out : Grammar) rule => out.insertAll (rule.choices.map (spec.production rule.name)))
    (fun out => ∀ a ∈ spec.nonterminals, a ∈ out.nonterminals)
    (fun rule _ out declared => ⟨addRule_eq declared, fun _ => declared⟩) fun a declared => ?_
  have found : spec.symbol? (Symbol.nonterminal a).name = some (.nonterminal a) :=
    Spec.symbol?_eq_some_iff.mpr (.inl ⟨declared, rfl⟩)
  have entry := (mem_entries_iff order spec).mpr found
  simpa [Grammar.declares] using (declares_foldl_declare (.ofStart spec.start) _).mpr (.inr entry)

/-- The check finds nothing that the loops have not found. -/
theorem build_eq_assemble (order : Enumeration) (spec : Spec) : build order spec = assemble order spec := by
  rw [build, assemble_eq]
  refine guarded_bind_ok _ fun clean => ?_
  rw [Grammar.check_eq_ok_iff.mpr (Spec.faults_eq_nil_iff.mp clean).grammar_wellFormed]
  rfl

theorem build_eq_refuse (order : Enumeration) (spec : Spec) : build order spec = refuse spec.build := by
  rw [build_eq_assemble, assemble_eq, guarded, Spec.build_eq]
  cases GrammarError.raise spec.faults <;> rfl

end Tabled

/-- Exactly the well-formed descriptions are built. Of the order in which the table is listed nothing is left
in the result, and of a description only what it declares and offers. The first demand that is not met gives
the cause of a refusal, and the check at the end gives none. -/
theorem Spec.build_exact :
    (∀ (order : Enumeration) (spec : Spec),
      Tabled.build order spec = Tabled.assemble order spec ∧ Tabled.build order spec = refuse spec.build) ∧
    (∀ spec : Spec, (∃ g, spec.build = .ok g) ↔ spec.WellFormed) ∧
    (∀ (spec : Spec) (g : Grammar), spec.build = .ok g →
      (∀ a, a ∈ g.nonterminals ↔ a ∈ spec.nonterminals) ∧ (∀ t, t ∈ g.terminals ↔ t ∈ spec.terminals) ∧
        g.start = spec.start ∧
        (∀ p, p ∈ g.productions ↔
          spec.Offers p.lhs (p.rhs.map Symbol.name) ∧ ∀ s ∈ p.rhs, g.declares s = true) ∧
        (∀ lhs choice, spec.Offers lhs choice →
          ∃! p, p ∈ g.productions ∧ p.lhs = lhs ∧ p.rhs.map Symbol.name = choice) ∧
        g.check = .ok ()) ∧
    (∀ (order another : Enumeration) (spec other : Spec), spec.WellFormed → other.WellFormed →
      spec.start = other.start → (∀ a, a ∈ spec.nonterminals ↔ a ∈ other.nonterminals) →
      (∀ t, t ∈ spec.terminals ↔ t ∈ other.terminals) →
      (∀ lhs choice, spec.Offers lhs choice ↔ other.Offers lhs choice) →
        ∃ g, Tabled.build order spec = .ok g ∧ Tabled.build another other = .ok g) ∧
    ∀ (spec : Spec) (cause : GrammarError), spec.build = .error cause ↔ ∃ before demand after,
      spec.demands = before ++ demand :: after ∧ (∀ earlier ∈ before, earlier.Met spec) ∧ ¬ demand.Met spec ∧
        cause = demand.fault := by
  refine ⟨fun order spec => ⟨Tabled.build_eq_assemble order spec, Tabled.build_eq_refuse order spec⟩, fun spec => ?_,
    fun spec g ran => ?_, ?_, fun spec cause => build_eq_error_iff⟩
  · simp [build_eq_ok_iff]
  · obtain ⟨formed, rfl⟩ := build_eq_ok_iff.mp ran
    refine ⟨fun _ => FiniteSet.mem_ofList_iff, fun _ => FiniteSet.mem_ofList_iff, rfl,
      fun _ => formed.mem_grammar_iff, fun lhs choice offered => ?_,
      Grammar.check_eq_ok_iff.mpr formed.grammar_wellFormed⟩
    obtain ⟨names, declared⟩ := (formed.form_eq_iff offered).mp rfl
    have made : ⟨lhs, choice.filterMap spec.symbol?⟩ ∈ spec.grammar.productions :=
      formed.mem_grammar_iff.mpr ⟨by rwa [names], declared⟩
    refine ⟨_, ⟨made, rfl, names⟩, fun p found => ?_⟩
    exact formed.eq_of_mem_grammar found.1 made found.2.1 (found.2.2.trans names.symm)
  · intro order another spec other formed otherFormed start nonterminals terminals offers
    have declares (s : Symbol) : spec.grammar.declares s = other.grammar.declares s := by
      rw [Bool.eq_iff_iff]
      cases s <;> simp [Grammar.declares, grammar, nonterminals, terminals]
    have same : spec.grammar = other.grammar := by
      refine Grammar.ext_mem (fun a => ?_) (fun t => ?_) (fun p => ?_) start
      · simpa [grammar] using nonterminals a
      · simpa [grammar] using terminals t
      · simp only [formed.mem_grammar_iff, otherFormed.mem_grammar_iff, offers, declares]
    refine ⟨spec.grammar, ?_, ?_⟩
    · rw [Tabled.build_eq_refuse, build_eq_ok_iff.mpr ⟨formed, rfl⟩, refuse_ok]
    · rw [Tabled.build_eq_refuse, build_eq_ok_iff.mpr ⟨otherFormed, same⟩, refuse_ok]

/-- Declarations and alternatives repeated and apart from each other. -/
def dispersed : Spec :=
  ⟨["S", "A", "S"], ["a", "a"], "S", [⟨"S", [["A", "a"], []]⟩, ⟨"A", [["a"]]⟩, ⟨"S", [["A", "a"]]⟩]⟩

def collected : Spec :=
  ⟨["A", "S"], ["a"], "S", [⟨"A", [["a"], ["a"]]⟩, ⟨"S", [[], ["A", "a"]]⟩]⟩

/-- A terminal as start symbol is a fault before that of the rule. -/
def startless : Spec :=
  ⟨["S"], ["a"], "a", [⟨"A", []⟩]⟩

def Enumeration.forward : Enumeration :=
  ⟨Std.HashMap.toList, fun _ => .refl _⟩

def Enumeration.backward : Enumeration :=
  ⟨fun table => table.toList.reverse, fun _ => List.reverse_perm _⟩

theorem dispersed_build : (∃ g, Tabled.build .forward dispersed = .ok g ∧ Tabled.build .backward collected = .ok g) ∧
    startless.build = .error (.undeclaredStart "a") := by
  obtain ⟨_, _, _, order, refuses⟩ := Spec.build_exact
  have formed : dispersed.WellFormed := Spec.wellFormed_iff_demands.mpr (by decide)
  have otherFormed : collected.WellFormed := Spec.wellFormed_iff_demands.mpr (by decide)
  refine ⟨order .forward .backward dispersed collected formed otherFormed rfl ?_ ?_ ?_, (refuses startless _).mpr ?_⟩
  · simp [dispersed, collected, or_comm]
  · simp [dispersed, collected]
  · intro lhs choice
    simp [Spec.Offers, dispersed, collected]
    tauto
  · exact ⟨[.terminal "a", .nonterminal "S"], .start "a", [.head "A"], rfl, by decide, by decide, rfl⟩

end ContextFree
