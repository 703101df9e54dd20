import ContextFree.Proofs.UnitRows
import Mathlib.Data.List.Dedup

namespace ContextFree

open Std

/-! ### The order of productions -/

/-- Terminals stand before nonterminals, and symbols of one kind stand by their names. -/
def Symbol.Before : Symbol → Symbol → Prop
  | terminal t, terminal u => t < u
  | terminal _, nonterminal _ => True
  | nonterminal _, terminal _ => False
  | nonterminal a, nonterminal b => a < b

/-- Productions stand by left-hand side, then by right-hand side from symbol to symbol, where a proper
prefix comes first. -/
def Production.Before (p q : Production) : Prop :=
  p.lhs < q.lhs ∨ p.lhs = q.lhs ∧ List.Lex Symbol.Before p.rhs q.rhs

theorem compare_name_eq_lt_iff {a b : Name} : compare a b = .lt ↔ a < b := compareOfLessAndEq_eq_lt

theorem Symbol.compare_eq_lt_iff {x y : Symbol} : compare x y = .lt ↔ x.Before y := by
  have unfolded : compare x y = (compare x.isNonterminal y.isNonterminal).then (compare x.name y.name) := rfl
  rw [unfolded, Ordering.then_eq_lt, compare_name_eq_lt_iff, LawfulEqCmp.compare_eq_iff_eq]
  cases x with
  | terminal t =>
    cases y with
    | terminal u => simp [isNonterminal, name, Before]
    | nonterminal a => exact iff_of_true (.inl rfl) trivial
  | nonterminal a =>
    cases y with
    | terminal t =>
      refine iff_of_false (fun earlier => ?_) not_false
      rcases earlier with kinds | ⟨kinds, _⟩ <;> cases kinds
    | nonterminal b => simp [isNonterminal, name, Before]

theorem compare_eq_lt_iff_lex {α : Type} [Ord α] [TransOrd α] [LawfulEqOrd α] {xs ys : List α} :
    compare xs ys = .lt ↔ List.Lex (fun x y => compare x y = .lt) xs ys := by
  rw [List.compare_eq_compareLex]
  induction xs generalizing ys with
  | nil =>
    cases ys with
    | nil => simp [List.compareLex_nil_nil]
    | cons y rest => exact iff_of_true rfl .nil
  | cons x xs ih =>
    cases ys with
    | nil => simp [List.compareLex_cons_nil]
    | cons y ys =>
      rw [List.compareLex_cons_cons, Ordering.then_eq_lt, LawfulEqCmp.compare_eq_iff_eq, ih]
      constructor
      · rintro (less | ⟨rfl, rest⟩)
        · exact .rel less
        · exact .cons rest
      · intro before
        cases before with
        | rel less => exact .inl less
        | cons rest => exact .inr ⟨rfl, rest⟩

theorem Production.compare_eq_lt_iff {p q : Production} : compare p q = .lt ↔ p.Before q := by
  have unfolded : compare p q = (compare p.lhs q.lhs).then (compare p.rhs q.rhs) := rfl
  have symbols : (fun x y : Symbol => compare x y = .lt) = Symbol.Before :=
    funext₂ fun _ _ => propext Symbol.compare_eq_lt_iff
  rw [unfolded, Ordering.then_eq_lt, compare_name_eq_lt_iff, LawfulEqCmp.compare_eq_iff_eq, compare_eq_lt_iff_lex,
    symbols, Before]

/-! ### Additions -/

/-- Something that is added to a grammar. -/
inductive Addition where
  | terminal (name : Name)
  | nonterminal (name : Name)
  | production (p : Production)
  deriving DecidableEq, Repr

def Addition.production? : Addition → Option Production
  | production p => some p
  | _ => none

theorem mem_filterMap_production? {additions : List Addition} {p : Production} :
    p ∈ additions.filterMap Addition.production? ↔ .production p ∈ additions := by
  rw [List.mem_filterMap]
  constructor
  · intro found
    obtain ⟨x, member, same⟩ := found
    cases x with
    | production q => rwa [← Option.some.inj same]
    | terminal t => cases same
    | nonterminal a => cases same
  · intro member
    exact ⟨_, member, rfl⟩

namespace Grammar

/-- Makes an addition. Only where assertions are made does a production ask for its left-hand side. -/
def add (asserting : Bool) (g : Grammar) : Addition → Except UndeclaredLhs Grammar
  | .terminal t => .ok (g.declareTerminal t)
  | .nonterminal a => .ok (g.declareNonterminal a)
  | .production p => if asserting then Prod.fst <$> g.addProduction p else .ok (g.insert p)

/-- What additions make of a start symbol, as long as none is refused. -/
def ofAdditions (asserting : Bool) (start : Name) (additions : List Addition) : Except UndeclaredLhs Grammar :=
  additions.foldlM (add asserting) (ofStart start)

end Grammar

/-! ### Productions in rows -/

/-- A grammar that keeps its productions in rows, one for each left-hand side. -/
structure Rowed where
  nonterminals : NameSet
  terminals : NameSet
  rows : ExtTreeMap Name (FiniteSet Production)
  start : Name
  deriving DecidableEq

namespace Rowed

def ofStart (start : Name) : Rowed where
  nonterminals := {start}
  terminals := ∅
  rows := ∅
  start := start

/-- The row of a left-hand side. One without a row has no productions. -/
def row (g : Rowed) (lhs : Name) : FiniteSet Production := g.rows.getD lhs ∅

/-- Puts a production into the row of its left-hand side, which is made if there is none. -/
def insert (g : Rowed) (p : Production) : Rowed :=
  { g with rows := g.rows.insert p.lhs ((g.row p.lhs).insert p) }

/-- Adds a production and tells whether it is a new one. Where assertions are made, its left-hand side must be
declared. -/
def addProduction (asserting : Bool) (g : Rowed) (p : Production) : Except Grammar.UndeclaredLhs (Rowed × Bool) :=
  if asserting ∧ p.lhs ∉ g.nonterminals then
    .error ⟨p.lhs⟩
  else
    .ok (g.insert p, !(g.row p.lhs).contains p)

def add (asserting : Bool) (g : Rowed) : Addition → Except Grammar.UndeclaredLhs Rowed
  | .terminal t => .ok { g with terminals := g.terminals.insert t }
  | .nonterminal a => .ok { g with nonterminals := g.nonterminals.insert a }
  | .production p => Prod.fst <$> g.addProduction asserting p

def ofAdditions (asserting : Bool) (start : Name) (additions : List Addition) : Except Grammar.UndeclaredLhs Rowed :=
  additions.foldlM (add asserting) (ofStart start)

/-- The productions row by row. -/
def productions (g : Rowed) : List Production := g.rows.toList.flatMap fun entry => entry.2.toList

def numProductions (g : Rowed) : Nat := (g.rows.toList.map fun entry => entry.2.size).sum

/-- A line for each row that is not empty. -/
def productionLines (g : Rowed) : List String :=
  g.rows.toList.filterMap fun (lhs, row) =>
    if row.isEmpty then none
    else some (s!"  {lhs} -> " ++ " | ".intercalate (row.toList.map fun p => renderForm p.rhs))

def render (g : Rowed) : String :=
  let symbols := [
    "Non-terminals: " ++ ", ".intercalate g.nonterminals.toList,
    "Terminals: " ++ ", ".intercalate g.terminals.toList,
    "Start symbol: " ++ g.start]
  String.join ((symbols ++ "Productions:" :: g.productionLines).map (· ++ "\n"))

/-- The same grammar, its productions in one set. -/
def grammar (g : Rowed) : Grammar where
  nonterminals := g.nonterminals
  terminals := g.terminals
  productions := .ofList g.productions
  start := g.start

variable {g h : Rowed} {p q : Production} {a : Name} {asserting : Bool}

theorem row_insert (g : Rowed) (p : Production) (a : Name) :
    (g.insert p).row a = if p.lhs = a then (g.row p.lhs).insert p else g.row a :=
  getD_insert_eq_ite g.rows ∅ p.lhs a _

theorem mem_toList_rows {entry : Name × FiniteSet Production} :
    entry ∈ g.rows.toList ↔ entry.1 ∈ g.rows ∧ entry.2 = g.row entry.1 :=
  mem_toList_iff_getD g.rows ∅

theorem mem_rows_of_mem_row (stored : p ∈ g.row a) : a ∈ g.rows := by
  by_contra missing
  rw [row, ExtTreeMap.getD_eq_fallback missing] at stored
  exact ExtTreeSet.not_mem_empty stored

theorem mem_productions : p ∈ g.productions ↔ ∃ a, p ∈ g.row a := by
  simp only [productions, List.mem_flatMap, mem_toList_rows, ExtTreeSet.mem_toList]
  constructor
  · intro found
    obtain ⟨entry, ⟨_, same⟩, stored⟩ := found
    exact ⟨entry.1, same ▸ stored⟩
  · intro found
    obtain ⟨a, stored⟩ := found
    exact ⟨(a, g.row a), ⟨mem_rows_of_mem_row stored, rfl⟩, stored⟩

theorem mem_productions_insert : q ∈ (g.insert p).productions ↔ q = p ∨ q ∈ g.productions := by
  simp only [mem_productions, row_insert]
  constructor
  · intro found
    obtain ⟨a, stored⟩ := found
    split at stored
    · exact (FiniteSet.mem_insert_iff.mp stored).imp_right fun old => ⟨_, old⟩
    · exact .inr ⟨a, stored⟩
  · rintro (rfl | ⟨a, stored⟩)
    · exact ⟨q.lhs, by rw [if_pos rfl]; exact FiniteSet.mem_insert_iff.mpr (.inl rfl)⟩
    · refine ⟨a, ?_⟩
      split
      · next here => exact FiniteSet.mem_insert_iff.mpr (.inr (here ▸ stored))
      · exact stored

theorem numProductions_eq (g : Rowed) : g.numProductions = g.productions.length := by
  simp only [numProductions, productions, List.length_flatMap, ExtTreeSet.length_toList]

theorem addProduction_eq_ok_iff {isNew : Bool} : g.addProduction asserting p = .ok (h, isNew) ↔
    (asserting = true → p.lhs ∈ g.nonterminals) ∧ g.insert p = h ∧ (!(g.row p.lhs).contains p) = isNew := by
  unfold addProduction
  split
  · next refused => exact iff_of_false nofun fun allowed => refused.2 (allowed.1 refused.1)
  · next allowed =>
    have declared (asserts : asserting = true) : p.lhs ∈ g.nonterminals := by
      by_contra missing
      exact allowed ⟨asserts, missing⟩
    rw [Except.ok.injEq, Prod.mk.injEq, and_iff_right declared]

theorem eq_insert_of_add (added : g.add asserting (.production p) = .ok h) : h = g.insert p := by
  obtain ⟨⟨_, _⟩, outcome, rfl⟩ := map_eq_ok_iff.mp added
  exact (addProduction_eq_ok_iff.mp outcome).2.1.symm

theorem mem_grammar_productions : p ∈ g.grammar.productions ↔ p ∈ g.productions := FiniteSet.mem_ofList_iff

theorem grammar_insert (g : Rowed) (p : Production) : (g.insert p).grammar = g.grammar.insert p := by
  refine Grammar.ext_mem (fun _ => .rfl) (fun _ => .rfl) (fun q => ?_) rfl
  rw [mem_grammar_productions, mem_productions_insert, Grammar.insert, FiniteSet.mem_insert_iff,
    mem_grammar_productions]

theorem grammar_ofStart (start : Name) : (ofStart start).grammar = Grammar.ofStart start := by
  refine Grammar.ext_mem (fun _ => .rfl) (fun _ => .rfl) (fun p => ?_) rfl
  rw [mem_grammar_productions, mem_productions]
  refine iff_of_false (fun found => ?_) ExtTreeSet.not_mem_empty
  obtain ⟨a, stored⟩ := found
  exact ExtTreeMap.not_mem_empty (mem_rows_of_mem_row stored)

/-- Productions stand in the row of their left-hand side, and no row is there without one. -/
structure Filed (g : Rowed) : Prop where
  filled : ∀ a ∈ g.rows, ∃ p, p ∈ g.row a
  lhs : ∀ a p, p ∈ g.row a → p.lhs = a

theorem filed_ofStart (start : Name) : (ofStart start).Filed where
  filled _ member := absurd member ExtTreeMap.not_mem_empty
  lhs _ _ stored := absurd (mem_rows_of_mem_row stored) ExtTreeMap.not_mem_empty

namespace Filed

variable (filed : g.Filed)
include filed

theorem insert (p : Production) : (g.insert p).Filed where
  filled a member := by
    rw [row_insert]
    split
    · exact ⟨p, FiniteSet.mem_insert_iff.mpr (.inl rfl)⟩
    · next other =>
      refine filed.filled a ?_
      rw [Rowed.insert, ExtTreeMap.mem_insert, LawfulEqCmp.compare_eq_iff_eq] at member
      exact member.resolve_left other
  lhs a q stored := by
    rw [row_insert] at stored
    split at stored
    · next here =>
      rcases FiniteSet.mem_insert_iff.mp stored with rfl | old
      · exact here
      · exact (filed.lhs _ q old).trans here
    · exact filed.lhs a q stored

theorem mem_productions : p ∈ g.productions ↔ p ∈ g.row p.lhs := by
  rw [Rowed.mem_productions]
  constructor
  · intro found
    obtain ⟨a, stored⟩ := found
    rwa [filed.lhs a p stored]
  · intro stored
    exact ⟨p.lhs, stored⟩

theorem mem_row : p ∈ g.row a ↔ p ∈ g.productions ∧ p.lhs = a := by
  constructor
  · intro stored
    exact ⟨Rowed.mem_productions.mpr ⟨a, stored⟩, filed.lhs a p stored⟩
  · rintro ⟨stored, rfl⟩
    exact filed.mem_productions.mp stored

theorem mem_rows : a ∈ g.rows ↔ ∃ p ∈ g.productions, p.lhs = a := by
  constructor
  · intro member
    obtain ⟨p, stored⟩ := filed.filled a member
    exact ⟨p, filed.mem_row.mp stored⟩
  · intro found
    obtain ⟨p, stored⟩ := found
    exact mem_rows_of_mem_row (filed.mem_row.mpr stored)

/-- Rows follow each other by left-hand side, and so do the productions of one row by right-hand side. -/
theorem productions_ordered : g.productions.Pairwise fun p q => compare p q = .lt := by
  refine List.pairwise_flatMap.mpr ⟨fun entry _ => ExtTreeSet.ordered_toList, ?_⟩
  refine ExtTreeMap.ordered_keys_toList.imp_of_mem fun {first second} inFirst inSecond less p stored q listed => ?_
  rw [(mem_toList_rows.mp inFirst).2, ExtTreeSet.mem_toList] at stored
  rw [(mem_toList_rows.mp inSecond).2, ExtTreeSet.mem_toList] at listed
  have unfolded : compare p q = (compare p.lhs q.lhs).then (compare p.rhs q.rhs) := rfl
  rw [unfolded, filed.lhs _ p stored, filed.lhs _ q listed, less]
  rfl

theorem productions_eq : g.productions = g.grammar.productions.toList := by
  refine eq_of_ordered filed.productions_ordered ExtTreeSet.ordered_toList fun p => ?_
  rw [ExtTreeSet.mem_toList, mem_grammar_productions]

theorem productionsOf_eq (a : Name) : g.grammar.productionsOf a = (g.row a).toList := by
  refine eq_of_ordered (ExtTreeSet.ordered_toList.filter _) ExtTreeSet.ordered_toList fun p => ?_
  rw [Grammar.mem_productionsOf, mem_grammar_productions, ExtTreeSet.mem_toList, filed.mem_row]

theorem keys_eq : g.rows.keys = g.grammar.heads.toList := by
  refine eq_of_ordered ExtTreeMap.ordered_keys ExtTreeSet.ordered_toList fun a => ?_
  simp only [ExtTreeMap.mem_keys, filed.mem_rows, ExtTreeSet.mem_toList, Grammar.mem_heads, mem_grammar_productions]

theorem productionLines_eq : g.productionLines = g.grammar.productionLines := by
  rw [productionLines, Grammar.productionLines, ← filed.keys_eq, ← ExtTreeMap.map_fst_toList_eq_keys, List.map_map]
  refine (List.filterMap_congr fun entry listed => ?_).trans (congrFun List.filterMap_eq_map _)
  obtain ⟨member, same⟩ := mem_toList_rows.mp listed
  obtain ⟨p, stored⟩ := filed.filled _ member
  have filled : entry.2.isEmpty = false :=
    ExtTreeSet.isEmpty_eq_false_iff.mpr (ExtTreeSet.ne_empty_of_mem (same ▸ stored))
  rw [Function.comp_apply, Function.comp_apply, filed.productionsOf_eq, ← same]
  simp only [filled, Bool.false_eq_true, if_false]

theorem render_eq : g.render = g.grammar.render := by
  rw [render, Grammar.render, filed.productionLines_eq]
  rfl

/-- No row is empty, none is missing and none holds a stray production, so that what is in the rows tells the
rows. -/
theorem ext (other : h.Filed) (nonterminals : ∀ a, a ∈ g.nonterminals ↔ a ∈ h.nonterminals)
    (terminals : ∀ t, t ∈ g.terminals ↔ t ∈ h.terminals) (productions : ∀ p, p ∈ g.productions ↔ p ∈ h.productions)
    (start : g.start = h.start) : g = h := by
  have rows : g.rows = h.rows := by
    refine ExtTreeMap.ext_getElem? fun a => ?_
    have present : a ∈ g.rows ↔ a ∈ h.rows := by simp only [filed.mem_rows, other.mem_rows, productions]
    have same : g.row a = h.row a := ExtTreeSet.ext_mem fun p => by rw [filed.mem_row, other.mem_row, productions]
    rw [getElem?_eq_ite_getD g.rows ∅, getElem?_eq_ite_getD h.rows ∅]
    exact if_congr present (congrArg some same) rfl
  obtain ⟨_, _, _, _⟩ := g
  obtain ⟨_, _, _, _⟩ := h
  rw [mk.injEq]
  exact ⟨ExtTreeSet.ext_mem nonterminals, ExtTreeSet.ext_mem terminals, rows, start⟩

/-- Both grammars tell alike whether a production is new, and refuse the same ones. -/
theorem addProduction_grammar (p : Production) :
    g.grammar.addProduction p = (fun added => (added.1.grammar, added.2)) <$> g.addProduction true p := by
  have alike : g.grammar.productions.contains p = (g.row p.lhs).contains p := by
    rw [Bool.eq_iff_iff, ExtTreeSet.contains_iff_mem, ExtTreeSet.contains_iff_mem, mem_grammar_productions,
      filed.mem_productions]
  have symbols : g.grammar.nonterminals = g.nonterminals := rfl
  rw [Grammar.addProduction, addProduction, alike, ← grammar_insert, symbols]
  by_cases declared : p.lhs ∈ g.nonterminals
  · rw [if_pos declared, if_neg fun refused => refused.2 declared]
    rfl
  · rw [if_neg declared, if_pos ⟨rfl, declared⟩]
    rfl

theorem add_grammar (x : Addition) : g.grammar.add asserting x = grammar <$> g.add asserting x := by
  cases x with
  | terminal t => rfl
  | nonterminal a => rfl
  | production p =>
    cases asserting with
    | false => exact congrArg Except.ok (grammar_insert g p).symm
    | true =>
      rw [Grammar.add, if_pos rfl, filed.addProduction_grammar, add]
      cases g.addProduction true p <;> rfl

theorem add {x : Addition} (added : g.add asserting x = .ok h) : h.Filed := by
  cases x with
  | terminal t =>
    cases added
    exact ⟨filed.filled, filed.lhs⟩
  | nonterminal a =>
    cases added
    exact ⟨filed.filled, filed.lhs⟩
  | production p =>
    rw [eq_insert_of_add added]
    exact filed.insert p

end Filed

/-- A grammar has what its additions say, and the start symbol. -/
structure Collects (g : Rowed) (start : Name) (made : List Addition) : Prop where
  nonterminals : ∀ a, a ∈ g.nonterminals ↔ a = start ∨ .nonterminal a ∈ made
  terminals : ∀ t, t ∈ g.terminals ↔ .terminal t ∈ made
  productions : ∀ p, p ∈ g.productions ↔ .production p ∈ made
  start : g.start = start

variable {start : Name} {made xs ys : List Addition}

theorem collects_ofStart (start : Name) : (ofStart start).Collects start [] where
  nonterminals a := FiniteSet.mem_singleton_iff.trans (by simp)
  terminals t := iff_of_false ExtTreeSet.not_mem_empty List.not_mem_nil
  productions p := by
    rw [← mem_grammar_productions, grammar_ofStart]
    exact iff_of_false ExtTreeSet.not_mem_empty List.not_mem_nil
  start := rfl

theorem Collects.add {x : Addition} (collects : g.Collects start made) (added : g.add asserting x = .ok h) :
    h.Collects start (made ++ [x]) := by
  obtain ⟨nonterminals, terminals, productions, start⟩ := collects
  -- Of the three collections the one that the addition belongs to gains it, and the others stay.
  cases x with
  | terminal t =>
    cases added
    refine ⟨fun a => (nonterminals a).trans (by simp), fun u => ?_, fun p => (productions p).trans (by simp), start⟩
    rw [FiniteSet.mem_insert_iff, terminals]
    simp [or_comm]
  | nonterminal a =>
    cases added
    refine ⟨fun b => ?_, fun t => (terminals t).trans (by simp), fun p => (productions p).trans (by simp), start⟩
    rw [FiniteSet.mem_insert_iff, nonterminals, or_left_comm]
    simp [or_comm]
  | production p =>
    rw [eq_insert_of_add added]
    refine ⟨fun a => (nonterminals a).trans (by simp), fun t => (terminals t).trans (by simp), fun q => ?_, start⟩
    rw [mem_productions_insert, productions]
    simp [or_comm]

/-- What is collected is all that tells two grammars apart. -/
theorem Collects.eq_iff (collects : g.Collects start xs) (filed : g.Filed) (collected : h.Collects start ys)
    (other : h.Filed) : g = h ↔ ∀ x, x ≠ .nonterminal start → (x ∈ xs ↔ x ∈ ys) := by
  constructor
  · rintro rfl x different
    cases x with
    | terminal t => rw [← collects.terminals, collected.terminals]
    | nonterminal a =>
      have isOther : a ≠ start := fun same => different (congrArg _ same)
      have both := (collects.nonterminals a).symm.trans (collected.nonterminals a)
      rwa [or_iff_right isOther, or_iff_right isOther] at both
    | production p => rw [← collects.productions, collected.productions]
  · intro alike
    refine filed.ext other (fun a => ?_) (fun t => ?_) (fun p => ?_) (collects.start.trans collected.start.symm)
    · rw [collects.nonterminals, collected.nonterminals]
      refine or_congr_right' fun isOther => alike _ fun same => isOther (Addition.nonterminal.inj same)
    · rw [collects.terminals, collected.terminals, alike (.terminal t) nofun]
    · rw [collects.productions, collected.productions, alike (.production p) nofun]

theorem spec_of_foldlM (filed : g.Filed) (collects : g.Collects start made)
    (ran : xs.foldlM (add asserting) g = .ok h) :
    h.Filed ∧ h.Collects start (made ++ xs) ∧ xs.foldlM (Grammar.add asserting) g.grammar = .ok h.grammar := by
  induction xs generalizing g made with
  | nil =>
    cases ran
    exact ⟨filed, by rwa [List.append_nil], rfl⟩
  | cons x rest ih =>
    rw [List.foldlM_cons] at ran
    obtain ⟨next, added, later⟩ := bind_eq_ok_iff.mp ran
    obtain ⟨kept, gathered, same⟩ := ih (filed.add added) (collects.add added) later
    rw [List.append_assoc] at gathered
    refine ⟨kept, gathered, ?_⟩
    rw [List.foldlM_cons, filed.add_grammar, added]
    exact same

theorem spec_of_ofAdditions (built : ofAdditions asserting start xs = .ok g) :
    g.Filed ∧ g.Collects start xs ∧ Grammar.ofAdditions asserting start xs = .ok g.grammar := by
  obtain ⟨filed, collects, same⟩ := spec_of_foldlM (filed_ofStart start) (collects_ofStart start) built
  rw [grammar_ofStart] at same
  exact ⟨filed, collects, same⟩

/-- A production is new where it is added for the first time. -/
theorem exists_addProduction {before after : List Addition}
    (built : ofAdditions asserting start (before ++ .production p :: after) = .ok g) :
    ∃ old next, ofAdditions asserting start before = .ok old ∧
      old.addProduction asserting p = .ok (next, decide (.production p ∉ before)) ∧
      after.foldlM (add asserting) next = .ok g := by
  rw [ofAdditions, List.foldlM_append] at built
  obtain ⟨old, first, rest⟩ := bind_eq_ok_iff.mp built
  rw [List.foldlM_cons] at rest
  obtain ⟨_, added, later⟩ := bind_eq_ok_iff.mp rest
  obtain ⟨⟨next, isNew⟩, outcome, rfl⟩ := map_eq_ok_iff.mp added
  obtain ⟨filed, collects, _⟩ := spec_of_ofAdditions first
  have flag : isNew = decide (.production p ∉ before) := by
    rw [← (addProduction_eq_ok_iff.mp outcome).2.2, Bool.eq_iff_iff, Bool.not_eq_true', decide_eq_true_iff,
      ← Bool.not_eq_true, ExtTreeSet.contains_iff_mem, ← filed.mem_productions, collects.productions]
  exact ⟨old, next, first, flag ▸ outcome, later⟩

/-- A grammar is the set of its additions. They may come in any order and any number of times, and the grammars
differ only if the additions do, where it does not count that the start symbol is declared once more. -/
theorem ofAdditions_exact (built : ofAdditions asserting start xs = .ok g)
    (again : ofAdditions asserting start ys = .ok h) :
    ((∀ x, x ∈ xs ↔ x ∈ ys) → g = h ∧ g.render = h.render ∧ g.productions = h.productions) ∧
    (g = h ↔ ∀ x, x ≠ .nonterminal start → (x ∈ xs ↔ x ∈ ys)) ∧
    g.Collects start xs ∧
    g.productions.Pairwise Production.Before ∧ g.productions.Nodup ∧
    g.numProductions = (xs.filterMap Addition.production?).dedup.length ∧
    (∀ before p after, xs = before ++ .production p :: after →
      ∃ old next, ofAdditions asserting start before = .ok old ∧
        old.addProduction asserting p = .ok (next, decide (.production p ∉ before)) ∧
        after.foldlM (add asserting) next = .ok g) ∧
    Grammar.ofAdditions asserting start xs = .ok g.grammar ∧ g.render = g.grammar.render ∧
    g.productions = g.grammar.productions.toList := by
  obtain ⟨filed, collects, same⟩ := spec_of_ofAdditions built
  obtain ⟨other, collected, _⟩ := spec_of_ofAdditions again
  have decided : g = h ↔ ∀ x, x ≠ .nonterminal start → (x ∈ xs ↔ x ∈ ys) := collects.eq_iff filed collected other
  have distinct : g.productions.Nodup := nodup_of_ordered filed.productions_ordered
  refine ⟨fun alike => ?_, decided, collects, ?_, distinct, ?_, fun before p after split => ?_, same, filed.render_eq,
    filed.productions_eq⟩
  · obtain rfl : g = h := decided.mpr fun x _ => alike x
    exact ⟨rfl, rfl, rfl⟩
  · exact filed.productions_ordered.imp Production.compare_eq_lt_iff.mp
  · rw [numProductions_eq]
    refine ((List.perm_ext_iff_of_nodup distinct (List.nodup_dedup _)).mpr fun p => ?_).length_eq
    rw [List.mem_dedup, mem_filterMap_production?, collects.productions]
  · exact exists_addProduction (split ▸ built)

theorem exists_eq_ok_of_isOk {ε α : Type} {answer : Except ε α} (success : answer.isOk = true) :
    ∃ a, answer = .ok a := by
  cases answer with
  | ok a => exact ⟨a, rfl⟩
  | error e => cases success

/-- Five additions, and the same in another order with three of them repeated. -/
def straight : List Addition :=
  [.nonterminal "B", .terminal "x", .production ⟨"S", [.nonterminal "B", .terminal "x"]⟩, .production ⟨"S", []⟩,
    .production ⟨"B", [.terminal "x"]⟩]

def shuffled : List Addition :=
  [.production ⟨"S", []⟩, .nonterminal "B", .production ⟨"B", [.terminal "x"]⟩, .production ⟨"S", []⟩, .terminal "x",
    .nonterminal "B", .production ⟨"S", [.nonterminal "B", .terminal "x"]⟩, .production ⟨"B", [.terminal "x"]⟩]

theorem shuffled_ofAdditions : ∃ g h, ofAdditions true "S" straight = .ok g ∧ ofAdditions true "S" shuffled = .ok h ∧
    g = h ∧ g.render = h.render ∧ g.numProductions = 3 := by
  have alike : ∀ x, x ∈ straight ↔ x ∈ shuffled := fun x =>
    ⟨(by decide : ∀ x ∈ straight, x ∈ shuffled) x, (by decide : ∀ x ∈ shuffled, x ∈ straight) x⟩
  obtain ⟨g, built⟩ : ∃ g, ofAdditions true "S" straight = .ok g := exists_eq_ok_of_isOk (by decide +kernel)
  obtain ⟨h, again⟩ : ∃ h, ofAdditions true "S" shuffled = .ok h := exists_eq_ok_of_isOk (by decide +kernel)
  obtain ⟨same, _, _, _, _, count, _⟩ := ofAdditions_exact built again
  exact ⟨g, h, built, again, (same alike).1, (same alike).2.1, count.trans (by decide)⟩

end Rowed

end ContextFree
