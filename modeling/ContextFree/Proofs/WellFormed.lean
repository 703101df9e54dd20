import ContextFree.Grammar

namespace ContextFree

@[simp] theorem ok_bind {ε α β : Type} (a : α) (next : α → Except ε β) : (Except.ok a >>= next) = next a := rfl

theorem bind_eq_ok_iff {ε α β : Type} {first : Except ε α} {next : α → Except ε β} {result : β} :
    first >>= next = .ok result ↔ ∃ a, first = .ok a ∧ next a = .ok result := by
  cases first <;> simp [bind, Except.bind]

theorem bind_ok_eq_error_iff {ε α β : Type} {answer : Except ε α} {f : α → β} {e : ε} :
    (answer >>= fun a => .ok (f a)) = .error e ↔ answer = .error e := by
  cases answer <;> simp [bind, Except.bind]

theorem map_eq_ok_iff {ε α β : Type} {answer : Except ε α} {f : α → β} {result : β} :
    f <$> answer = .ok result ↔ ∃ a, answer = .ok a ∧ f a = result := by
  cases answer <;> simp [Functor.map, Except.map]

theorem map_eq_error_iff {ε α β : Type} {answer : Except ε α} {f : α → β} {e : ε} :
    f <$> answer = .error e ↔ answer = .error e := by
  cases answer <;> simp [Functor.map, Except.map]

namespace Grammar

theorem ext_mem {g h : Grammar} (nonterminals : ∀ a, a ∈ g.nonterminals ↔ a ∈ h.nonterminals)
    (terminals : ∀ t, t ∈ g.terminals ↔ t ∈ h.terminals)
    (productions : ∀ p, p ∈ g.productions ↔ p ∈ h.productions) (start : g.start = h.start) : g = h := by
  obtain ⟨_, _, _, _⟩ := g
  obtain ⟨_, _, _, _⟩ := h
  rw [mk.injEq]
  exact ⟨Std.ExtTreeSet.ext_mem nonterminals, Std.ExtTreeSet.ext_mem terminals, Std.ExtTreeSet.ext_mem productions,
    start⟩

@[simp] theorem mem_withProductions {g : Grammar} {productions : List Production} {p : Production} :
    p ∈ (g.withProductions productions).productions ↔ p ∈ productions := by
  simp [withProductions]

theorem withProductions_toList (g : Grammar) : g.withProductions g.productions.toList = g :=
  ext_mem (fun _ => .rfl) (fun _ => .rfl) (fun _ => mem_withProductions.trans Std.ExtTreeSet.mem_toList) rfl

/-- Adds several productions without asking for their left-hand sides. -/
def insertAll (g : Grammar) (productions : List Production) : Grammar :=
  { g with productions := g.productions.insertMany productions }

@[simp] theorem mem_insertAll {g : Grammar} {productions : List Production} {p : Production} :
    p ∈ (g.insertAll productions).productions ↔ p ∈ g.productions ∨ p ∈ productions :=
  FiniteSet.mem_insertMany_iff

theorem insertAll_cons (g : Grammar) (p : Production) (rest : List Production) :
    g.insertAll (p :: rest) = (g.insert p).insertAll rest := by
  simp only [insertAll, insert, Std.ExtTreeSet.insertMany_cons]

theorem insertAll_eq_foldl (g : Grammar) (productions : List Production) :
    g.insertAll productions = productions.foldl insert g := by
  induction productions generalizing g with
  | nil => rfl
  | cons p rest ih => rw [insertAll_cons, ih, List.foldl_cons]

theorem insertAll_append (g : Grammar) (first second : List Production) :
    g.insertAll (first ++ second) = (g.insertAll first).insertAll second := by
  simp only [insertAll_eq_foldl, List.foldl_append]

theorem insertAll_of_empty {g : Grammar} (empty : g.productions = ∅) (productions : List Production) :
    g.insertAll productions = g.withProductions productions := by
  rw [insertAll, empty, withProductions, Std.ExtTreeSet.ofList_eq_insertMany_empty]

theorem withoutProductions_insertAll (g : Grammar) (productions : List Production) :
    g.withoutProductions.insertAll productions = g.withProductions productions :=
  insertAll_of_empty rfl productions

@[simp] theorem mem_productionsOf {g : Grammar} {lhs : Name} {p : Production} :
    p ∈ g.productionsOf lhs ↔ p ∈ g.productions ∧ p.lhs = lhs := by
  simp [productionsOf]

theorem usesName_eq_false_iff {g : Grammar} {a : Name} :
    g.usesName a = false ↔ a ∉ g.terminals ∧ a ∉ g.nonterminals := by
  rw [← Bool.not_eq_true]
  simp [usesName]

/-- What every grammar has that is built by adding symbols and productions one by one: the start
symbol and the left-hand sides are declared. Right-hand sides may mention anything. -/
structure Coherent (g : Grammar) : Prop where
  start : g.start ∈ g.nonterminals
  heads : ∀ p ∈ g.productions, p.lhs ∈ g.nonterminals

/-- A coherent grammar whose right-hand sides mention declared nonterminals only. -/
structure Closed (g : Grammar) : Prop extends Coherent g where
  mentioned : ∀ p ∈ g.productions, ∀ a, .nonterminal a ∈ p.rhs → a ∈ g.nonterminals

/-- A grammar all of whose symbols are declared, under names that are not empty and that tell a
terminal from a nonterminal. -/
structure WellFormed (g : Grammar) : Prop extends Closed g where
  letters : ∀ p ∈ g.productions, ∀ t, .terminal t ∈ p.rhs → t ∈ g.terminals
  disjoint : ∀ a ∈ g.terminals, a ∉ g.nonterminals
  terminal_ne : ∀ a ∈ g.terminals, a ≠ ""
  nonterminal_ne : ∀ a ∈ g.nonterminals, a ≠ ""

theorem WellFormed.declares {g : Grammar} (formed : g.WellFormed) {p : Production} (stored : p ∈ g.productions)
    {s : Symbol} (member : s ∈ p.rhs) : g.declares s = true := by
  cases s with
  | terminal t => simpa [Grammar.declares] using formed.letters p stored t member
  | nonterminal a => simpa [Grammar.declares] using formed.mentioned p stored a member

theorem raise_eq_ok_iff {faults : List GrammarError} : GrammarError.raise faults = .ok () ↔ faults = [] := by
  cases faults <;> simp [GrammarError.raise]

theorem faults_eq_nil_iff {g : Grammar} : g.faults = [] ↔ g.WellFormed := by
  simp only [faults, List.append_eq_nil_iff, List.filterMap_eq_nil_iff, List.flatMap_eq_nil_iff, List.map_eq_nil_iff,
    List.filter_eq_nil_iff, Std.ExtTreeSet.mem_toList, Std.ExtTreeSet.contains_iff_mem]
  constructor
  · intro found
    obtain ⟨⟨⟨start, terminals⟩, nonterminals⟩, productions⟩ := found
    have nonempty : "" ∉ g.nonterminals := by simpa using nonterminals
    have named : ∀ a ∈ g.terminals, a ≠ "" ∧ a ∉ g.nonterminals := by
      intro a member
      have clean := terminals a member
      split at clean
      · simp at clean
      · split at clean
        · simp at clean
        · exact ⟨‹_›, ‹_›⟩
    have declared : ∀ p ∈ g.productions, ∀ s ∈ p.rhs, g.declares s = true := fun p stored s member => by
      simpa using (productions p stored).2 s member
    exact {
      start := by simpa using start
      heads := fun p stored => by simpa using (productions p stored).1
      mentioned := fun p stored a member => by simpa [Grammar.declares] using declared p stored _ member
      letters := fun p stored t member => by simpa [Grammar.declares] using declared p stored _ member
      disjoint := fun a member => (named a member).2
      terminal_ne := fun a member => (named a member).1
      nonterminal_ne := by
        rintro a member rfl
        exact nonempty member }
  · intro formed
    refine ⟨⟨⟨by simp [formed.start], fun a member => ?_⟩, ?_⟩, fun p stored => ⟨?_, fun s member => ?_⟩⟩
    · rw [if_neg (formed.terminal_ne a member), if_neg (formed.disjoint a member)]
    · rw [if_neg fun member => formed.nonterminal_ne "" member rfl]
    · rw [if_pos (formed.heads p stored)]
    · simp [formed.declares stored member]

/-- The check accepts exactly the well-formed grammars. -/
theorem check_eq_ok_iff {g : Grammar} : g.check = .ok () ↔ g.WellFormed :=
  raise_eq_ok_iff.trans faults_eq_nil_iff

end Grammar

end ContextFree
