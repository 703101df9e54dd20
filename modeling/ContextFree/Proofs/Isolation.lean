import ContextFree.Isolation
import ContextFree.Proofs.Abbreviation
import ContextFree.Proofs.NameSupply
import Mathlib.Data.List.Nodup

namespace ContextFree

namespace Isolation

/-- What is so once the terminals of `met` have been given nonterminals, beside those of `g`. -/
structure Named (g : Grammar) (met : List Name) (isolation : Isolation) : Prop where
  start : isolation.grammar.start = g.start
  terminals : isolation.grammar.terminals = g.terminals
  nonterminals : ∀ a, a ∈ isolation.grammar.nonterminals ↔ a ∈ g.nonterminals ∨ a ∈ isolation.assigned.map Prod.snd
  keys : ∀ t, t ∈ isolation.assigned.map Prod.fst ↔ t ∈ met
  keysDistinct : (isolation.assigned.map Prod.fst).Nodup
  distinct : (isolation.assigned.map Prod.snd).Nodup
  fresh : ∀ a ∈ isolation.assigned.map Prod.snd, g.usesName a = false
  nonempty : ∀ t a, (t, a) ∈ isolation.assigned → t ≠ "" → a ≠ ""

theorem Named.nil (g : Grammar) (supply : NameSupply) : Named g [] ⟨g.withoutProductions, supply, []⟩ where
  start := rfl
  terminals := rfl
  nonterminals a := by simp [Grammar.withoutProductions]
  keys t := by simp
  keysDistinct := .nil
  distinct := .nil
  fresh a member := by simp at member
  nonempty t a member := by simp at member

/-- A terminal that is met for the first time gets a name that is used by nothing so far. -/
theorem Named.add {g : Grammar} {met : List Name} {isolation : Isolation} (named : Named g met isolation) {t : Name}
    (isNew : t ∉ isolation.assigned.map Prod.fst) {minted : Minted} (fresh : minted.IsFresh isolation.grammar)
    (positive : t ≠ "" → minted.name ≠ "") :
    Named g (met ++ [t]) ⟨minted.grammar, minted.supply, isolation.assigned ++ [(t, minted.name)]⟩ := by
  obtain ⟨noTerminal, noNonterminal⟩ := Grammar.usesName_eq_false_iff.mp fresh.unused
  rw [named.terminals] at noTerminal
  rw [named.nonterminals, not_or] at noNonterminal
  constructor
  case start =>
    rw [fresh.declared]
    exact named.start
  case terminals =>
    rw [fresh.declared]
    exact named.terminals
  case nonterminals =>
    intro a
    simp only [fresh.declared, Grammar.declareNonterminal, FiniteSet.mem_insert_iff, named.nonterminals,
      List.map_append, List.map_cons, List.map_nil, List.mem_append, List.mem_singleton]
    exact or_left_comm.trans (or_congr_right or_comm)
  case keys =>
    intro u
    rw [List.map_append, List.mem_append, named.keys, List.mem_append]
    rfl
  case keysDistinct =>
    rw [List.map_append, List.map_singleton, ← List.concat_eq_append]
    exact named.keysDistinct.concat isNew
  case distinct =>
    rw [List.map_append, List.map_singleton, ← List.concat_eq_append]
    exact named.distinct.concat noNonterminal.2
  case fresh =>
    intro a member
    rw [List.map_append, List.mem_append] at member
    rcases member with before | last
    · exact named.fresh a before
    · rw [List.mem_singleton.mp last]
      exact Grammar.usesName_eq_false_iff.mpr ⟨noTerminal, noNonterminal.1⟩
  case nonempty =>
    intro u a member
    rcases List.mem_append.mp member with before | last
    · exact named.nonempty u a before
    · cases List.mem_singleton.mp last
      exact positive

theorem lookup_isSome_iff {assigned : List (Name × Name)} {t : Name} :
    (assigned.lookup t).isSome = true ↔ t ∈ assigned.map Prod.fst := by
  simp only [List.lookup_isSome_iff, List.mem_map, beq_iff_eq, eq_comm (a := t)]

theorem Named.assign {g : Grammar} {met : List Name} {isolation : Isolation} (named : Named g met isolation)
    (stem : String) (t : Name) : Named g (met ++ [t]) (assign stem isolation t) := by
  unfold Isolation.assign
  split
  · rename_i known
    have old : t ∈ met := (named.keys t).mp (lookup_isSome_iff.mp known)
    refine { named with keys := fun u => ?_ }
    rw [named.keys, List.mem_append, List.mem_singleton]
    constructor
    · exact .inl
    · intro found
      rcases found with before | rfl
      · exact before
      · exact old
  · rename_i unknown
    refine named.add (fun member => unknown (lookup_isSome_iff.mpr member))
      (isolation.supply.mintNamed_isFresh isolation.grammar (stem ++ t)) fun positive => ?_
    refine isolation.supply.mintNamed_ne_empty isolation.grammar fun empty => positive ?_
    exact (String.append_eq_empty_iff.mp empty).2

theorem Named.foldl {g : Grammar} {met : List Name} {isolation : Isolation} (named : Named g met isolation)
    (stem : String) (terminals : List Name) :
    Named g (met ++ terminals) (terminals.foldl (Isolation.assign stem) isolation) := by
  induction terminals generalizing met isolation with
  | nil => simpa using named
  | cons t rest ih =>
    have next := ih (named.assign stem t)
    rwa [List.append_assoc, List.singleton_append] at next

/-- The new nonterminals with the terminals that they stand for. -/
def abbreviations (isolation : Isolation) : Abbreviations :=
  isolation.assigned.map fun (t, a) => (a, [.terminal t])

theorem names_abbreviations (isolation : Isolation) :
    isolation.abbreviations.names = isolation.assigned.map Prod.snd := by
  simp [abbreviations, Abbreviations.names, Function.comp_def]

theorem mem_abbreviations {isolation : Isolation} {a : Name} {form : List Symbol} :
    (a, form) ∈ isolation.abbreviations ↔ ∃ t, (t, a) ∈ isolation.assigned ∧ form = [.terminal t] := by
  simp only [abbreviations, List.mem_map, Prod.exists, Prod.mk.injEq]
  constructor
  · intro found
    obtain ⟨t, b, member, rfl, rfl⟩ := found
    exact ⟨t, member, rfl⟩
  · intro found
    obtain ⟨t, member, rfl⟩ := found
    exact ⟨t, a, member, rfl, rfl⟩

theorem mem_of_lookup {assigned : List (Name × Name)} {t a : Name} (found : assigned.lookup t = some a) :
    (t, a) ∈ assigned := by
  obtain ⟨before, after, rfl, _⟩ := List.lookup_eq_some_iff.mp found
  simp

theorem lookup_of_mem {assigned : List (Name × Name)} (distinct : (assigned.map Prod.fst).Nodup) {t a : Name}
    (member : (t, a) ∈ assigned) : assigned.lookup t = some a := by
  obtain ⟨before, after, rfl⟩ := List.append_of_mem member
  refine List.lookup_eq_some_iff.mpr ⟨before, after, rfl, fun entry earlier => ?_⟩
  rw [List.map_append, List.nodup_append] at distinct
  have different := distinct.2.2 entry.1 (List.mem_map_of_mem earlier) t (by simp)
  simpa using different.symm

/-- The nonterminals of terminals derive the terminals back. -/
theorem derives_replaced {h : Grammar} {assigned : List (Name × Name)}
    (own : ∀ t a, (t, a) ∈ assigned → ⟨a, [.terminal t]⟩ ∈ h.productions) (form : List Symbol) :
    h.Derives (form.map (replace assigned)) form := by
  induction form with
  | nil => exact .refl _
  | cons s form ih =>
    have head : h.Derives [replace assigned s] [s] := by
      cases s with
      | nonterminal a => exact .refl _
      | terminal t =>
        cases found : assigned.lookup t with
        | none =>
          simp only [replace, found]
          exact .refl _
        | some a =>
          simp only [replace, found]
          exact Grammar.derives_of_mem (own t a (mem_of_lookup found))
    exact head.append ih

theorem derives_substitute {h : Grammar} {assigned : List (Name × Name)}
    (own : ∀ t a, (t, a) ∈ assigned → ⟨a, [.terminal t]⟩ ∈ h.productions) (q : Production) :
    h.Derives (substitute assigned q).rhs q.rhs := by
  unfold substitute
  split
  · exact derives_replaced own q.rhs
  · exact .refl _

theorem substitute_lhs (assigned : List (Name × Name)) (q : Production) : (substitute assigned q).lhs = q.lhs := by
  unfold substitute
  split <;> rfl

theorem substitute_rhs_eq_nil {assigned : List (Name × Name)} {q : Production} :
    (substitute assigned q).rhs = [] ↔ q.rhs = [] := by
  unfold substitute
  split <;> simp

theorem substitute_nil (q : Production) : substitute [] q = q := by
  have kept : replace [] = id := by
    funext s
    cases s <;> rfl
  unfold substitute
  split
  · rw [kept, List.map_id]
  · rfl

section

variable {isolation : Isolation} (distinct : (isolation.assigned.map Prod.snd).Nodup)
include distinct

theorem writeOut_replaced {form : List Symbol}
    (old : ∀ a, .nonterminal a ∈ form → a ∉ isolation.assigned.map Prod.snd) :
    isolation.abbreviations.writeOut (form.map (replace isolation.assigned)) = form := by
  induction form with
  | nil => rfl
  | cons s form ih =>
    have tail := ih fun a member => old a (.tail _ member)
    have head : isolation.abbreviations.writeOut [replace isolation.assigned s] = [s] := by
      cases s with
      | nonterminal a =>
        refine Abbreviations.writeOut_of_old fun b member => ?_
        obtain rfl : b = a := by simpa [replace] using member
        rw [names_abbreviations]
        exact old b (.head _)
      | terminal t =>
        cases found : isolation.assigned.lookup t with
        | none =>
          simp only [replace, found]
          rfl
        | some a =>
          simp only [replace, found]
          have stands : (a, [.terminal t]) ∈ isolation.abbreviations :=
            mem_abbreviations.mpr ⟨t, mem_of_lookup found, rfl⟩
          refine (Abbreviations.writeOut_nonterminal a).trans (Abbreviations.meaning_of_mem ?_ stands)
          rwa [names_abbreviations]
    rw [List.map_cons, ← List.singleton_append, Abbreviations.writeOut_append, head, tail]
    rfl

theorem writeOut_substitute {q : Production}
    (old : ∀ a, .nonterminal a ∈ q.rhs → a ∉ isolation.assigned.map Prod.snd) :
    isolation.abbreviations.writeOut (substitute isolation.assigned q).rhs = q.rhs := by
  unfold substitute
  split
  · exact writeOut_replaced distinct old
  · refine Abbreviations.writeOut_of_old fun a member => ?_
    rw [names_abbreviations]
    exact old a member

end

end Isolation

namespace Grammar

variable {g : Grammar} {supply : NameSupply} {stem : String}

theorem isolateTerminals_named (g : Grammar) (supply : NameSupply) (stem : String) :
    (g.isolateTerminals supply stem).Named g g.innerTerminals := by
  have named := (Isolation.Named.nil g supply).foldl stem g.innerTerminals
  exact ⟨named.start, named.terminals, named.nonterminals, named.keys, named.keysDistinct, named.distinct,
    named.fresh, named.nonempty⟩

theorem mem_isolateTerminals {p : Production} : p ∈ (g.isolateTerminals supply stem).grammar.productions ↔
    (∃ q ∈ g.productions, Isolation.substitute (g.isolateTerminals supply stem).assigned q = p) ∨
      ∃ t a, (t, a) ∈ (g.isolateTerminals supply stem).assigned ∧ p = ⟨a, [.terminal t]⟩ := by
  simp only [isolateTerminals, mem_withProductions, List.mem_append, List.mem_map, Std.ExtTreeSet.mem_toList,
    Prod.exists, eq_comm]

theorem mem_innerTerminals {t : Name} :
    t ∈ g.innerTerminals ↔ ∃ q ∈ g.productions, 2 ≤ q.rhs.length ∧ .terminal t ∈ q.rhs := by
  simp only [innerTerminals, List.mem_filterMap, List.mem_flatMap, List.mem_filter, Std.ExtTreeSet.mem_toList,
    decide_eq_true_eq]
  constructor
  · intro found
    obtain ⟨s, ⟨q, ⟨stored, long⟩, member⟩, name⟩ := found
    cases s with
    | nonterminal a => cases name
    | terminal u =>
      cases name
      exact ⟨q, stored, long, member⟩
  · intro found
    obtain ⟨q, stored, long, member⟩ := found
    exact ⟨_, ⟨q, ⟨stored, long⟩, member⟩, rfl⟩

/-- Without terminals inside long right-hand sides there is nothing to isolate. -/
theorem isolateTerminals_eq_self (supply : NameSupply) (stem : String)
    (pure : ∀ q ∈ g.productions, 2 ≤ q.rhs.length → ∀ t, .terminal t ∉ q.rhs) :
    g.isolateTerminals supply stem = ⟨g, supply, []⟩ := by
  have none : g.innerTerminals = [] := by
    rw [List.eq_nil_iff_forall_not_mem]
    intro t member
    obtain ⟨q, stored, long, inside⟩ := mem_innerTerminals.mp member
    exact pure q stored long t inside
  have unchanged : g.withoutProductions.withProductions g.productions.toList = g := withProductions_toList g
  simp only [isolateTerminals, none, List.foldl_nil, List.map_nil, List.append_nil]
  rw [funext Isolation.substitute_nil, List.map_id', unchanged]

/-- Isolation keeps short productions and leaves no terminal in the others, beside those that it
adds for single terminals. -/
theorem exists_of_mem_isolateTerminals {p : Production}
    (stored : p ∈ (g.isolateTerminals supply stem).grammar.productions) : p ∈ g.productions ∧ p.rhs.length < 2 ∨
      (∃ t, p.rhs = [.terminal t]) ∨ 2 ≤ p.rhs.length ∧ ∀ s ∈ p.rhs, ∃ a, s = .nonterminal a := by
  have named := isolateTerminals_named g supply stem
  rcases mem_isolateTerminals.mp stored with ⟨q, inG, rfl⟩ | ⟨t, a, _, rfl⟩
  · by_cases long : 2 ≤ q.rhs.length
    · rw [Isolation.substitute, if_pos long]
      refine .inr (.inr ⟨by simpa using long, fun s member => ?_⟩)
      obtain ⟨symbol, inside, rfl⟩ := List.mem_map.mp member
      cases symbol with
      | nonterminal a => exact ⟨a, rfl⟩
      | terminal t =>
        have known := (named.keys t).mpr (mem_innerTerminals.mpr ⟨q, inG, long, inside⟩)
        obtain ⟨a, found⟩ := Option.isSome_iff_exists.mp (Isolation.lookup_isSome_iff.mpr known)
        exact ⟨a, by simp [Isolation.replace, found]⟩
    · rw [Isolation.substitute, if_neg long]
      exact .inl ⟨inG, by omega⟩
  · exact .inr (.inl ⟨t, rfl⟩)

theorem own_mem_isolateTerminals {t a : Name} (member : (t, a) ∈ (g.isolateTerminals supply stem).assigned) :
    ⟨a, [.terminal t]⟩ ∈ (g.isolateTerminals supply stem).grammar.productions :=
  mem_isolateTerminals.mpr (.inr ⟨t, a, member, rfl⟩)

theorem substitute_mem_isolateTerminals {q : Production} (stored : q ∈ g.productions) (supply : NameSupply)
    (stem : String) : Isolation.substitute (g.isolateTerminals supply stem).assigned q ∈
    (g.isolateTerminals supply stem).grammar.productions :=
  mem_isolateTerminals.mpr (.inl ⟨q, stored, rfl⟩)

/-- With the nonterminal of an inner terminal, the production around it can be written back but
for that terminal. -/
theorem isolated_in_context {q : Production} (stored : q ∈ g.productions) (long : 2 ≤ q.rhs.length) {t a : Name}
    {before after : List Symbol} (inside : q.rhs = before ++ .terminal t :: after)
    (member : (t, a) ∈ (g.isolateTerminals supply stem).assigned) :
    (g.isolateTerminals supply stem).grammar.Derives [.nonterminal q.lhs] (before ++ .nonterminal a :: after) := by
  have first := derives_of_mem (substitute_mem_isolateTerminals stored supply stem)
  have found := Isolation.lookup_of_mem (isolateTerminals_named g supply stem).keysDistinct member
  rw [Isolation.substitute_lhs, Isolation.substitute, if_pos long, inside, List.map_append, List.map_cons,
    Isolation.replace, found] at first
  have back (form : List Symbol) : (g.isolateTerminals supply stem).grammar.Derives
      (form.map (Isolation.replace (g.isolateTerminals supply stem).assigned)) form :=
    Isolation.derives_replaced (fun t a => own_mem_isolateTerminals) form
  exact first.trans ((back before).append ((Derives.refl [.nonterminal a]).append (back after)))

theorem solid_derives_isolateTerminals {p : Production} (stored : p ∈ g.productions) (nonempty : p.rhs ≠ [])
    (supply : NameSupply) (stem : String) :
    (g.isolateTerminals supply stem).grammar.solid.Derives [.nonterminal p.lhs] p.rhs := by
  have solid := mem_solid.mpr ⟨substitute_mem_isolateTerminals stored supply stem,
    fun empty => nonempty (Isolation.substitute_rhs_eq_nil.mp empty)⟩
  have first := derives_of_mem solid
  rw [Isolation.substitute_lhs] at first
  refine first.trans (Isolation.derives_substitute (fun t a member => ?_) p)
  exact mem_solid.mpr ⟨own_mem_isolateTerminals member, by simp⟩

/-- The production of a terminal's own nonterminal is used where the terminal was replaced. -/
theorem needed_isolateTerminals {p : Production} (stored : p ∈ (g.isolateTerminals supply stem).grammar.productions) :
    ∃ q ∈ g.productions, ∃ before after,
      (g.isolateTerminals supply stem).grammar.Derives [.nonterminal q.lhs] (before ++ .nonterminal p.lhs :: after) ∧
        (g.isolateTerminals supply stem).grammar.Derives (before ++ p.rhs ++ after) q.rhs := by
  have named := isolateTerminals_named g supply stem
  rcases mem_isolateTerminals.mp stored with ⟨q, inG, rfl⟩ | ⟨t, a, member, rfl⟩
  · refine ⟨q, inG, [], [], ?_, ?_⟩
    · rw [Isolation.substitute_lhs]
      exact .refl _
    · simpa using Isolation.derives_substitute (fun t a => own_mem_isolateTerminals) q
  · obtain ⟨q, inG, long, inside⟩ := mem_innerTerminals.mp ((named.keys t).mp (List.mem_map_of_mem member))
    obtain ⟨before, after, split⟩ := List.append_of_mem inside
    refine ⟨q, inG, before, after, isolated_in_context inG long split member, ?_⟩
    rw [split, List.append_assoc]
    exact .refl _

theorem Coherent.isolateTerminals (coherent : g.Coherent) (supply : NameSupply) (stem : String) :
    (g.isolateTerminals supply stem).grammar.Coherent := by
  have named := isolateTerminals_named g supply stem
  constructor
  case start =>
    rw [named.start, named.nonterminals]
    exact .inl coherent.start
  case heads =>
    intro p stored
    rw [named.nonterminals]
    rcases mem_isolateTerminals.mp stored with ⟨q, inG, rfl⟩ | ⟨t, a, member, rfl⟩
    · rw [Isolation.substitute_lhs]
      exact .inl (coherent.heads q inG)
    · exact .inr (List.mem_map_of_mem member)

section

variable (closed : g.Closed) (supply : NameSupply) (stem : String)
include closed

theorem not_mem_assigned {q : Production} (stored : q ∈ g.productions) {a : Name} (mentioned : .nonterminal a ∈ q.rhs) :
    a ∉ (g.isolateTerminals supply stem).assigned.map Prod.snd := fun isNew => by
  have unused := (isolateTerminals_named g supply stem).fresh a isNew
  exact (usesName_eq_false_iff.mp unused).2 (closed.mentioned q stored a mentioned)

theorem written_isolateTerminals {q : Production} (stored : q ∈ g.productions) :
    (g.isolateTerminals supply stem).abbreviations.written
      (Isolation.substitute (g.isolateTerminals supply stem).assigned q) = q := by
  have rest := Isolation.writeOut_substitute (isolateTerminals_named g supply stem).distinct
    fun _ => not_mem_assigned closed supply stem stored
  rw [Abbreviations.written, Isolation.substitute_lhs, rest]

/-- Isolation abbreviates terminals and does nothing else. -/
theorem isolateTerminals_abbreviated :
    Abbreviated g (g.isolateTerminals supply stem).grammar (g.isolateTerminals supply stem).abbreviations := by
  have named := isolateTerminals_named g supply stem
  constructor
  case start => exact named.start
  case terminals => exact named.terminals
  case nonterminals =>
    rw [Isolation.names_abbreviations]
    exact named.nonterminals
  case distinct =>
    rw [Isolation.names_abbreviations]
    exact named.distinct
  case fresh =>
    rw [Isolation.names_abbreviations]
    exact named.fresh
  case parts =>
    intro a form member
    obtain ⟨t, assigned, rfl⟩ := Isolation.mem_abbreviations.mp member
    obtain ⟨q, stored, _, inside⟩ := mem_innerTerminals.mp ((named.keys t).mp (List.mem_map_of_mem assigned))
    exact ⟨q, stored, by simpa using inside⟩
  case epsilon =>
    intro p stored empty
    have kept := substitute_mem_isolateTerminals stored supply stem
    rwa [Isolation.substitute, if_neg (by simp [empty])] at kept
  case replayed => exact fun p stored nonempty => solid_derives_isolateTerminals stored nonempty supply stem
  case writtenOut =>
    intro p stored
    rcases mem_isolateTerminals.mp stored with ⟨q, inG, rfl⟩ | ⟨t, a, member, rfl⟩
    · refine .inr ?_
      change Abbreviations.written _ _ ∈ _
      rwa [written_isolateTerminals closed supply stem inG]
    · exact .inl (Isolation.mem_abbreviations.mpr ⟨t, member, rfl⟩)
  case needed => exact fun p stored => needed_isolateTerminals stored
  case defined =>
    intro a member
    rw [Isolation.names_abbreviations] at member
    obtain ⟨⟨t, b⟩, assigned, rfl⟩ := List.mem_map.mp member
    exact ⟨_, own_mem_isolateTerminals assigned, rfl⟩

end

theorem WellFormed.isolateTerminals (formed : g.WellFormed) (supply : NameSupply) (stem : String) :
    (g.isolateTerminals supply stem).grammar.WellFormed := by
  have named := isolateTerminals_named g supply stem
  refine (isolateTerminals_abbreviated formed.toClosed supply stem).wellFormed formed fun a member => ?_
  rw [Isolation.names_abbreviations] at member
  obtain ⟨⟨t, b⟩, assigned, rfl⟩ := List.mem_map.mp member
  obtain ⟨q, stored, _, inside⟩ := mem_innerTerminals.mp ((named.keys t).mp (List.mem_map_of_mem assigned))
  exact named.nonempty t b assigned (formed.terminal_ne t (formed.letters q stored t inside))

end Grammar

end ContextFree
