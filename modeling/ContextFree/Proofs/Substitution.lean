import ContextFree.Proofs.Operation
import ContextFree.Proofs.Unfolding
import Mathlib.Data.Set.Card

namespace ContextFree

/-- The nonterminal of a terminal; nonterminals stay as they are. -/
def Symbol.isolate (own : Name → Name) : Symbol → Symbol
  | .terminal t => .nonterminal (own t)
  | .nonterminal a => .nonterminal a

/-- Replaces the terminals of a right-hand side of two or more symbols. -/
def Production.isolate (own : Name → Name) (p : Production) : Production :=
  if 2 ≤ p.rhs.length then ⟨p.lhs, p.rhs.map (Symbol.isolate own)⟩ else p

namespace Isolation

/-- The nonterminal of an isolated terminal. -/
def own (isolation : Isolation) (t : Name) : Name :=
  (isolation.assigned.lookup t).getD t

variable {isolation : Isolation} {t a : Name}

theorem own_of_mem (distinct : (isolation.assigned.map Prod.fst).Nodup) (member : (t, a) ∈ isolation.assigned) :
    isolation.own t = a := by
  rw [own, lookup_of_mem distinct member, Option.getD_some]

theorem mem_assigned_own (known : t ∈ isolation.assigned.map Prod.fst) : (t, isolation.own t) ∈ isolation.assigned := by
  obtain ⟨b, found⟩ := Option.isSome_iff_exists.mp (lookup_isSome_iff.mpr known)
  rw [own, found]
  exact mem_of_lookup found

theorem Named.usesName_eq_false_iff {g : Grammar} {met : List Name} (named : isolation.Named g met) {a : Name} :
    isolation.grammar.usesName a = false ↔ g.usesName a = false ∧ a ∉ isolation.assigned.map Prod.snd := by
  rw [Grammar.usesName_eq_false_iff, Grammar.usesName_eq_false_iff, named.terminals, named.nonterminals, not_or,
    and_assoc]

/-- A terminal that has no nonterminal yet is given one at the end of the list. -/
theorem assigned_assign (stem : String) (isNew : t ∉ isolation.assigned.map Prod.fst) :
    (assign stem isolation t).assigned =
      isolation.assigned ++ [(t, (isolation.supply.mintNamed isolation.grammar (stem ++ t)).name)] := by
  rw [assign, if_neg (mt lookup_isSome_iff.mp isNew)]

end Isolation

namespace Grammar

/-- The terminal stands in a right-hand side of two or more symbols. -/
def Inner (g : Grammar) (t : Name) : Prop :=
  ∃ q ∈ g.productions, 2 ≤ q.rhs.length ∧ .terminal t ∈ q.rhs

variable {g : Grammar} {supply : NameSupply} {stem : String}

theorem mem_assigned_iff {t a : Name} : (t, a) ∈ (g.isolateTerminals supply stem).assigned ↔
    g.Inner t ∧ (g.isolateTerminals supply stem).own t = a := by
  have named := isolateTerminals_named g supply stem
  have keys : t ∈ (g.isolateTerminals supply stem).assigned.map Prod.fst ↔ g.Inner t :=
    (named.keys t).trans mem_innerTerminals
  rw [← keys]
  constructor
  · intro member
    exact ⟨List.mem_map_of_mem member, Isolation.own_of_mem named.keysDistinct member⟩
  · intro found
    obtain ⟨known, rfl⟩ := found
    exact Isolation.mem_assigned_own known

theorem own_injOn : Set.InjOn (g.isolateTerminals supply stem).own {t | g.Inner t} := by
  intro t first u second same
  have named := isolateTerminals_named g supply stem
  have entries := List.inj_on_of_nodup_map named.distinct (mem_assigned_iff.mpr ⟨first, rfl⟩)
    (mem_assigned_iff.mpr ⟨second, rfl⟩) same
  exact congrArg Prod.fst entries

theorem usesName_own {t : Name} (inner : g.Inner t) : g.usesName ((g.isolateTerminals supply stem).own t) = false :=
  (isolateTerminals_named g supply stem).fresh _ (List.mem_map_of_mem (mem_assigned_iff.mpr ⟨inner, rfl⟩))

/-- A terminal that is met for the first time is named right after those met before it. -/
theorem exists_early (supply : NameSupply) (stem : String) {before after : List Name} {t : Name}
    (met : g.innerTerminals = before ++ t :: after) (isNew : t ∉ before) :
    ∃ early : Isolation, early.Named g before ∧ ∃ more,
      (g.isolateTerminals supply stem).assigned =
        early.assigned ++ [(t, (early.supply.mintNamed early.grammar (stem ++ t)).name)] ++ more := by
  let early := before.foldl (Isolation.assign stem) ⟨g.withoutProductions, supply, []⟩
  have named : early.Named g before := (Isolation.Named.nil g supply).foldl stem before
  obtain ⟨more, later⟩ := Asserted.exists_foldl_assign_assigned stem (Isolation.assign stem early t) after
  rw [Isolation.assigned_assign stem (mt (named.keys t).mp isNew)] at later
  refine ⟨early, named, more, later ▸ ?_⟩
  change (g.innerTerminals.foldl (Isolation.assign stem) _).assigned = _
  rw [met, List.foldl_append, List.foldl_cons]

/-- A terminal that is met for the first time gets the plain name if that is free, and names are
taken by the symbols of the grammar and by the terminals met before. -/
theorem own_eq_iff {before after : List Name} {t : Name} (met : g.innerTerminals = before ++ t :: after)
    (isNew : t ∉ before) : (g.isolateTerminals supply stem).own t = stem ++ t ↔
      g.usesName (stem ++ t) = false ∧ ∀ u ∈ before, (g.isolateTerminals supply stem).own u ≠ stem ++ t := by
  obtain ⟨early, named, more, all⟩ := exists_early supply stem met isNew
  let minted := early.supply.mintNamed early.grammar (stem ++ t)
  have own {u a : Name} (member : (u, a) ∈ early.assigned ++ [(t, minted.name)]) :
      (g.isolateTerminals supply stem).own u = a :=
    (mem_assigned_iff.mp (all ▸ List.mem_append_left more member)).2
  have taken : stem ++ t ∈ early.assigned.map Prod.snd ↔
      ∃ u ∈ before, (g.isolateTerminals supply stem).own u = stem ++ t := by
    constructor
    · intro found
      obtain ⟨⟨u, a⟩, member, same⟩ := List.mem_map.mp found
      have inBefore : u ∈ before := (named.keys u).mp (List.mem_map_of_mem member)
      exact ⟨u, inBefore, (own (List.mem_append_left _ member)).trans same⟩
    · intro found
      obtain ⟨u, inBefore, same⟩ := found
      obtain ⟨⟨u, a⟩, member, rfl⟩ := List.mem_map.mp ((named.keys u).mpr inBefore)
      rw [← same, own (List.mem_append_left _ member)]
      exact List.mem_map_of_mem member
  rw [own (List.mem_append_right _ (.head _)), NameSupply.mintNamed_name_eq_iff, named.usesName_eq_false_iff, taken,
    not_exists]
  simp only [not_and, ne_eq]

theorem substitute_eq_isolate {q : Production} (stored : q ∈ g.productions) :
    Isolation.substitute (g.isolateTerminals supply stem).assigned q =
      q.isolate (g.isolateTerminals supply stem).own := by
  unfold Isolation.substitute Production.isolate
  by_cases long : 2 ≤ q.rhs.length
  · rw [if_pos long, if_pos long]
    refine congrArg (Production.mk q.lhs) (List.map_congr_left fun s member => ?_)
    cases s with
    | nonterminal a => rfl
    | terminal t =>
      have named := isolateTerminals_named g supply stem
      have known := (named.keys t).mpr (mem_innerTerminals.mpr ⟨q, stored, long, member⟩)
      have found := Isolation.lookup_of_mem named.keysDistinct (Isolation.mem_assigned_own known)
      rw [Isolation.replace, found]
      rfl
  · rw [if_neg long, if_neg long]

theorem mem_isolateTerminals_iff {p : Production} : p ∈ (g.isolateTerminals supply stem).grammar.productions ↔
    (∃ q ∈ g.productions, q.isolate (g.isolateTerminals supply stem).own = p) ∨
      ∃ t, g.Inner t ∧ p = ⟨(g.isolateTerminals supply stem).own t, [.terminal t]⟩ := by
  rw [mem_isolateTerminals]
  refine or_congr (exists_congr fun q => and_congr_right fun stored => ?_) (exists_congr fun t => ?_)
  · rw [substitute_eq_isolate stored]
  · simp only [mem_assigned_iff, and_assoc, exists_and_left, exists_eq_left']

section

variable (closed : g.Closed) (supply : NameSupply) (stem : String)
include closed

theorem isolateTerminals_foldings :
    Foldings g (g.isolateTerminals supply stem).grammar (g.isolateTerminals supply stem).abbreviations := by
  have named := isolateTerminals_named g supply stem
  constructor
  case toAbbreviated => exact isolateTerminals_abbreviated closed supply stem
  case nonempty =>
    intro a form stands
    obtain ⟨t, _, rfl⟩ := Isolation.mem_abbreviations.mp stands
    exact List.cons_ne_nil _ _
  case bounded =>
    intro a form stands
    obtain ⟨t, member, rfl⟩ := Isolation.mem_abbreviations.mp stands
    have declared := (named.nonterminals a).mpr (.inr (List.mem_map_of_mem member))
    have some : (g.isolateTerminals supply stem).grammar.nonterminals.size ≠ 0 := by
      rw [Ne, ← Std.ExtTreeSet.eq_empty_iff_size_eq_zero]
      exact Std.ExtTreeSet.ne_empty_of_mem declared
    exact Nat.one_le_iff_ne_zero.mpr some
  case long =>
    intro p stored a isNew inside
    rw [Isolation.names_abbreviations] at isNew
    rcases mem_isolateTerminals.mp stored with ⟨q, inG, rfl⟩ | ⟨u, b, _, rfl⟩
    · unfold Isolation.substitute at inside ⊢
      split at inside
      · rename_i long
        rw [if_pos long]
        simpa using long
      · exact absurd isNew (not_mem_assigned closed supply stem inG inside)
    · simp at inside
  case faithful =>
    -- What stands for a terminal is written out as it is, and has no old left-hand side.
    have apart {q : Production} (inG : q ∈ g.productions) {t a : Name}
        (member : (t, a) ∈ (g.isolateTerminals supply stem).assigned) : q ≠ ⟨a, [.terminal t]⟩ := by
      rintro rfl
      have unused := named.fresh a (List.mem_map_of_mem member)
      exact (usesName_eq_false_iff.mp unused).2 (closed.heads _ inG)
    intro p first q second same
    rcases mem_isolateTerminals.mp first with ⟨p, inG, rfl⟩ | ⟨t, a, member, rfl⟩
    all_goals rcases mem_isolateTerminals.mp second with ⟨q, other, rfl⟩ | ⟨u, b, entry, rfl⟩
    · rw [written_isolateTerminals closed supply stem inG, written_isolateTerminals closed supply stem other] at same
      rw [same]
    · rw [written_isolateTerminals closed supply stem inG] at same
      exact absurd same (apart inG entry)
    · rw [written_isolateTerminals closed supply stem other] at same
      exact absurd same.symm (apart other member)
    · exact same
  case kept =>
    intro q stored
    exact ⟨_, substitute_mem_isolateTerminals stored supply stem, written_isolateTerminals closed supply stem stored⟩

/-- The nonterminal of a terminal has no production but its own. -/
theorem productionsOf_isolated {t a : Name} (member : (t, a) ∈ (g.isolateTerminals supply stem).assigned) :
    (g.isolateTerminals supply stem).grammar.productionsOf a = [⟨a, [.terminal t]⟩] := by
  have isNew : a ∈ (g.isolateTerminals supply stem).abbreviations.names := by
    rw [Isolation.names_abbreviations]
    exact List.mem_map_of_mem member
  have foldings := isolateTerminals_foldings closed supply stem
  obtain ⟨p, _, _, single⟩ := foldings.exists_productionsOf closed.toCoherent isNew
  have listed := mem_productionsOf.mpr ⟨own_mem_isolateTerminals member, rfl⟩
  rw [single] at listed ⊢
  rw [List.mem_singleton.mp listed]

/-- No two productions become equal, and none becomes that of a terminal's own nonterminal. -/
theorem size_isolateTerminals : (g.isolateTerminals supply stem).grammar.productions.size =
    g.productions.size + {t | g.Inner t}.ncard := by
  have named := isolateTerminals_named g supply stem
  have count : {t | g.Inner t}.ncard = (g.isolateTerminals supply stem).assigned.length := by
    have same : {t | g.Inner t} = (((g.isolateTerminals supply stem).assigned.map Prod.fst).toFinset : Set Name) := by
      ext t
      rw [List.coe_toFinset, Set.mem_ofPred_eq, Set.mem_ofPred_eq]
      exact ((named.keys t).trans mem_innerTerminals).symm
    rw [same, Set.ncard_coe_finset, List.toFinset_card_of_nodup named.keysDistinct, List.length_map]
  have size := (isolateTerminals_foldings closed supply stem).size_productions closed.toCoherent
  rw [size, count, Isolation.abbreviations, List.length_map]

end

/-- Isolation replaces each inner terminal by one nonterminal of its own, under the name that was asked
for if that is still free, and adds the single production of that nonterminal. Nothing else is changed,
so that unfolding the new nonterminals gives the grammar back. -/
theorem Built.isolateTerminals_exact (built : g.Built)
    (mentioned : ∀ p ∈ g.productions, ∀ a, .nonterminal a ∈ p.rhs → a ∈ g.nonterminals)
    (supply : NameSupply) (stem : String) :
    Asserted.isolateTerminals g supply stem = .ok (g.isolateTerminals supply stem) ∧
      (g.isolateTerminals supply stem).grammar.unfolded g.nonterminals = g ∧
      (g.isolateTerminals supply stem).grammar.productions.size = g.productions.size + {t | g.Inner t}.ncard ∧
      ∃ own : Name → Name, Set.InjOn own {t | g.Inner t} ∧ (∀ t, g.Inner t → g.usesName (own t) = false) ∧
        (∀ p, p ∈ (g.isolateTerminals supply stem).grammar.productions ↔
          (∃ q ∈ g.productions, q.isolate own = p) ∨ ∃ t, g.Inner t ∧ p = ⟨own t, [.terminal t]⟩) ∧
        (∀ t, g.Inner t → (g.isolateTerminals supply stem).grammar.productionsOf (own t) = [⟨own t, [.terminal t]⟩]) ∧
        (∀ a, a ∈ (g.isolateTerminals supply stem).grammar.nonterminals ↔
          a ∈ g.nonterminals ∨ ∃ t, g.Inner t ∧ own t = a) ∧
        (g.isolateTerminals supply stem).grammar.terminals = g.terminals ∧
        (g.isolateTerminals supply stem).grammar.start = g.start ∧
        ∀ before t after, g.innerTerminals = before ++ t :: after → t ∉ before →
          (own t = stem ++ t ↔ g.usesName (stem ++ t) = false ∧ ∀ u ∈ before, own u ≠ stem ++ t) := by
  have closed : g.Closed := ⟨built.coherent, mentioned⟩
  have named := isolateTerminals_named g supply stem
  refine ⟨Asserted.isolateTerminals_eq built.coherent supply stem,
    (isolateTerminals_foldings closed supply stem).unfolded_eq built.coherent,
    size_isolateTerminals closed supply stem, (g.isolateTerminals supply stem).own, own_injOn,
    fun _ => usesName_own, fun _ => mem_isolateTerminals_iff, ?_, ?_, named.terminals, named.start, ?_⟩
  · intro t inner
    exact productionsOf_isolated closed supply stem (mem_assigned_iff.mpr ⟨inner, rfl⟩)
  · intro a
    rw [named.nonterminals]
    refine or_congr_right (Iff.trans ?_ (exists_congr fun t => mem_assigned_iff))
    simp
  · intro before t after met isNew
    exact own_eq_iff met isNew

/-- Sums in prefix form. One operator is not declared as a terminal, so that its plain name is free. -/
def prefixed : Grammar :=
  (ofStart "E").after [.declareTerminal "+", .declareTerminal "x", .addProduction ⟨"E", [.terminal "x"]⟩,
    .addProduction ⟨"E", [.terminal "+", .nonterminal "E", .nonterminal "E"]⟩,
    .addProduction ⟨"E", [.terminal "*", .nonterminal "E", .terminal "x"]⟩]

theorem prefixed_isolateTerminals : prefixed.Built ∧
    (prefixed.isolateTerminals (.ofStem "X") "").grammar.unfolded prefixed.nonterminals = prefixed ∧
    ∃ own : Name → Name, own "*" = "*" ∧ own "+" ≠ "+" ∧
      (prefixed.isolateTerminals (.ofStem "X") "").grammar.productionsOf (own "+") = [⟨own "+", [.terminal "+"]⟩] := by
  have built : prefixed.Built := ⟨_, _, .ofStart _, rfl⟩
  have known : ∀ p ∈ prefixed.productions.toList, p.rhs.all (·.within true prefixed.nonterminals) = true := by
    decide +kernel
  have mentioned : ∀ p ∈ prefixed.productions, ∀ a, .nonterminal a ∈ p.rhs → a ∈ prefixed.nonterminals := by
    intro p stored a member
    exact List.all_eq_true.mp (known p (Std.ExtTreeSet.mem_toList.mpr stored)) _ member
  have met : prefixed.innerTerminals = ["*", "x", "+"] := by decide +kernel
  have inner : prefixed.Inner "+" := mem_innerTerminals.mp (met ▸ by simp)
  obtain ⟨_, back, _, own, _, fresh, _, single, _, _, _, plain⟩ :=
    built.isolateTerminals_exact mentioned (.ofStem "X") ""
  have free : prefixed.usesName "*" = false := by decide +kernel
  have taken : prefixed.usesName "+" = true := by decide +kernel
  have kept : own "*" = "*" := (plain [] "*" ["x", "+"] met (by simp)).mpr ⟨free, by simp⟩
  refine ⟨built, back, own, kept, fun same => ?_, single "+" inner⟩
  have unused := fresh "+" inner
  rw [same, taken] at unused
  cases unused

end Grammar

end ContextFree
