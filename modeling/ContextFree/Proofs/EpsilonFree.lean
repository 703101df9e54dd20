import ContextFree.EpsilonFree
import ContextFree.Proofs.Abbreviation
import ContextFree.Proofs.Absorption

namespace ContextFree

theorem mem_variants_cons {nullable : NameSet} {s : Symbol} {rest variant : List Symbol} :
    variant ∈ variants nullable (s :: rest) ↔ (∃ shorter ∈ variants nullable rest, s :: shorter = variant) ∨
      s.within false nullable = true ∧ variant ∈ variants nullable rest := by
  rw [variants]
  split
  · rename_i inside
    simp [Std.ExtTreeSet.mem_union_iff, inside]
  · rename_i outside
    simp [outside]

theorem mem_variants_nil {nullable : NameSet} {variant : List Symbol} :
    variant ∈ variants nullable [] ↔ variant = [] := by
  rw [variants, FiniteSet.mem_singleton_iff]

/-- A variant is what is left when symbols are left out. -/
theorem sublist_of_mem_variants {nullable : NameSet} {form variant : List Symbol}
    (member : variant ∈ variants nullable form) : variant.Sublist form := by
  induction form generalizing variant with
  | nil => exact mem_variants_nil.mp member ▸ .slnil
  | cons s rest ih =>
    rcases mem_variants_cons.mp member with ⟨shorter, inRest, rfl⟩ | ⟨_, inRest⟩
    · exact (ih inRest).cons_cons s
    · exact (ih inRest).cons s

section

variable {nullable : NameSet}

theorem self_mem_variants (form : List Symbol) : form ∈ variants nullable form := by
  induction form with
  | nil => exact mem_variants_nil.mpr rfl
  | cons s rest ih => exact mem_variants_cons.mpr (.inl ⟨rest, ih, rfl⟩)

/-- Leaving out symbols twice is leaving them out once. -/
theorem mem_variants_trans {form variant shorter : List Symbol} (first : variant ∈ variants nullable form)
    (second : shorter ∈ variants nullable variant) : shorter ∈ variants nullable form := by
  induction form generalizing variant shorter with
  | nil =>
    rw [mem_variants_nil] at first
    rwa [first] at second
  | cons s rest ih =>
    rcases mem_variants_cons.mp first with ⟨kept, inRest, rfl⟩ | ⟨inside, inRest⟩
    · rcases mem_variants_cons.mp second with ⟨further, inKept, rfl⟩ | ⟨inside, inKept⟩
      · exact mem_variants_cons.mpr (.inl ⟨further, ih inRest inKept, rfl⟩)
      · exact mem_variants_cons.mpr (.inr ⟨inside, ih inRest inKept⟩)
    · exact mem_variants_cons.mpr (.inr ⟨inside, ih inRest second⟩)

theorem Symbol.within_mono {known more : NameSet} (subset : ∀ a ∈ known, a ∈ more) {terminals : Bool} {s : Symbol}
    (inside : s.within terminals known = true) : s.within terminals more = true := by
  cases s with
  | terminal t => exact inside
  | nonterminal a =>
    rw [Symbol.within, Std.ExtTreeSet.contains_iff_mem] at inside ⊢
    exact subset a inside

theorem mem_variants_mono {more : NameSet} (subset : ∀ a ∈ nullable, a ∈ more) {form variant : List Symbol}
    (member : variant ∈ variants nullable form) : variant ∈ variants more form := by
  induction form generalizing variant with
  | nil => exact mem_variants_nil.mpr (mem_variants_nil.mp member)
  | cons s rest ih =>
    rcases mem_variants_cons.mp member with ⟨shorter, inRest, rfl⟩ | ⟨inside, inRest⟩
    · exact mem_variants_cons.mpr (.inl ⟨shorter, ih inRest, rfl⟩)
    · exact mem_variants_cons.mpr (.inr ⟨Symbol.within_mono subset inside, ih inRest⟩)

/-- Where nothing can be left out there is one variant. -/
theorem eq_of_mem_variants {form variant : List Symbol} (none : ∀ s ∈ form, s.within false nullable = false)
    (member : variant ∈ variants nullable form) : variant = form := by
  induction form generalizing variant with
  | nil => exact mem_variants_nil.mp member
  | cons s rest ih =>
    rcases mem_variants_cons.mp member with ⟨shorter, inRest, rfl⟩ | ⟨inside, _⟩
    · rw [ih (fun t later => none t (.tail _ later)) inRest]
    · rw [none s (.head _)] at inside
      cases inside

theorem nullablePositions_le {more : NameSet} (subset : ∀ a ∈ nullable, a ∈ more) {form variant : List Symbol}
    (sublist : variant.Sublist form) : nullablePositions nullable variant ≤ nullablePositions more form := by
  calc nullablePositions nullable variant
      ≤ nullablePositions nullable form := sublist.countP_le
    _ ≤ nullablePositions more form := List.countP_mono_left fun _ _ => Symbol.within_mono subset

end

namespace Grammar

variable {g out : Grammar}

theorem expansionFaults_eq_nil_iff {nullable : NameSet} {limit : Nat} {productions : List Production} :
    expansionFaults nullable limit productions = [] ↔
      ∀ p ∈ productions, nullablePositions nullable p.rhs ≤ min limit expansionCap := by
  unfold expansionFaults
  rw [List.filterMap_eq_nil_iff]
  refine forall_congr' fun p => imp_congr_right fun _ => ?_
  by_cases exceeds : min limit expansionCap < nullablePositions nullable p.rhs
  · simp only [if_pos exceeds, reduceCtorEq, false_iff]
    omega
  · simp only [if_neg exceeds, true_iff]
    omega

theorem checkExpansion_eq_ok_iff {limit : Nat} : g.checkExpansion limit = .ok () ↔
    ∀ p ∈ g.productions, nullablePositions g.nullable p.rhs ≤ min limit expansionCap := by
  unfold checkExpansion
  rw [raise_eq_ok_iff, expansionFaults_eq_nil_iff]
  simp only [Std.ExtTreeSet.mem_toList]

theorem checkExpansion_mono {small large : Nat} (le : small ≤ large) (limited : g.checkExpansion small = .ok ()) :
    g.checkExpansion large = .ok () := by
  rw [checkExpansion_eq_ok_iff] at limited ⊢
  intro p stored
  have bound := limited p stored
  omega

theorem checkExpansion_of_short {limit : Nat} (short : ∀ p ∈ g.productions, p.rhs.length ≤ min limit expansionCap) :
    g.checkExpansion limit = .ok () :=
  checkExpansion_eq_ok_iff.mpr fun p stored => Nat.le_trans List.countP_le_length (short p stored)

/-- The cap that the pass looks at by itself is at least as high as any limit. -/
theorem exists_withoutEpsilon {limit : Nat} (limited : g.checkExpansion limit = .ok ()) :
    ∃ out, g.withoutEpsilon = .ok out := by
  have capped : GrammarError.raise
      (expansionFaults g.nullable expansionCap (g.productions.toList.filter (!·.isEpsilon))) = .ok () := by
    rw [raise_eq_ok_iff, expansionFaults_eq_nil_iff]
    intro p member
    have stored : p ∈ g.productions := Std.ExtTreeSet.mem_toList.mp (List.mem_filter.mp member).1
    have bound := checkExpansion_eq_ok_iff.mp limited p stored
    omega
  exact ⟨_, bind_eq_ok_iff.mpr ⟨(), capped, rfl⟩⟩

theorem derives_variant {form variant : List Symbol} (member : variant ∈ variants g.nullable form) :
    g.Derives form variant := by
  induction form generalizing variant with
  | nil =>
    rw [mem_variants_nil.mp member]
    exact .refl _
  | cons s rest ih =>
    rcases mem_variants_cons.mp member with ⟨shorter, inRest, rfl⟩ | ⟨inside, inRest⟩
    · exact (Derives.refl [s]).append (ih inRest)
    · cases s with
      | terminal t => cases inside
      | nonterminal a =>
        have erased := mem_nullable_iff.mp (Std.ExtTreeSet.contains_iff_mem.mp inside)
        exact erased.derives.append (ih inRest)

theorem withoutEpsilon_eq (ran : g.withoutEpsilon = .ok out) :
    out = g.withProductions ((g.productions.toList.filter (!·.isEpsilon)).flatMap (nonemptyVariants g.nullable) ++
      if g.nullable.contains g.start then [⟨g.start, []⟩] else []) := by
  obtain ⟨_, _, result⟩ := bind_eq_ok_iff.mp ran
  exact (Except.ok.inj result).symm

theorem mem_nonemptyVariants {nullable : NameSet} {p q : Production} :
    p ∈ nonemptyVariants nullable q ↔ p.lhs = q.lhs ∧ p.rhs ∈ variants nullable q.rhs ∧ p.rhs ≠ [] := by
  obtain ⟨lhs, rhs⟩ := p
  simp only [nonemptyVariants, List.mem_map, List.mem_filter, Std.ExtTreeSet.mem_toList, Production.mk.injEq]
  constructor
  · intro found
    obtain ⟨variant, ⟨member, nonempty⟩, rfl, rfl⟩ := found
    exact ⟨rfl, member, by simpa using nonempty⟩
  · intro found
    obtain ⟨rfl, member, nonempty⟩ := found
    exact ⟨rhs, ⟨member, by simpa using nonempty⟩, rfl, rfl⟩

section

variable (ran : g.withoutEpsilon = .ok out)
include ran

theorem withoutEpsilon_nonterminals : out.nonterminals = g.nonterminals := by
  rw [withoutEpsilon_eq ran, withProductions]

theorem withoutEpsilon_terminals : out.terminals = g.terminals := by
  rw [withoutEpsilon_eq ran, withProductions]

theorem withoutEpsilon_start : out.start = g.start := by
  rw [withoutEpsilon_eq ran, withProductions]

/-- The productions are the non-empty variants, and an ε-production of a nullable start symbol. -/
theorem mem_withoutEpsilon {p : Production} : p ∈ out.productions ↔
    (p.rhs ≠ [] ∧ ∃ q ∈ g.productions, p.lhs = q.lhs ∧ p.rhs ∈ variants g.nullable q.rhs) ∨
      p = ⟨g.start, []⟩ ∧ g.start ∈ g.nullable := by
  rw [withoutEpsilon_eq ran, mem_withProductions, List.mem_append, List.mem_flatMap]
  simp only [mem_nonemptyVariants, List.mem_filter, Std.ExtTreeSet.mem_toList]
  refine or_congr ⟨?_, ?_⟩ ?_
  · intro found
    obtain ⟨q, ⟨stored, _⟩, same, member, nonempty⟩ := found
    exact ⟨nonempty, q, stored, same, member⟩
  · intro found
    obtain ⟨nonempty, q, stored, same, member⟩ := found
    refine ⟨q, ⟨stored, ?_⟩, same, member, nonempty⟩
    -- The empty right-hand side has no other variant than itself.
    by_cases empty : q.rhs = []
    · rw [empty, mem_variants_nil] at member
      exact absurd member nonempty
    · simpa [Production.isEpsilon] using empty
  · by_cases nullable : g.start ∈ g.nullable <;> simp [nullable]

theorem rhs_eq_nil_of_mem_withoutEpsilon {p : Production} (stored : p ∈ out.productions) (empty : p.rhs = []) :
    p.lhs = out.start := by
  rcases (mem_withoutEpsilon ran).mp stored with ⟨nonempty, _⟩ | ⟨rfl, _⟩
  · exact absurd empty nonempty
  · exact (withoutEpsilon_start ran).symm

theorem start_epsilon_iff : ⟨out.start, []⟩ ∈ out.productions ↔ g.Accepts [] := by
  rw [mem_withoutEpsilon ran, withoutEpsilon_start ran, mem_nullable_iff, Accepts, generates_iff_yields]
  simp

theorem derives_of_withoutEpsilon {form last : List Symbol} (derivation : out.Derives form last) :
    g.Derives form last := by
  refine derivation.replay fun p stored => ?_
  rcases (mem_withoutEpsilon ran).mp stored with ⟨_, q, inG, same, member⟩ | ⟨rfl, nullable⟩
  · rw [same]
    exact (derives_of_mem inG).trans (derives_variant member)
  · exact (mem_nullable_iff.mp nullable).derives

/-- Every word of a form is a word of one of its variants, without any ε-production: the variant
leaves out the nonterminals that contribute nothing to the word. -/
theorem Yields.exists_variant {form : List Symbol} {word : List Name} (yields : g.Yields form word) :
    ∃ variant ∈ variants g.nullable form, out.solid.Yields variant word := by
  induction yields with
  | nil => exact ⟨[], mem_variants_nil.mpr rfl, .nil⟩
  | terminal _ ih =>
    obtain ⟨variant, member, rest⟩ := ih
    exact ⟨_, mem_variants_cons.mpr (.inl ⟨variant, member, rfl⟩), .terminal rest⟩
  | @nonterminal a rhs form inner word stored yields _ ihInner ihRest =>
    obtain ⟨variant, member, rest⟩ := ihRest
    obtain ⟨shorter, inRhs, head⟩ := ihInner
    by_cases empty : inner = []
    · subst empty
      have nullable : a ∈ g.nullable := mem_nullable_iff.mpr (.of_mem stored yields)
      exact ⟨variant, mem_variants_cons.mpr (.inr ⟨by simpa [Symbol.within] using nullable, member⟩), rest⟩
    · have nonempty : shorter ≠ [] := by
        intro same
        subst same
        exact empty (yields_nil_iff.mp head)
      have kept : ⟨a, shorter⟩ ∈ out.solid.productions :=
        mem_solid.mpr ⟨(mem_withoutEpsilon ran).mpr (.inl ⟨nonempty, _, stored, rfl, inRhs⟩), nonempty⟩
      exact ⟨_, mem_variants_cons.mpr (.inl ⟨variant, member, rfl⟩), .nonterminal kept head rest⟩

/-- A nonterminal keeps its non-empty words, and they need no ε-production. -/
theorem withoutEpsilon_solid_generates {a : Name} {word : List Name} (nonempty : word ≠ [])
    (generates : g.Generates a word) : out.solid.Generates a word := by
  obtain ⟨variant, member, yields⟩ := (generates_iff_yields.mp generates).exists_variant ran
  rcases mem_variants_cons.mp member with ⟨shorter, inRest, rfl⟩ | ⟨_, inRest⟩
  · rw [mem_variants_nil.mp inRest] at yields
    exact generates_iff_yields.mpr yields
  · rw [mem_variants_nil.mp inRest] at yields
    exact absurd (yields_nil_iff.mp yields) nonempty

theorem Coherent.withoutEpsilon (coherent : g.Coherent) : out.Coherent where
  start := by
    rw [withoutEpsilon_start ran, withoutEpsilon_nonterminals ran]
    exact coherent.start
  heads p stored := by
    rw [withoutEpsilon_nonterminals ran]
    rcases (mem_withoutEpsilon ran).mp stored with ⟨_, q, inG, same, _⟩ | ⟨rfl, _⟩
    · exact same ▸ coherent.heads q inG
    · exact coherent.start

theorem exists_mem_of_mem_withoutEpsilon {p : Production} (stored : p ∈ out.productions) {s : Symbol}
    (member : s ∈ p.rhs) : ∃ q ∈ g.productions, s ∈ q.rhs := by
  rcases (mem_withoutEpsilon ran).mp stored with ⟨_, q, inG, _, inVariants⟩ | ⟨rfl, _⟩
  · exact ⟨q, inG, (sublist_of_mem_variants inVariants).subset member⟩
  · cases member

theorem WellFormed.withoutEpsilon (formed : g.WellFormed) : out.WellFormed where
  toCoherent := formed.toCoherent.withoutEpsilon ran
  mentioned p stored a member := by
    obtain ⟨q, inG, inside⟩ := exists_mem_of_mem_withoutEpsilon ran stored member
    exact withoutEpsilon_nonterminals ran ▸ formed.mentioned q inG a inside
  letters p stored t member := by
    obtain ⟨q, inG, inside⟩ := exists_mem_of_mem_withoutEpsilon ran stored member
    exact withoutEpsilon_terminals ran ▸ formed.letters q inG t inside
  disjoint := withoutEpsilon_terminals ran ▸ withoutEpsilon_nonterminals ran ▸ formed.disjoint
  terminal_ne := withoutEpsilon_terminals ran ▸ formed.terminal_ne
  nonterminal_ne := withoutEpsilon_nonterminals ran ▸ formed.nonterminal_ne

end

end Grammar

end ContextFree
