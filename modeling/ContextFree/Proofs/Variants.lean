import ContextFree.Proofs.Masks
import ContextFree.Proofs.Words
import Mathlib.Data.Finset.Insert

namespace ContextFree

/-- What is left of a form, its first symbol being at `first`, without the symbols at some positions. -/
def withoutPositions (dropped : Finset Nat) (first : Nat) (form : List Symbol) : List Symbol :=
  ((form.zipIdx first).filter fun entry => entry.2 ∉ dropped).map Prod.fst

section

variable {dropped : Finset Nat} {first : Nat}

theorem withoutPositions_cons_of_mem (here : first ∈ dropped) (s : Symbol) (rest : List Symbol) :
    withoutPositions dropped first (s :: rest) = withoutPositions dropped (first + 1) rest := by
  simp [withoutPositions, here]

theorem withoutPositions_cons_of_not_mem (kept : first ∉ dropped) (s : Symbol) (rest : List Symbol) :
    withoutPositions dropped first (s :: rest) = s :: withoutPositions dropped (first + 1) rest := by
  simp [withoutPositions, kept]

/-- Positions in front of a form say nothing about it. -/
theorem withoutPositions_insert_of_lt {i : Nat} (before : i < first) (form : List Symbol) :
    withoutPositions (insert i dropped) first form = withoutPositions dropped first form := by
  refine congrArg (List.map Prod.fst) (List.filter_congr fun entry member => ?_)
  have behind : first ≤ entry.2 := List.le_snd_of_mem_zipIdx member
  have different : entry.2 ≠ i := by omega
  simp [different]

variable {nullable : NameSet} {form variant : List Symbol}

theorem first_le_of_mem_positions {i : Nat} (member : i ∈ Masked.positions nullable first form) : first ≤ i := by
  obtain ⟨entry, inside, rfl⟩ := List.mem_map.mp member
  exact List.le_snd_of_mem_zipIdx (List.mem_filter.mp inside).1

theorem first_mem_positions_iff {s : Symbol} {rest : List Symbol} :
    first ∈ Masked.positions nullable first (s :: rest) ↔ s.within false nullable = true := by
  by_cases inside : s.within false nullable = true
  · simp [Masked.positions_cons_of_within inside, inside]
  · rw [Masked.positions_cons_of_not_within inside, iff_false_right inside]
    exact fun member => Nat.not_succ_le_self first (first_le_of_mem_positions member)

theorem mem_positions_cons_of_lt {i : Nat} (behind : first < i) {s : Symbol} {rest : List Symbol} :
    i ∈ Masked.positions nullable first (s :: rest) ↔ i ∈ Masked.positions nullable (first + 1) rest := by
  by_cases inside : s.within false nullable = true
  · rw [Masked.positions_cons_of_within inside, List.mem_cons, or_iff_right (by omega)]
  · rw [Masked.positions_cons_of_not_within inside]

theorem mem_positions_iff {i : Nat} : i ∈ Masked.positions nullable 0 form ↔
    ∃ a, form[i]? = some (.nonterminal a) ∧ a ∈ nullable := by
  simp only [Masked.positions, List.mem_map, List.mem_filter]
  constructor
  · intro found
    obtain ⟨⟨s, _⟩, ⟨member, inside⟩, rfl⟩ := found
    have stands := List.mem_zipIdx_iff_getElem?.mp member
    cases s with
    | terminal t => cases inside
    | nonterminal a => exact ⟨a, stands, Std.ExtTreeSet.contains_iff_mem.mp inside⟩
  · intro found
    obtain ⟨a, stands, member⟩ := found
    exact ⟨(.nonterminal a, i), ⟨List.mem_zipIdx_iff_getElem?.mpr stands, Std.ExtTreeSet.contains_iff_mem.mpr member⟩,
      rfl⟩

theorem exists_dropped_of_mem_variants (first : Nat) (member : variant ∈ variants nullable form) :
    ∃ dropped : Finset Nat, (∀ i ∈ dropped, i ∈ Masked.positions nullable first form) ∧
      withoutPositions dropped first form = variant := by
  induction form generalizing first variant with
  | nil => exact ⟨∅, by simp, (mem_variants_nil.mp member).symm⟩
  | cons s rest ih =>
    have choice : ∀ shorter ∈ variants nullable rest, ∃ dropped : Finset Nat,
        (∀ i ∈ dropped, first < i ∧ i ∈ Masked.positions nullable first (s :: rest)) ∧
          withoutPositions dropped (first + 1) rest = shorter := by
      intro shorter inRest
      obtain ⟨dropped, chosen, same⟩ := ih (first + 1) inRest
      refine ⟨dropped, fun i here => ?_, same⟩
      have behind : first < i := first_le_of_mem_positions (chosen i here)
      exact ⟨behind, (mem_positions_cons_of_lt behind).mpr (chosen i here)⟩
    rcases mem_variants_cons.mp member with ⟨shorter, inRest, rfl⟩ | ⟨inside, inRest⟩
    · obtain ⟨dropped, chosen, rfl⟩ := choice shorter inRest
      have kept : first ∉ dropped := fun here => Nat.lt_irrefl first (chosen first here).1
      exact ⟨dropped, fun i here => (chosen i here).2, withoutPositions_cons_of_not_mem kept s rest⟩
    · obtain ⟨dropped, chosen, rfl⟩ := choice variant inRest
      refine ⟨insert first dropped, fun i here => ?_, ?_⟩
      · rcases Finset.mem_insert.mp here with rfl | old
        · exact first_mem_positions_iff.mpr inside
        · exact (chosen i old).2
      · rw [withoutPositions_cons_of_mem (Finset.mem_insert_self _ _),
          withoutPositions_insert_of_lt (Nat.lt_succ_self first)]

theorem withoutPositions_mem_variants
    (chosen : ∀ i ∈ dropped, first ≤ i → i ∈ Masked.positions nullable first form) :
    withoutPositions dropped first form ∈ variants nullable form := by
  induction form generalizing first with
  | nil => exact mem_variants_nil.mpr rfl
  | cons s rest ih =>
    have inRest : withoutPositions dropped (first + 1) rest ∈ variants nullable rest :=
      ih fun i here behind => (mem_positions_cons_of_lt behind).mp (chosen i here (Nat.le_of_succ_le behind))
    by_cases here : first ∈ dropped
    · rw [withoutPositions_cons_of_mem here]
      have inside := first_mem_positions_iff.mp (chosen first here (Nat.le_refl first))
      exact mem_variants_cons.mpr (.inr ⟨inside, inRest⟩)
    · rw [withoutPositions_cons_of_not_mem here]
      exact mem_variants_cons.mpr (.inl ⟨_, inRest, rfl⟩)

/-- The variants come about by the choice of positions, each with a nullable symbol to leave out. -/
theorem mem_variants_iff_exists_dropped : variant ∈ variants nullable form ↔
    ∃ dropped : Finset Nat, (∀ i ∈ dropped, ∃ a, form[i]? = some (.nonterminal a) ∧ a ∈ nullable) ∧
      withoutPositions dropped 0 form = variant := by
  simp only [← mem_positions_iff]
  constructor
  · exact exists_dropped_of_mem_variants 0
  · intro found
    obtain ⟨dropped, chosen, rfl⟩ := found
    exact withoutPositions_mem_variants fun i here _ => chosen i here

end

namespace Grammar

/-- The masks make of each production what any choice of its erasable symbols leaves of it, as long
as it leaves something. The empty right-hand side is for the start symbol alone, and nothing but the
productions changes. -/
theorem withoutEpsilon_exact {g out : Grammar} (ran : g.withoutEpsilon = .ok out) :
    Masked.withoutEpsilon g = .ok out ∧
      (∀ p, p ∈ out.productions ↔
        (p.rhs ≠ [] ∧ ∃ whole, ⟨p.lhs, whole⟩ ∈ g.productions ∧ ∃ dropped : Finset Nat,
          (∀ i ∈ dropped, ∃ a, whole[i]? = some (.nonterminal a) ∧ g.Generates a []) ∧
            withoutPositions dropped 0 whole = p.rhs) ∨
        p.rhs = [] ∧ p.lhs = g.start ∧ g.Generates g.start []) ∧
      out.nonterminals = g.nonterminals ∧ out.terminals = g.terminals ∧ out.start = g.start := by
  refine ⟨?_, fun p => ?_, withoutEpsilon_nonterminals ran, withoutEpsilon_terminals ran, withoutEpsilon_start ran⟩
  · rw [Masked.withoutEpsilon_eq, ran]
    rfl
  · rw [mem_withoutEpsilon ran]
    simp only [mem_variants_iff_exists_dropped, mem_nullable_iff_generates]
    obtain ⟨lhs, rhs⟩ := p
    refine or_congr (and_congr_right fun _ => ⟨?_, ?_⟩) ?_
    · intro found
      obtain ⟨⟨_, whole⟩, stored, rfl, choice⟩ := found
      exact ⟨whole, stored, choice⟩
    · intro found
      obtain ⟨whole, stored, choice⟩ := found
      exact ⟨_, stored, rfl, choice⟩
    · rw [Production.mk.injEq, and_comm (a := lhs = g.start), and_assoc]

theorem doubling_exact : ∃ out, doubling.withoutEpsilon = .ok out ∧ Masked.withoutEpsilon doubling = .ok out ∧
    ⟨"S", []⟩ ∈ out.productions ∧ ⟨"S", [.nonterminal "B"]⟩ ∈ out.productions := by
  obtain ⟨out, ran⟩ : ∃ out, doubling.withoutEpsilon = .ok out := exists_withoutEpsilon_of_short (by decide +kernel)
  have erasing : ⟨"S", []⟩ ∈ doubling.productions := by decide +kernel
  have behind : ⟨"S", [.nonterminal "B", .nonterminal "S"]⟩ ∈ doubling.productions := by decide +kernel
  have erasable : doubling.Generates "S" [] := derives_of_mem erasing
  obtain ⟨masks, productions, _⟩ := withoutEpsilon_exact ran
  refine ⟨out, ran, masks, (productions _).mpr (.inr ⟨rfl, rfl, erasable⟩), (productions _).mpr (.inl ⟨by simp, ?_⟩)⟩
  -- The second symbol can be left out and the first one cannot.
  refine ⟨_, behind, {1}, fun i here => ?_, by decide⟩
  obtain rfl := Finset.mem_singleton.mp here
  exact ⟨"S", rfl, erasable⟩

end Grammar

end ContextFree
