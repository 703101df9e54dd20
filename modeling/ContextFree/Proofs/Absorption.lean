import ContextFree.Nullable
import ContextFree.Useful
import ContextFree.Proofs.Yields
import Mathlib.Data.List.Chain

namespace ContextFree

section

variable {α : Type} [DecidableEq α] {step : α → α} {missing : α → Nat}
  {shrinks : ∀ s, step s ≠ s → missing (step s) < missing s}

theorem head?_trail (s : α) : (trail step missing shrinks s).head? = some s := by
  rw [trail_eq]
  split <;> rfl

theorem settle_eq (s : α) :
    settle step missing shrinks s = if step s = s then s else settle step missing shrinks (step s) := by
  unfold settle
  by_cases settled : step s = s
  · simp [trail_eq s, settled]
  · simp [trail_eq s, settled, List.getLast_cons (trail_ne_nil _)]

/-- What holds at first and is kept by every step holds all the way. -/
theorem forall_mem_trail (holds : α → Prop) (kept : ∀ s, holds s → holds (step s)) {s : α} (initial : holds s) :
    ∀ x ∈ trail step missing shrinks s, holds x := by
  fun_induction trail step missing shrinks s with
  | case1 s settled => simpa using initial
  | case2 s unsettled ih =>
    intro x member
    rcases List.mem_cons.mp member with rfl | later
    · exact initial
    · exact ih (kept s initial) x later

/-- What holds at first and is kept by every step holds when nothing changes any more. -/
theorem settle_of_step (holds : α → Prop) (kept : ∀ s, holds s → holds (step s)) {s : α} (initial : holds s) :
    holds (settle step missing shrinks s) :=
  forall_mem_trail holds kept initial _ (List.getLast_mem _)

/-- Each state on the way is the step from the one before it, and differs from it. -/
theorem isChain_trail (s : α) :
    (trail step missing shrinks s).IsChain fun before after => after = step before ∧ after ≠ before := by
  fun_induction trail step missing shrinks s with
  | case1 s settled => exact .singleton s
  | case2 s unsettled ih =>
    refine List.isChain_cons.mpr ⟨fun next first => ?_, ih⟩
    rw [head?_trail] at first
    obtain rfl := Option.some.inj first
    exact ⟨rfl, unsettled⟩

/-- A way is no longer than there is something missing at its start. -/
theorem length_trail_le (s : α) : (trail step missing shrinks s).length ≤ missing s + 1 := by
  fun_induction trail step missing shrinks s with
  | case1 s settled => simp
  | case2 s unsettled ih =>
    have less := shrinks s unsettled
    rw [List.length_cons]
    omega

end

namespace Grammar

variable {g : Grammar} {terminals : Bool}

/-- Any word counts if terminals do, and the empty word alone if they do not. -/
def Counts (terminals : Bool) (word : List Name) : Prop :=
  terminals = false → word = []

def HasWord (g : Grammar) (terminals : Bool) (a : Name) : Prop :=
  ∃ word, Counts terminals word ∧ g.Yields [.nonterminal a] word

theorem absorb_closed {known : NameSet} {productions : List Production}
    (settled : absorb terminals known productions = known) {p : Production} (listed : p ∈ productions)
    (inside : p.rhs.all (·.within terminals known) = true) : p.lhs ∈ known := by
  induction productions with
  | nil => cases listed
  | cons q rest ih =>
    -- Everything absorbed is known already, so nothing is added on the way either.
    have same : (if q.rhs.all (·.within terminals known) then known.insert q.lhs else known) = known := by
      refine Std.ExtTreeSet.ext_mem fun a => ⟨fun member => ?_, fun member => ?_⟩
      · have absorbed : a ∈ absorb terminals _ rest := mem_absorb_of_mem member
        rwa [← absorb, settled] at absorbed
      · split
        · exact FiniteSet.mem_insert_iff.mpr (.inr member)
        · exact member
    rcases List.mem_cons.mp listed with rfl | later
    · rw [if_pos inside] at same
      rw [← same]
      exact FiniteSet.mem_insert_iff.mpr (.inl rfl)
    · rw [absorb, same] at settled
      exact ih settled later

theorem absorb_induction {holds : Name → Prop} {known : NameSet} {productions : List Production}
    (rules : ∀ p ∈ productions, (∀ a, .nonterminal a ∈ p.rhs → holds a) →
      (∀ t, .terminal t ∈ p.rhs → terminals = true) → holds p.lhs)
    (initial : ∀ a ∈ known, holds a) : ∀ a ∈ absorb terminals known productions, holds a := by
  induction productions generalizing known with
  | nil => exact initial
  | cons p rest ih =>
    refine ih (fun q later => rules q (.tail _ later)) ?_
    split
    · rename_i inside
      rw [List.all_eq_true] at inside
      have head := rules p (.head _)
        (fun a member => initial a (by simpa [Symbol.within] using inside _ member))
        (fun t member => by simpa [Symbol.within] using inside _ member)
      intro a member
      rcases FiniteSet.mem_insert_iff.mp member with rfl | old
      · exact head
      · exact initial a old
    · exact initial

theorem absorbed_closed {known : NameSet} {p : Production} (stored : p ∈ g.productions)
    (inside : p.rhs.all (·.within terminals (g.absorbed terminals known)) = true) :
    p.lhs ∈ g.absorbed terminals known := by
  have settled : absorb terminals (g.absorbed terminals known) g.productions.toList = g.absorbed terminals known :=
    @step_settle _ _ (absorb terminals · g.productions.toList) _ _ known
  exact absorb_closed settled (Std.ExtTreeSet.mem_toList.mpr stored) inside

/-- A form has a word that counts if all of its symbols do. -/
theorem exists_counted {form : List Symbol}
    (each : ∀ a, .nonterminal a ∈ form → g.HasWord terminals a)
    (allowed : ∀ t, .terminal t ∈ form → terminals = true) : ∃ word, Counts terminals word ∧ g.Yields form word := by
  induction form with
  | nil => exact ⟨[], fun _ => rfl, .nil⟩
  | cons s form ih =>
    obtain ⟨word, counts, rest⟩ :=
      ih (fun a member => each a (.tail _ member)) fun t member => allowed t (.tail _ member)
    cases s with
    | terminal t =>
      refine ⟨t :: word, fun refused => ?_, .terminal rest⟩
      rw [allowed t (.head _)] at refused
      cases refused
    | nonterminal a =>
      obtain ⟨inner, innerCounts, head⟩ := each a (.head _)
      refine ⟨inner ++ word, fun refused => ?_, head.append rest⟩
      rw [innerCounts refused, counts refused]
      rfl

theorem exists_yields {form : List Symbol}
    (each : ∀ a, .nonterminal a ∈ form → ∃ word, g.Yields [.nonterminal a] word) :
    ∃ word, g.Yields form word := by
  have all (a) (member : .nonterminal a ∈ form) : g.HasWord true a :=
    (each a member).imp fun _ yields => ⟨Bool.noConfusion, yields⟩
  exact (exists_counted all fun _ _ => rfl).imp fun _ found => found.2

/-- Forms of which everything counts as absorbed are those that the search finds words for. -/
theorem Yields.within_absorbed {known : NameSet} {form : List Symbol} {word : List Name}
    (yields : g.Yields form word) (counts : Counts terminals word) :
    ∀ s ∈ form, s.within terminals (g.absorbed terminals known) = true := by
  induction yields with
  | nil => simp
  | @terminal t form word _ ih =>
    have allowed : terminals = true := by
      cases terminals with
      | true => rfl
      | false => cases counts rfl
    intro s member
    rcases List.mem_cons.mp member with rfl | later
    · simpa [Symbol.within] using allowed
    · exact ih (fun refused => by simp [allowed] at refused) s later
  | @nonterminal a rhs form inner word stored _ _ ihInner ihRest =>
    have parts (refused : terminals = false) := List.append_eq_nil_iff.mp (counts refused)
    intro s member
    rcases List.mem_cons.mp member with rfl | later
    · have inside := ihInner fun refused => (parts refused).1
      have head := absorbed_closed stored (List.all_eq_true.mpr inside)
      simpa [Symbol.within] using head
    · exact ihRest (fun refused => (parts refused).2) s later

/-- A pass finds nonterminals with words only. -/
theorem hasWord_of_mem_absorb {known : NameSet} (initial : ∀ a ∈ known, g.HasWord terminals a) :
    ∀ a ∈ absorb terminals known g.productions.toList, g.HasWord terminals a := by
  refine absorb_induction (fun p listed each allowed => ?_) initial
  obtain ⟨word, counts, yields⟩ := exists_counted each allowed
  exact ⟨word, counts, yields.of_mem (Std.ExtTreeSet.mem_toList.mp listed)⟩

/-- A search that starts from nonterminals with words finds exactly the nonterminals with words. -/
theorem mem_absorbed_iff {known : NameSet}
    (initial : ∀ a ∈ known, g.HasWord terminals a) {a : Name} :
    a ∈ g.absorbed terminals known ↔ g.HasWord terminals a := by
  constructor
  · have sound : ∀ a ∈ g.absorbed terminals known, g.HasWord terminals a :=
      settle_of_step (fun known => ∀ a ∈ known, g.HasWord terminals a) (fun _ => hasWord_of_mem_absorb) initial
    exact sound a
  · intro found
    obtain ⟨word, counts, yields⟩ := found
    have inside : (Symbol.nonterminal a).within terminals (g.absorbed terminals known) = true :=
      yields.within_absorbed counts _ (.head _)
    simpa [Symbol.within] using inside

theorem hasWord_false_iff {a : Name} : g.HasWord false a ↔ g.Yields [.nonterminal a] [] := by
  constructor
  · intro found
    obtain ⟨word, counts, yields⟩ := found
    exact counts rfl ▸ yields
  · intro yields
    exact ⟨[], fun _ => rfl, yields⟩

theorem mem_epsilonHeads {a : Name} : a ∈ g.epsilonHeads ↔ ⟨a, []⟩ ∈ g.productions := by
  simp only [epsilonHeads, FiniteSet.mem_ofList_iff, List.mem_map, List.mem_filter, Std.ExtTreeSet.mem_toList,
    Production.isEpsilon, List.isEmpty_iff]
  constructor
  · intro found
    obtain ⟨⟨lhs, rhs⟩, ⟨stored, empty⟩, rfl⟩ := found
    exact empty ▸ stored
  · intro stored
    exact ⟨_, ⟨stored, rfl⟩, rfl⟩

theorem hasWord_of_mem_epsilonHeads : ∀ a ∈ g.epsilonHeads, g.HasWord false a :=
  fun _ member => hasWord_false_iff.mpr (.of_mem (mem_epsilonHeads.mp member) .nil)

/-- The nullable nonterminals are those that derive the empty word. -/
theorem mem_nullable_iff {a : Name} : a ∈ g.nullable ↔ g.Yields [.nonterminal a] [] :=
  (mem_absorbed_iff hasWord_of_mem_epsilonHeads).trans hasWord_false_iff

theorem mem_nullable_iff_generates {a : Name} : a ∈ g.nullable ↔ g.Generates a [] :=
  mem_nullable_iff.trans generates_iff_yields.symm

/-- The generating nonterminals are those that derive some word. -/
theorem mem_generating_iff {a : Name} : a ∈ g.generating ↔ ∃ word, g.Yields [.nonterminal a] word := by
  refine (mem_absorbed_iff (by simp)).trans (exists_congr fun word => ?_)
  exact and_iff_right Bool.noConfusion

end Grammar

end ContextFree
