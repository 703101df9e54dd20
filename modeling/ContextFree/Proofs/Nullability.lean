import ContextFree.Proofs.Operation

namespace ContextFree.Grammar

variable {g : Grammar}

theorem generates_of_mem_nullablePasses : ∀ known ∈ g.nullablePasses, ∀ a ∈ known, g.Generates a [] := by
  have sound : ∀ known ∈ g.nullablePasses, ∀ a ∈ known, g.HasWord false a :=
    forall_mem_trail (fun known => ∀ a ∈ known, g.HasWord false a) (fun _ => hasWord_of_mem_absorb)
      hasWord_of_mem_epsilonHeads
  intro known listed a member
  exact generates_iff_yields.mpr (hasWord_false_iff.mp (sound known listed a member))

/-- A pass that changes nothing is not recorded, so the record grows. -/
theorem nullablePasses_grow (g : Grammar) :
    g.nullablePasses.IsChain fun before after => (∀ a ∈ before, a ∈ after) ∧ ∃ a ∈ after, a ∉ before := by
  refine (isChain_trail g.epsilonHeads).imp fun before after step => ?_
  obtain ⟨rfl, changed⟩ := step
  have kept : ∀ a ∈ before, a ∈ absorb false before g.productions.toList := fun _ => mem_absorb_of_mem
  exact ⟨kept, FiniteSet.exists_new_of_ne kept changed⟩

/-- With nothing to start from, only an empty right-hand side can add anything. -/
theorem absorb_empty {productions : List Production} (solid : ∀ p ∈ productions, p.rhs ≠ []) :
    absorb false ∅ productions = ∅ := by
  induction productions with
  | nil => rfl
  | cons p rest ih =>
    have outside : ¬ p.rhs.all (·.within false ∅) = true := by
      obtain ⟨s, form, split⟩ := List.exists_cons_of_ne_nil (solid p (.head _))
      rw [split, List.all_cons]
      cases s <;> simp [Symbol.within]
    rw [absorb, if_neg outside]
    exact ih fun q later => solid q (.tail _ later)

/-- The first entry has a nonterminal already, or it is the only one. -/
theorem Coherent.length_nullablePasses_le (coherent : g.Coherent) :
    g.nullablePasses.length ≤ g.nonterminals.size := by
  by_cases epsilon : ∃ a, ⟨a, []⟩ ∈ g.productions
  · obtain ⟨a, stored⟩ := epsilon
    have inside : ∀ b ∈ g.heads \ g.epsilonHeads, b ∈ g.nonterminals := by
      intro b member
      obtain ⟨p, inG, rfl⟩ := mem_heads.mp (Std.ExtTreeSet.mem_diff_iff.mp member).1
      exact coherent.heads p inG
    have found : a ∉ g.heads \ g.epsilonHeads := by
      intro member
      exact (Std.ExtTreeSet.mem_diff_iff.mp member).2 (mem_epsilonHeads.mpr stored)
    have fewer : (g.heads \ g.epsilonHeads).size < g.nonterminals.size :=
      FiniteSet.size_lt_of_ssubset inside (coherent.heads _ stored) found
    calc g.nullablePasses.length
        ≤ (g.heads \ g.epsilonHeads).size + 1 := length_trail_le g.epsilonHeads
      _ ≤ g.nonterminals.size := fewer
  · have none : g.epsilonHeads = ∅ := by
      refine Std.ExtTreeSet.ext_mem fun a => ⟨fun member => ?_, fun member => ?_⟩
      · exact absurd ⟨a, mem_epsilonHeads.mp member⟩ epsilon
      · exact absurd member Std.ExtTreeSet.not_mem_empty
    have settled : absorb false ∅ g.productions.toList = ∅ := by
      refine absorb_empty fun p listed empty => epsilon ⟨p.lhs, ?_⟩
      rw [← empty]
      exact Std.ExtTreeSet.mem_toList.mp listed
    have single : g.nullablePasses.length = 1 := by
      rw [nullablePasses, absorptions, none, trail_eq, if_pos settled, List.length_singleton]
    have declared : g.nonterminals.size ≠ 0 := by
      rw [Ne, ← Std.ExtTreeSet.eq_empty_iff_size_eq_zero]
      exact Std.ExtTreeSet.ne_empty_of_mem coherent.start
    omega

/-- The search for nullable nonterminals finds those that derive the empty word and no others. It
starts from the explicit ε-productions, each recorded pass finds something that derives the empty
word, and it ends, with a pass that would find nothing, after as many entries as there are
nonterminals at the latest. -/
theorem Built.nullablePasses_exact (built : g.Built) :
    (∀ a, a ∈ g.nullable ↔ g.Generates a []) ∧
      (∃ first, g.nullablePasses.head? = some first ∧ ∀ a, a ∈ first ↔ ⟨a, []⟩ ∈ g.productions) ∧
      (g.nullablePasses.IsChain fun before after => (∀ a ∈ before, a ∈ after) ∧ ∃ a ∈ after, a ∉ before) ∧
      (∀ known ∈ g.nullablePasses, ∀ a ∈ known, g.Generates a []) ∧
      g.nullablePasses.getLast? = some g.nullable ∧ absorb false g.nullable g.productions.toList = g.nullable ∧
      g.nullablePasses.length ≤ g.nonterminals.size := by
  have first : g.nullablePasses.head? = some g.epsilonHeads := head?_trail g.epsilonHeads
  have last : g.nullablePasses.getLast? = some g.nullable := List.getLast?_eq_some_getLast _
  have settled : absorb false g.nullable g.productions.toList = g.nullable :=
    @step_settle _ _ (absorb false · g.productions.toList) _ _ g.epsilonHeads
  exact ⟨fun _ => mem_nullable_iff_generates, ⟨_, first, fun _ => mem_epsilonHeads⟩, g.nullablePasses_grow,
    generates_of_mem_nullablePasses, last, settled, built.coherent.length_nullablePasses_le⟩

/-- A grammar whose productions come in the wrong order for the search, so that each pass finds no
more than one nonterminal. -/
def relayed : Grammar :=
  (ofStart "A").after [.declareNonterminal "B", .declareNonterminal "C", .addProduction ⟨"A", [.nonterminal "B"]⟩,
    .addProduction ⟨"B", [.nonterminal "C"]⟩, .addProduction ⟨"C", []⟩]

theorem relayed_nullablePasses : relayed.Built ∧ "A" ∈ relayed.nullable ∧ relayed.nullablePasses.length ≤ 3 := by
  have built : relayed.Built := ⟨_, _, .ofStart _, rfl⟩
  have first : ⟨"A", [.nonterminal "B"]⟩ ∈ relayed.productions := by decide +kernel
  have second : ⟨"B", [.nonterminal "C"]⟩ ∈ relayed.productions := by decide +kernel
  have third : ⟨"C", []⟩ ∈ relayed.productions := by decide +kernel
  have erased : relayed.Generates "A" [] :=
    ((derives_of_mem first).trans (derives_of_mem second)).trans (derives_of_mem third)
  have three : relayed.nonterminals.size = 3 := by decide +kernel
  obtain ⟨nullable, _, _, _, _, _, bound⟩ := built.nullablePasses_exact
  exact ⟨built, (nullable "A").mpr erased, three ▸ bound⟩

end ContextFree.Grammar
