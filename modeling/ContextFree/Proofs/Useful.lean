import ContextFree.Proofs.Absorption
import ContextFree.Proofs.WellFormed

namespace ContextFree.Grammar

variable {g : Grammar}

theorem mem_successors {known : NameSet} {s : Symbol} :
    s ∈ g.successors known ↔ ∃ p ∈ g.productions, p.lhs ∈ known ∧ s ∈ p.rhs := by
  simp only [successors, List.mem_flatMap, List.mem_filter, Std.ExtTreeSet.mem_toList, Std.ExtTreeSet.contains_iff_mem,
    and_assoc]

theorem mem_reach {known : NameSet} {a : Name} :
    a ∈ g.reach known ↔ a ∈ known ∨ ∃ p ∈ g.productions, p.lhs ∈ known ∧ .nonterminal a ∈ p.rhs := by
  rw [reach, FiniteSet.mem_insertMany_iff, ← mem_successors, List.mem_filterMap]
  refine or_congr_right ⟨?_, fun member => ⟨_, member, rfl⟩⟩
  intro found
  obtain ⟨s, member, name⟩ := found
  cases s with
  | terminal t => cases name
  | nonterminal b =>
    cases name
    exact member

theorem start_mem_reachable : g.start ∈ g.reachable :=
  settle_of_step (g.start ∈ ·) (fun _ member => mem_reach.mpr (.inl member)) (by simp)

theorem reachable_closed {p : Production} (stored : p ∈ g.productions) (reached : p.lhs ∈ g.reachable) {a : Name}
    (member : .nonterminal a ∈ p.rhs) : a ∈ g.reachable := by
  have settled : g.reach g.reachable = g.reachable := @step_settle _ _ g.reach _ _ {g.start}
  rw [← settled]
  exact mem_reach.mpr (.inr ⟨p, stored, reached, member⟩)

theorem reachable_induction {holds : Name → Prop} (start : holds g.start)
    (rules : ∀ p ∈ g.productions, holds p.lhs → ∀ a, .nonterminal a ∈ p.rhs → holds a) :
    ∀ a ∈ g.reachable, holds a := by
  refine settle_of_step (fun known => ∀ a ∈ known, holds a) (fun known initial a member => ?_) ?_
  · rcases mem_reach.mp member with old | ⟨p, stored, inside, mentioned⟩
    · exact initial a old
    · exact rules p stored (initial _ inside) a mentioned
  · intro a member
    rw [FiniteSet.mem_singleton_iff.mp member]
    exact start

/-- A derivation from what can be reached leads to what can be reached. -/
theorem reachable_of_derives {form last : List Symbol} (derivation : g.Derives form last)
    (reached : ∀ a, .nonterminal a ∈ form → a ∈ g.reachable) : ∀ a, .nonterminal a ∈ last → a ∈ g.reachable := by
  have all : ∀ s ∈ last, ∀ a, s = .nonterminal a → a ∈ g.reachable := by
    refine derivation.forall_mem (fun p stored head s inRhs a same => ?_) fun s member a same => ?_
    · exact reachable_closed stored (head p.lhs rfl) (same ▸ inRhs)
    · exact reached a (same ▸ member)
  exact fun a member => all _ member a rfl

theorem mem_reachableTerminals {t : Name} :
    t ∈ g.reachableTerminals ↔ ∃ p ∈ g.productions, p.lhs ∈ g.reachable ∧ .terminal t ∈ p.rhs := by
  rw [reachableTerminals, FiniteSet.mem_ofList_iff, ← mem_successors, List.mem_filterMap]
  refine ⟨?_, fun member => ⟨_, member, rfl⟩⟩
  intro found
  obtain ⟨s, member, name⟩ := found
  cases s with
  | nonterminal a => cases name
  | terminal u =>
    cases name
    exact member

theorem mem_withoutNonGenerating {p : Production} : p ∈ g.withoutNonGenerating.productions ↔
    p ∈ g.productions ∧ p.lhs ∈ g.generating ∧ ∀ a, .nonterminal a ∈ p.rhs → a ∈ g.generating := by
  simp only [withoutNonGenerating, FiniteSet.mem_filter_iff, Bool.and_eq_true, List.all_eq_true,
    Std.ExtTreeSet.contains_iff_mem]
  refine and_congr_right fun _ => and_congr_right fun _ => ⟨fun all a member => ?_, fun each s member => ?_⟩
  · simpa [Symbol.within] using all _ member
  · cases s with
    | terminal t => rfl
    | nonterminal a => simpa [Symbol.within] using each a member

theorem mem_withoutUnreachable {p : Production} :
    p ∈ g.withoutUnreachable.productions ↔ p ∈ g.productions ∧ p.lhs ∈ g.reachable := by
  simp [withoutUnreachable]

theorem mem_of_mem_withoutUseless {p : Production} (stored : p ∈ g.withoutUseless.productions) : p ∈ g.productions :=
  (mem_withoutNonGenerating.mp (mem_withoutUnreachable.mp stored).1).1

/-- A production is kept if its right-hand side yields a word. -/
theorem withoutNonGenerating_eq_self (nonterminals : ∀ a, a = g.start ∨ a ∈ g.generating ↔ a ∈ g.nonterminals)
    (generating : ∀ p ∈ g.productions, p.lhs ∈ g.generating ∧ ∀ a, .nonterminal a ∈ p.rhs → a ∈ g.generating) :
    g.withoutNonGenerating = g := by
  refine ext_mem (fun a => FiniteSet.mem_insert_iff.trans (nonterminals a)) (fun _ => .rfl) (fun p => ?_) rfl
  exact mem_withoutNonGenerating.trans (and_iff_left_of_imp (generating p))

theorem withoutUnreachable_eq_self (nonterminals : ∀ a, a ∈ g.reachable ↔ a ∈ g.nonterminals)
    (terminals : ∀ t, t ∈ g.reachableTerminals ↔ t ∈ g.terminals)
    (reached : ∀ p ∈ g.productions, p.lhs ∈ g.reachable) : g.withoutUnreachable = g :=
  ext_mem nonterminals terminals (fun p => mem_withoutUnreachable.trans (and_iff_left_of_imp (reached p))) rfl

theorem mem_withoutNonGenerating_of_yields {p : Production} (stored : p ∈ g.productions) {word : List Name}
    (yields : g.Yields p.rhs word) : p ∈ g.withoutNonGenerating.productions := by
  refine mem_withoutNonGenerating.mpr ⟨stored, mem_generating_iff.mpr ⟨word, yields.of_mem stored⟩, fun a member => ?_⟩
  obtain ⟨inner, head, _⟩ := yields.inside member
  exact mem_generating_iff.mpr ⟨inner, head⟩

/-- A production of a reachable nonterminal is kept if its right-hand side yields a word. -/
theorem mem_withoutUseless_of_yields {a : Name} {rhs : List Symbol} (stored : ⟨a, rhs⟩ ∈ g.productions)
    (declared : a ∈ g.withoutUseless.nonterminals) {word : List Name} (yields : g.Yields rhs word) :
    ⟨a, rhs⟩ ∈ g.withoutUseless.productions :=
  mem_withoutUnreachable.mpr ⟨mem_withoutNonGenerating_of_yields stored yields, declared⟩

theorem mentioned_withoutUseless {p : Production} (stored : p ∈ g.withoutUseless.productions) {a : Name}
    (member : .nonterminal a ∈ p.rhs) : a ∈ g.withoutUseless.nonterminals := by
  obtain ⟨inside, reached⟩ := mem_withoutUnreachable.mp stored
  exact reachable_closed inside reached member

/-- What a part `k` of the grammar yields from reachable nonterminals is left, if `l` has the part
of `k` that is not useless. -/
theorem Yields.withoutUseless {k l : Grammar} (inside : ∀ p ∈ k.productions, p ∈ g.productions)
    (left : ∀ p ∈ k.productions, p ∈ g.withoutUseless.productions → p ∈ l.productions) {form : List Symbol}
    {word : List Name} (yields : k.Yields form word)
    (declared : ∀ a, .nonterminal a ∈ form → a ∈ g.withoutUseless.nonterminals) : l.Yields form word := by
  refine yields.restrict (fun a rhs stored reached ⟨inner, body⟩ => ?_) declared
  have useful := mem_withoutUseless_of_yields (inside _ stored) reached (body.mono inside)
  exact ⟨left _ stored useful, fun b member => mentioned_withoutUseless useful member⟩

theorem derives_of_withoutUseless {form last : List Symbol} (derivation : g.withoutUseless.Derives form last) :
    g.Derives form last :=
  derivation.mono fun _ => mem_of_mem_withoutUseless

theorem withoutUseless_solid_yields {a : Name} (declared : a ∈ g.withoutUseless.nonterminals) {word : List Name}
    (yields : g.solid.Yields [.nonterminal a] word) : g.withoutUseless.solid.Yields [.nonterminal a] word := by
  refine yields.withoutUseless (fun p stored => (mem_solid.mp stored).1) (fun p stored useful => ?_) fun b member => ?_
  · exact mem_solid.mpr ⟨useful, (mem_solid.mp stored).2⟩
  · simp_all

/-- Dropping symbols leaves a coherent grammar, whatever it was before: the start symbol is
declared anew and no production stays without its left-hand side. -/
theorem Coherent.withoutNonGenerating (g : Grammar) : g.withoutNonGenerating.Coherent where
  start := FiniteSet.mem_insert_iff.mpr (.inl rfl)
  heads _ stored := FiniteSet.mem_insert_iff.mpr (.inr (mem_withoutNonGenerating.mp stored).2.1)

theorem Coherent.withoutUnreachable (g : Grammar) : g.withoutUnreachable.Coherent where
  start := start_mem_reachable
  heads _ stored := (mem_withoutUnreachable.mp stored).2

theorem Coherent.withoutUseless (g : Grammar) : g.withoutUseless.Coherent :=
  Coherent.withoutUnreachable g.withoutNonGenerating

theorem Closed.nonterminals_withoutUseless (closed : g.Closed) :
    ∀ a ∈ g.withoutUseless.nonterminals, a ∈ g.nonterminals := by
  refine reachable_induction closed.start fun p stored _ a member => ?_
  exact closed.mentioned p (mem_withoutNonGenerating.mp stored).1 a member

theorem WellFormed.terminals_withoutUseless (formed : g.WellFormed) :
    ∀ t ∈ g.withoutUseless.terminals, t ∈ g.terminals := by
  intro t member
  obtain ⟨p, stored, _, inside⟩ := mem_reachableTerminals.mp member
  exact formed.letters p (mem_withoutNonGenerating.mp stored).1 t inside

theorem WellFormed.withoutUseless (formed : g.WellFormed) : g.withoutUseless.WellFormed := by
  have declared := formed.nonterminals_withoutUseless
  have letters := formed.terminals_withoutUseless
  exact {
    toCoherent := Coherent.withoutUseless g
    mentioned := fun p stored a member => mentioned_withoutUseless stored member
    letters := fun p stored t member => by
      obtain ⟨inside, reached⟩ := mem_withoutUnreachable.mp stored
      exact mem_reachableTerminals.mpr ⟨p, inside, reached, member⟩
    disjoint := fun a member inside => formed.disjoint a (letters a member) (declared a inside)
    terminal_ne := fun a member => formed.terminal_ne a (letters a member)
    nonterminal_ne := fun a member => formed.nonterminal_ne a (declared a member) }

end ContextFree.Grammar
