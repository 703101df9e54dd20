import ContextFree.Proofs.Useful

namespace ContextFree

namespace Grammar

variable {g : Grammar}

section

variable {terminals : Bool} {known : NameSet} {productions : List Production}

/-- A pass over productions that goes past those of nonterminals known already, and notes whether
it finds another one. -/
def mark (terminals : Bool) (known : NameSet) : List Production → NameSet × Bool
  | [] => (known, false)
  | p :: rest =>
    if known.contains p.lhs then mark terminals known rest
    else if p.rhs.all (·.within terminals known) then ((mark terminals (known.insert p.lhs) rest).1, true)
    else mark terminals known rest

/-- A pass that knows the left-hand side finds nothing in the production. -/
theorem absorb_of_mem {p : Production} (old : p.lhs ∈ known) :
    absorb terminals known (p :: productions) = absorb terminals known productions := by
  rw [absorb, FiniteSet.insert_eq_self_iff.mpr old, ite_self]

theorem mark_fst : (mark terminals known productions).1 = absorb terminals known productions := by
  fun_induction mark terminals known productions with
  | case1 => rfl
  | case2 known p rest old ih => rw [ih, absorb_of_mem (Std.ExtTreeSet.contains_iff_mem.mp old)]
  | case3 known p rest _ inside ih => rw [absorb, if_pos inside, ih]
  | case4 known p rest _ outside ih => rw [absorb, if_neg outside, ih]

/-- The note of a pass is right. -/
theorem mark_snd_iff : (mark terminals known productions).2 = true ↔ absorb terminals known productions ≠ known := by
  fun_induction mark terminals known productions with
  | case1 => simp [absorb]
  | case2 known p rest old ih => rw [ih, absorb_of_mem (Std.ExtTreeSet.contains_iff_mem.mp old)]
  | case3 known p rest isNew inside ih =>
    rw [absorb, if_pos inside]
    refine iff_of_true rfl fun same => isNew ?_
    rw [← same, Std.ExtTreeSet.contains_iff_mem]
    exact mem_absorb_of_mem (FiniteSet.mem_insert_iff.mpr (.inl rfl))
  | case4 known p rest _ outside ih => rw [absorb, if_neg outside, ih]

/-- Passes until one has nothing to note. -/
def marked (g : Grammar) (terminals : Bool) (known : NameSet) : NameSet :=
  let pass := mark terminals known g.productions.toList
  if _ : pass.2 then g.marked terminals pass.1 else pass.1
termination_by (g.heads \ known).size
decreasing_by
  rw [mark_fst]
  exact g.absorb_shrinks terminals known (mark_snd_iff.mp ‹_›)

theorem marked_eq_absorbed (g : Grammar) (terminals : Bool) (known : NameSet) :
    g.marked terminals known = g.absorbed terminals known := by
  fun_induction marked g terminals known with
  | case1 known pass found ih =>
    have changed : absorb terminals known g.productions.toList ≠ known := mark_snd_iff.mp found
    rw [ih, mark_fst, absorbed, settle_eq known, if_neg changed]
  | case2 known pass settled =>
    have same : absorb terminals known g.productions.toList = known := not_not.mp (mt mark_snd_iff.mpr settled)
    rw [mark_fst, absorbed, settle_eq known, if_pos same, same]

end

/-- No word is lost with what derives no word. -/
theorem withoutNonGenerating_generates_iff {a : Name} {word : List Name} :
    g.withoutNonGenerating.Generates a word ↔ g.Generates a word := by
  refine ⟨fun generates => generates.mono fun p kept => (mem_withoutNonGenerating.mp kept).1, fun generates => ?_⟩
  have yields := generates_iff_yields.mp generates
  have found : ∀ b, .nonterminal b ∈ [Symbol.nonterminal a] → b ∈ g.generating := by
    intro b member
    obtain rfl : b = a := by simpa using member
    exact mem_generating_iff.mpr ⟨word, yields⟩
  refine generates_iff_yields.mpr (yields.restrict (fun b rhs stored _ body => ?_) found)
  obtain ⟨inner, bodyYields⟩ := body
  have kept := mem_withoutNonGenerating_of_yields stored bodyYields
  exact ⟨kept, (mem_withoutNonGenerating.mp kept).2.2⟩

/-- The search, pass by pass, finds the nonterminals that derive some word. What it leaves out can be
dropped without a change to the words of any nonterminal, with every production that mentions it. The
start symbol stays declared in any case. -/
theorem generating_exact (g : Grammar) :
    g.marked true ∅ = g.generating ∧ (∀ a, a ∈ g.generating ↔ ∃ word, g.Generates a word) ∧
      (∀ a word, g.withoutNonGenerating.Generates a word ↔ g.Generates a word) ∧
      (∀ p, p ∈ g.withoutNonGenerating.productions ↔
        p ∈ g.productions ∧ p.lhs ∈ g.generating ∧ ∀ a, .nonterminal a ∈ p.rhs → a ∈ g.generating) ∧
      (∀ a, a ∈ g.withoutNonGenerating.nonterminals ↔ a = g.start ∨ a ∈ g.generating) ∧
      g.withoutNonGenerating.start = g.start ∧ g.withoutNonGenerating.terminals = g.terminals := by
  refine ⟨g.marked_eq_absorbed true ∅, fun a => ?_, fun _ _ => withoutNonGenerating_generates_iff,
    fun _ => mem_withoutNonGenerating, fun _ => FiniteSet.mem_insert_iff, rfl, rfl⟩
  exact mem_generating_iff.trans (exists_congr fun _ => generates_iff_yields.symm)

end Grammar

/-- The symbols that a search has met. -/
structure Met where
  nonterminals : NameSet
  terminals : NameSet

namespace Met

variable {met : Met} {symbols : List Symbol} {g : Grammar}

def add (met : Met) : Symbol → Met
  | .terminal t => { met with terminals := met.terminals.insert t }
  | .nonterminal a => { met with nonterminals := met.nonterminals.insert a }

/-- Adds what stands on the right-hand sides of the nonterminals met before the round. -/
def round (g : Grammar) (met : Met) : Met :=
  (met.nonterminals.toList.flatMap fun a => (g.productionsOf a).flatMap Production.rhs).foldl add met

theorem mem_nonterminals_foldl {a : Name} :
    a ∈ (symbols.foldl add met).nonterminals ↔ a ∈ met.nonterminals ∨ .nonterminal a ∈ symbols := by
  induction symbols generalizing met with
  | nil => simp
  | cons s rest ih =>
    rw [List.foldl_cons, ih, List.mem_cons]
    cases s with
    | terminal t => simp [add]
    | nonterminal b => rw [add, FiniteSet.mem_insert_iff, Symbol.nonterminal.injEq, or_assoc, or_left_comm]

theorem mem_terminals_foldl {t : Name} :
    t ∈ (symbols.foldl add met).terminals ↔ t ∈ met.terminals ∨ .terminal t ∈ symbols := by
  induction symbols generalizing met with
  | nil => simp
  | cons s rest ih =>
    rw [List.foldl_cons, ih, List.mem_cons]
    cases s with
    | terminal u => rw [add, FiniteSet.mem_insert_iff, Symbol.terminal.injEq, or_assoc, or_left_comm]
    | nonterminal b => simp [add]

theorem mem_rhs_iff {known : NameSet} {s : Symbol} :
    s ∈ (known.toList.flatMap fun a => (g.productionsOf a).flatMap Production.rhs) ↔
      ∃ p ∈ g.productions, p.lhs ∈ known ∧ s ∈ p.rhs := by
  simp only [List.mem_flatMap, Std.ExtTreeSet.mem_toList, Grammar.mem_productionsOf]
  constructor
  · intro found
    obtain ⟨_, inside, p, ⟨stored, rfl⟩, member⟩ := found
    exact ⟨p, stored, inside, member⟩
  · intro found
    obtain ⟨p, stored, inside, member⟩ := found
    exact ⟨p.lhs, inside, p, ⟨stored, rfl⟩, member⟩

theorem round_nonterminals (g : Grammar) (met : Met) : (met.round g).nonterminals = g.reach met.nonterminals := by
  refine Std.ExtTreeSet.ext_mem fun a => ?_
  rw [round, mem_nonterminals_foldl, mem_rhs_iff, Grammar.mem_reach]

theorem mem_round_terminals {t : Name} : t ∈ (met.round g).terminals ↔
    t ∈ met.terminals ∨ ∃ p ∈ g.productions, p.lhs ∈ met.nonterminals ∧ .terminal t ∈ p.rhs := by
  rw [round, mem_terminals_foldl, mem_rhs_iff]

/-- Rounds until one meets no nonterminal for the first time. Terminals do not matter for the end. -/
def search (g : Grammar) (met : Met) : Met :=
  let next := met.round g
  if _ : next.nonterminals = met.nonterminals then next else next.search g
termination_by (g.mentioned \ met.nonterminals).size
decreasing_by
  rw [round_nonterminals]
  refine g.reach_shrinks met.nonterminals ?_
  rwa [← round_nonterminals]

theorem search_nonterminals (g : Grammar) (met : Met) : (met.search g).nonterminals =
    settle g.reach (fun known => (g.mentioned \ known).size) g.reach_shrinks met.nonterminals := by
  fun_induction search g met with
  | case1 met next settled =>
    have same : g.reach met.nonterminals = met.nonterminals := by rwa [← round_nonterminals]
    rw [settled, settle_eq, if_pos same]
  | case2 met next unsettled ih =>
    have changed : g.reach met.nonterminals ≠ met.nonterminals := by rwa [← round_nonterminals]
    rw [ih, round_nonterminals, settle_eq met.nonterminals, if_neg changed]

/-- The last round goes through all productions of what has been met, so that no terminal of theirs
is missed, and terminals met before the last round stand in these productions too. -/
theorem mem_search_terminals
    (old : ∀ t ∈ met.terminals, ∃ p ∈ g.productions, p.lhs ∈ met.nonterminals ∧ .terminal t ∈ p.rhs) {t : Name} :
    t ∈ (met.search g).terminals ↔
      ∃ p ∈ g.productions, p.lhs ∈ (met.search g).nonterminals ∧ .terminal t ∈ p.rhs := by
  fun_induction search g met with
  | case1 met next settled => rw [mem_round_terminals, settled, or_iff_right_of_imp (old t)]
  | case2 met next unsettled ih =>
    refine ih fun t member => ?_
    have found := (mem_round_terminals.mp member).elim (old t) id
    obtain ⟨p, stored, inside, inRhs⟩ := found
    rw [round_nonterminals]
    exact ⟨p, stored, Grammar.mem_reach.mpr (.inl inside), inRhs⟩

end Met

namespace Grammar

variable {g : Grammar}

/-- The symbols met from the start symbol on. -/
def met (g : Grammar) : Met :=
  Met.search g ⟨{g.start}, ∅⟩

theorem met_eq (g : Grammar) : g.met = ⟨g.reachable, g.reachableTerminals⟩ := by
  have nonterminals : g.met.nonterminals = g.reachable := Met.search_nonterminals g ⟨{g.start}, ∅⟩
  have terminals : g.met.terminals = g.reachableTerminals := by
    refine Std.ExtTreeSet.ext_mem fun t => ?_
    rw [mem_reachableTerminals, ← nonterminals]
    exact Met.mem_search_terminals fun t member => absurd member Std.ExtTreeSet.not_mem_empty
  rw [← nonterminals, ← terminals]

/-- The symbol stands in a sentential form of the start symbol. -/
def Occurs (g : Grammar) (s : Symbol) : Prop :=
  ∃ form, g.Derives [.nonterminal g.start] form ∧ s ∈ form

theorem Occurs.of_mem {p : Production} (occurs : g.Occurs (.nonterminal p.lhs)) (stored : p ∈ g.productions)
    {s : Symbol} (member : s ∈ p.rhs) : g.Occurs s := by
  obtain ⟨form, derivation, inForm⟩ := occurs
  obtain ⟨before, after, rfl⟩ := List.append_of_mem inForm
  have step := Step.apply before after stored
  exact ⟨_, derivation.trans (.step step (.refl _)), by simp [member]⟩

theorem declares_rhs_withoutUnreachable {p : Production} (stored : p ∈ g.productions)
    (reached : p.lhs ∈ g.reachable) : ∀ s ∈ p.rhs, g.withoutUnreachable.declares s = true := by
  intro s member
  cases s with
  | terminal t => exact Std.ExtTreeSet.contains_iff_mem.mpr (mem_reachableTerminals.mpr ⟨p, stored, reached, member⟩)
  | nonterminal a => exact Std.ExtTreeSet.contains_iff_mem.mpr (reachable_closed stored reached member)

/-- What is left declared is what occurs. -/
theorem declares_withoutUnreachable_iff {s : Symbol} : g.withoutUnreachable.declares s = true ↔ g.Occurs s := by
  constructor
  · have nonterminals : ∀ a ∈ g.reachable, g.Occurs (.nonterminal a) :=
      reachable_induction ⟨_, .refl _, .head _⟩ fun p stored occurs a member => occurs.of_mem stored member
    intro declared
    cases s with
    | terminal t =>
      obtain ⟨p, stored, reached, member⟩ := mem_reachableTerminals.mp (Std.ExtTreeSet.contains_iff_mem.mp declared)
      exact (nonterminals p.lhs reached).of_mem stored member
    | nonterminal a => exact nonterminals a (Std.ExtTreeSet.contains_iff_mem.mp declared)
  · intro occurs
    obtain ⟨form, derivation, member⟩ := occurs
    have initial : ∀ s ∈ [Symbol.nonterminal g.start], g.withoutUnreachable.declares s = true := by
      intro s first
      obtain rfl := List.mem_singleton.mp first
      exact Std.ExtTreeSet.contains_iff_mem.mpr start_mem_reachable
    refine derivation.forall_mem (fun p stored declared => ?_) initial s member
    exact declares_rhs_withoutUnreachable stored (Std.ExtTreeSet.contains_iff_mem.mp declared)

theorem withoutUnreachable_accepts_iff {word : List Name} : g.withoutUnreachable.Accepts word ↔ g.Accepts word := by
  refine ⟨fun accepts => accepts.mono fun p kept => (mem_withoutUnreachable.mp kept).1, fun accepts => ?_⟩
  have yields := generates_iff_yields.mp accepts
  have initial : ∀ a, .nonterminal a ∈ [Symbol.nonterminal g.start] → a ∈ g.reachable := by
    intro a member
    obtain rfl : a = g.start := by simpa using member
    exact start_mem_reachable
  refine generates_iff_yields.mpr (yields.restrict (fun a rhs stored reached _ => ?_) initial)
  exact ⟨mem_withoutUnreachable.mpr ⟨stored, reached⟩, fun b member => reachable_closed stored reached member⟩

/-- The search, round by round, meets the symbols of sentential forms and no others. Exactly these
are left, with all productions of the nonterminals among them, so that nothing undeclared is mentioned
any more, and the language stays as it is. -/
theorem reachable_exact (g : Grammar) :
    g.met = ⟨g.reachable, g.reachableTerminals⟩ ∧
      (∀ a, a ∈ g.reachable ↔ g.Occurs (.nonterminal a)) ∧ (∀ t, t ∈ g.reachableTerminals ↔ g.Occurs (.terminal t)) ∧
      g.withoutUnreachable.nonterminals = g.reachable ∧ g.withoutUnreachable.terminals = g.reachableTerminals ∧
      (∀ p, p ∈ g.withoutUnreachable.productions ↔ p ∈ g.productions ∧ p.lhs ∈ g.reachable) ∧
      (∀ p ∈ g.withoutUnreachable.productions, ∀ s ∈ p.rhs, g.withoutUnreachable.declares s = true) ∧
      g.withoutUnreachable.start = g.start ∧ ∀ word, g.withoutUnreachable.Accepts word ↔ g.Accepts word := by
  refine ⟨g.met_eq, fun a => ?_, fun t => ?_, rfl, rfl, fun _ => mem_withoutUnreachable, fun p kept => ?_, rfl,
    fun _ => withoutUnreachable_accepts_iff⟩
  · rw [← declares_withoutUnreachable_iff]
    exact Std.ExtTreeSet.contains_iff_mem.symm
  · rw [← declares_withoutUnreachable_iff]
    exact Std.ExtTreeSet.contains_iff_mem.symm
  · obtain ⟨stored, reached⟩ := mem_withoutUnreachable.mp kept
    exact declares_rhs_withoutUnreachable stored reached

end Grammar

end ContextFree
