import ContextFree.Proofs.WellFormed
import ContextFree.Proofs.Yields

namespace ContextFree

/-- Writes out a symbol, given the form that each nonterminal stands for. -/
def Symbol.expand (meaning : Name → List Symbol) : Symbol → List Symbol
  | .terminal t => [.terminal t]
  | .nonterminal a => meaning a

/-- New nonterminals, each with the form that it stands for. -/
abbrev Abbreviations := List (Name × List Symbol)

namespace Abbreviations

def names (short : Abbreviations) : List Name := short.map Prod.fst

/-- The form that a name stands for, which is the nonterminal itself unless it is new. -/
def meaning (short : Abbreviations) (a : Name) : List Symbol :=
  (short.lookup a).getD [.nonterminal a]

def writeOut (short : Abbreviations) (form : List Symbol) : List Symbol :=
  form.flatMap (Symbol.expand short.meaning)

def written (short : Abbreviations) (p : Production) : Production :=
  ⟨p.lhs, short.writeOut p.rhs⟩

/-- The productions that say what the new nonterminals stand for. -/
def rules (short : Abbreviations) : List Production :=
  short.map fun (a, form) => ⟨a, form⟩

variable {short : Abbreviations}

theorem meaning_of_mem {a : Name} {form : List Symbol} (distinct : short.names.Nodup)
    (member : (a, form) ∈ short) : short.meaning a = form := by
  induction short with
  | nil => cases member
  | cons entry rest ih =>
    obtain ⟨b, other⟩ := entry
    obtain ⟨isNew, restDistinct⟩ := List.nodup_cons.mp distinct
    rcases List.mem_cons.mp member with same | later
    · cases same
      simp [meaning]
    · have different : a ≠ b := by
        intro same
        subst same
        exact isNew (List.mem_map.mpr ⟨(a, form), later, rfl⟩)
      have found := ih restDistinct later
      simpa [meaning, List.lookup_cons, beq_false_of_ne different] using found

theorem meaning_of_not_mem {a : Name} (old : a ∉ short.names) : short.meaning a = [.nonterminal a] := by
  have missing : short.lookup a = none := by
    rw [List.lookup_eq_none_iff]
    intro pair member
    obtain ⟨b, form⟩ := pair
    rw [bne_iff_ne]
    intro same
    subst same
    exact old (List.mem_map_of_mem member)
  simp [meaning, missing]

@[simp] theorem writeOut_append (x y : List Symbol) : short.writeOut (x ++ y) = short.writeOut x ++ short.writeOut y :=
  List.flatMap_append

theorem writeOut_nonterminal (a : Name) : short.writeOut [.nonterminal a] = short.meaning a := by
  simp [writeOut, Symbol.expand]

theorem writeOut_of_old {form : List Symbol} (old : ∀ a, .nonterminal a ∈ form → a ∉ short.names) :
    short.writeOut form = form := by
  induction form with
  | nil => rfl
  | cons s form ih =>
    have tail := ih fun a member => old a (.tail _ member)
    rw [← List.singleton_append, writeOut_append, tail]
    cases s with
    | terminal t => rfl
    | nonterminal a => rw [writeOut_nonterminal, meaning_of_not_mem (old a (.head _))]

theorem mem_writeOut_terminal {form : List Symbol} {t : Name} (member : .terminal t ∈ form) :
    .terminal t ∈ short.writeOut form :=
  List.mem_flatMap.mpr ⟨_, member, .head _⟩

theorem mem_writeOut_nonterminal {form : List Symbol} {a : Name} (member : .nonterminal a ∈ form)
    (old : a ∉ short.names) : .nonterminal a ∈ short.writeOut form := by
  refine List.mem_flatMap.mpr ⟨_, member, ?_⟩
  change _ ∈ short.meaning a
  rw [meaning_of_not_mem old]
  exact .head _

theorem mem_rules {p : Production} : p ∈ short.rules ↔ (p.lhs, p.rhs) ∈ short := by
  simp only [rules, List.mem_map, Prod.exists]
  constructor
  · intro found
    obtain ⟨a, form, member, rfl⟩ := found
    exact member
  · exact fun member => ⟨_, _, member, rfl⟩

theorem writeOut_word (word : List Name) : short.writeOut (word.map .terminal) = word.map .terminal :=
  writeOut_of_old fun a member => by simp at member

end Abbreviations

namespace Grammar

/-- Derivations carry over to a grammar that can follow every production, possibly with other
forms in place of the nonterminals. -/
theorem Derives.simulate {g h : Grammar} (meaning : Name → List Symbol)
    (rules : ∀ p ∈ g.productions, h.Derives (meaning p.lhs) (p.rhs.flatMap (Symbol.expand meaning)))
    {form last : List Symbol} (derivation : g.Derives form last) :
    h.Derives (form.flatMap (Symbol.expand meaning)) (last.flatMap (Symbol.expand meaning)) := by
  induction derivation with
  | refl => exact .refl _
  | step first _ ih =>
    refine Derives.trans ?_ ih
    obtain ⟨before, after, stored⟩ := first
    have inside := (rules _ stored).frame (before.flatMap (Symbol.expand meaning))
      (after.flatMap (Symbol.expand meaning))
    simpa [Symbol.expand] using inside

theorem Derives.replay {g h : Grammar} (rules : ∀ p ∈ g.productions, h.Derives [.nonterminal p.lhs] p.rhs)
    {form last : List Symbol} (derivation : g.Derives form last) : h.Derives form last := by
  have same : ∀ form : List Symbol, form.flatMap (Symbol.expand fun a => [.nonterminal a]) = form := by
    intro form
    induction form with
    | nil => rfl
    | cons s form ih => cases s <;> simpa [Symbol.expand] using ih
  have result := derivation.simulate (fun a => [.nonterminal a]) (by simpa only [same] using rules)
  simpa only [same] using result

/-- The grammar `h` is `g` with new nonterminals for some forms of `g`: its productions become
productions of `g` once the new nonterminals are written out, or say what one stands for. -/
structure Abbreviated (g h : Grammar) (short : Abbreviations) : Prop where
  start : h.start = g.start
  terminals : h.terminals = g.terminals
  nonterminals : ∀ a, a ∈ h.nonterminals ↔ a ∈ g.nonterminals ∨ a ∈ short.names
  distinct : short.names.Nodup
  fresh : ∀ a ∈ short.names, g.usesName a = false
  parts : ∀ a form, (a, form) ∈ short → ∃ p ∈ g.productions, form ⊆ p.rhs
  epsilon : ∀ p ∈ g.productions, p.rhs = [] → p ∈ h.productions
  replayed : ∀ p ∈ g.productions, p.rhs ≠ [] → h.solid.Derives [.nonterminal p.lhs] p.rhs
  writtenOut : ∀ p ∈ h.productions, (p.lhs, short.writeOut p.rhs) ∈ short ∨
    ⟨p.lhs, short.writeOut p.rhs⟩ ∈ g.productions
  /-- No production of `h` is there for nothing: each is used when one of `g` is followed. -/
  needed : ∀ p ∈ h.productions, ∃ q ∈ g.productions, ∃ before after,
    h.Derives [.nonterminal q.lhs] (before ++ .nonterminal p.lhs :: after) ∧
      h.Derives (before ++ p.rhs ++ after) q.rhs
  defined : ∀ a ∈ short.names, ∃ p ∈ h.productions, p.lhs = a

namespace Abbreviated

variable {g h : Grammar} {short : Abbreviations} (abbreviated : Abbreviated g h short)
include abbreviated

theorem not_mem_names {a : Name} (declared : a ∈ g.nonterminals) : a ∉ short.names := by
  intro member
  exact (usesName_eq_false_iff.mp (abbreviated.fresh a member)).2 declared

theorem exists_meaning {a : Name} (isNew : a ∈ short.names) : (a, short.meaning a) ∈ short := by
  obtain ⟨⟨b, form⟩, member, rfl⟩ := List.mem_map.mp isNew
  rwa [Abbreviations.meaning_of_mem abbreviated.distinct member]

theorem meaning_ne_nil (nonempty : ∀ a form, (a, form) ∈ short → form ≠ []) (a : Name) : short.meaning a ≠ [] := by
  by_cases isNew : a ∈ short.names
  · exact nonempty a _ (abbreviated.exists_meaning isNew)
  · rw [Abbreviations.meaning_of_not_mem isNew]
    exact List.cons_ne_nil _ _

theorem derives {form last : List Symbol} (derivation : g.Derives form last) : h.Derives form last := by
  refine derivation.replay fun p stored => ?_
  by_cases empty : p.rhs = []
  · exact derives_of_mem (abbreviated.epsilon p stored empty)
  · exact (abbreviated.replayed p stored empty).of_solid

theorem solid_derives {form last : List Symbol} (derivation : g.solid.Derives form last) :
    h.solid.Derives form last := by
  refine derivation.replay fun p stored => ?_
  obtain ⟨inG, nonempty⟩ := mem_solid.mp stored
  exact abbreviated.replayed p inG nonempty

/-- Written out, a derivation of `h` is one of `g`. -/
theorem derives_writeOut (coherent : g.Coherent) {form last : List Symbol} (derivation : h.Derives form last) :
    g.Derives (short.writeOut form) (short.writeOut last) := by
  refine derivation.simulate short.meaning fun p stored => ?_
  change g.Derives (short.meaning p.lhs) (short.writeOut p.rhs)
  rcases abbreviated.writtenOut p stored with isNew | old
  · rw [Abbreviations.meaning_of_mem abbreviated.distinct isNew]
    exact .refl _
  · rw [Abbreviations.meaning_of_not_mem (abbreviated.not_mem_names (coherent.heads _ old))]
    exact derives_of_mem old

/-- Abbreviations change the words of no old nonterminal. -/
theorem generates_iff (coherent : g.Coherent) {a : Name} (declared : a ∈ g.nonterminals) {word : List Name} :
    h.Generates a word ↔ g.Generates a word := by
  constructor
  · intro generates
    have written := abbreviated.derives_writeOut coherent generates
    rwa [Abbreviations.writeOut_word, Abbreviations.writeOut_nonterminal,
      Abbreviations.meaning_of_not_mem (abbreviated.not_mem_names declared)] at written
  · exact abbreviated.derives

/-- Written out, the symbols of a right-hand side stand in a right-hand side of `g`. -/
theorem exists_writeOut_subset {p : Production} (stored : p ∈ h.productions) :
    ∃ q ∈ g.productions, short.writeOut p.rhs ⊆ q.rhs := by
  rcases abbreviated.writtenOut p stored with isNew | old
  · exact abbreviated.parts _ _ isNew
  · exact ⟨_, old, fun _ member => member⟩

theorem coherent (coherent : g.Coherent) : h.Coherent where
  start := by
    rw [abbreviated.start]
    exact (abbreviated.nonterminals _).mpr (.inl coherent.start)
  heads p stored := by
    rw [abbreviated.nonterminals]
    rcases abbreviated.writtenOut p stored with isNew | old
    · exact .inr (List.mem_map.mpr ⟨_, isNew, rfl⟩)
    · have declared := coherent.heads _ old
      exact .inl declared

theorem closed (closed : g.Closed) : h.Closed where
  toCoherent := abbreviated.coherent closed.toCoherent
  mentioned p stored a member := by
    rw [abbreviated.nonterminals]
    by_cases isNew : a ∈ short.names
    · exact .inr isNew
    · obtain ⟨q, inG, subset⟩ := abbreviated.exists_writeOut_subset stored
      exact .inl (closed.mentioned q inG a (subset (Abbreviations.mem_writeOut_nonterminal member isNew)))

theorem wellFormed (formed : g.WellFormed) (named : ∀ a ∈ short.names, a ≠ "") : h.WellFormed where
  toClosed := abbreviated.closed formed.toClosed
  letters p stored t member := by
    obtain ⟨q, inG, subset⟩ := abbreviated.exists_writeOut_subset stored
    rw [abbreviated.terminals]
    exact formed.letters q inG t (subset (Abbreviations.mem_writeOut_terminal member))
  disjoint a isTerminal isNonterminal := by
    rw [abbreviated.terminals] at isTerminal
    rcases (abbreviated.nonterminals a).mp isNonterminal with old | isNew
    · exact formed.disjoint a isTerminal old
    · exact (usesName_eq_false_iff.mp (abbreviated.fresh a isNew)).1 isTerminal
  terminal_ne a member := formed.terminal_ne a (abbreviated.terminals ▸ member)
  nonterminal_ne a member := by
    rcases (abbreviated.nonterminals a).mp member with old | isNew
    · exact formed.nonterminal_ne a old
    · exact named a isNew

end Abbreviated

end Grammar

end ContextFree
