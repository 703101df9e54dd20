import ContextFree.Derivation

namespace ContextFree.Grammar

theorem derives_of_mem {g : Grammar} {p : Production} (stored : p ∈ g.productions) :
    g.Derives [.nonterminal p.lhs] p.rhs :=
  .step (by simpa using Step.apply [] [] stored) (.refl _)

theorem Derives.mono {g h : Grammar} (subset : ∀ p ∈ g.productions, p ∈ h.productions) {form last : List Symbol}
    (derivation : g.Derives form last) : h.Derives form last := by
  induction derivation with
  | refl => exact .refl _
  | step first _ ih =>
    obtain ⟨before, after, stored⟩ := first
    exact .step (.apply before after (subset _ stored)) ih

/-- What holds of all symbols of a form, and passes from a nonterminal to its right-hand sides,
holds of all symbols of every form derived from it. -/
theorem Derives.forall_mem {g : Grammar} {holds : Symbol → Prop}
    (rules : ∀ p ∈ g.productions, holds (.nonterminal p.lhs) → ∀ s ∈ p.rhs, holds s) {form last : List Symbol}
    (derivation : g.Derives form last) (initial : ∀ s ∈ form, holds s) : ∀ s ∈ last, holds s := by
  induction derivation with
  | refl => exact initial
  | step first _ ih =>
    obtain ⟨before, after, stored⟩ := first
    obtain ⟨inBefore, head, inAfter⟩ := by simpa only [List.forall_mem_append, List.forall_mem_cons] using initial
    refine ih (List.forall_mem_append.mpr ⟨List.forall_mem_append.mpr ⟨inBefore, ?_⟩, inAfter⟩)
    exact rules _ stored head

/-- The words that a sentential form derives, read off the form from left to right. A nonterminal
is replaced at once by a whole word of one of its right-hand sides. -/
inductive Yields (g : Grammar) : List Symbol → List Name → Prop
  | nil : Yields g [] []
  | terminal {t : Name} {form : List Symbol} {word : List Name} :
      Yields g form word → Yields g (.terminal t :: form) (t :: word)
  | nonterminal {a : Name} {rhs form : List Symbol} {inner word : List Name} :
      ⟨a, rhs⟩ ∈ g.productions → Yields g rhs inner → Yields g form word →
      Yields g (.nonterminal a :: form) (inner ++ word)

theorem Yields.append {g : Grammar} {x y : List Symbol} {u v : List Name} (left : g.Yields x u)
    (right : g.Yields y v) : g.Yields (x ++ y) (u ++ v) := by
  induction left with
  | nil => exact right
  | terminal _ ih => exact .terminal ih
  | nonterminal stored inner _ _ ih =>
    rw [List.append_assoc]
    exact .nonterminal stored inner ih

theorem yields_append_iff {g : Grammar} {x y : List Symbol} {word : List Name} :
    g.Yields (x ++ y) word ↔ ∃ u v, word = u ++ v ∧ g.Yields x u ∧ g.Yields y v := by
  constructor
  · intro yields
    induction x generalizing word with
    | nil => exact ⟨[], word, rfl, .nil, yields⟩
    | cons s x ih =>
      cases yields with
      | terminal rest =>
        obtain ⟨u, v, rfl, left, right⟩ := ih rest
        exact ⟨_ :: u, v, rfl, .terminal left, right⟩
      | nonterminal stored inner rest =>
        obtain ⟨u, v, rfl, left, right⟩ := ih rest
        exact ⟨_, v, (List.append_assoc ..).symm, .nonterminal stored inner left, right⟩
  · intro found
    obtain ⟨u, v, rfl, left, right⟩ := found
    exact left.append right

theorem Yields.split {g : Grammar} {before middle after : List Symbol} {word : List Name}
    (yields : g.Yields (before ++ middle ++ after) word) :
    ∃ u inner v, word = u ++ inner ++ v ∧ g.Yields before u ∧ g.Yields middle inner ∧ g.Yields after v := by
  obtain ⟨front, v, rfl, left, right⟩ := yields_append_iff.mp yields
  obtain ⟨u, inner, rfl, first, second⟩ := yields_append_iff.mp left
  exact ⟨u, inner, v, rfl, first, second, right⟩

theorem yields_nil_iff {g : Grammar} {word : List Name} : g.Yields [] word ↔ word = [] := by
  constructor
  · intro yields
    cases yields
    rfl
  · intro same
    subst same
    exact .nil

theorem yields_nonterminal_iff {g : Grammar} {a : Name} {word : List Name} :
    g.Yields [.nonterminal a] word ↔ ∃ rhs, ⟨a, rhs⟩ ∈ g.productions ∧ g.Yields rhs word := by
  constructor
  · intro yields
    cases yields with
    | nonterminal stored inner rest =>
      cases rest
      exact ⟨_, stored, by simpa using inner⟩
  · intro found
    obtain ⟨rhs, stored, inner⟩ := found
    simpa using Yields.nonterminal stored inner .nil

theorem Yields.of_mem {g : Grammar} {p : Production} {word : List Name} (stored : p ∈ g.productions)
    (yields : g.Yields p.rhs word) : g.Yields [.nonterminal p.lhs] word :=
  yields_nonterminal_iff.mpr ⟨p.rhs, stored, yields⟩

theorem yields_terminals (g : Grammar) (word : List Name) : g.Yields (word.map .terminal) word := by
  induction word with
  | nil => exact .nil
  | cons t word ih => exact .terminal ih

theorem Yields.derives {g : Grammar} {form : List Symbol} {word : List Name} (yields : g.Yields form word) :
    g.Derives form (word.map .terminal) := by
  induction yields with
  | nil => exact .refl _
  | terminal _ ih => exact (Derives.refl [_]).append ih
  | @nonterminal a rhs form inner word stored _ _ ihInner ihRest =>
    have head : g.Derives [.nonterminal a] rhs := derives_of_mem stored
    rw [List.map_append]
    exact (head.trans ihInner).append ihRest

theorem Step.yields {g : Grammar} {form next : List Symbol} {word : List Name} (step : g.Step form next)
    (yields : g.Yields next word) : g.Yields form word := by
  obtain ⟨before, after, stored⟩ := step
  obtain ⟨u, inner, v, rfl, left, middle, right⟩ := yields.split
  rw [List.append_assoc]
  exact left.append (.nonterminal stored middle right)

theorem Derives.yields {g : Grammar} {form last : List Symbol} {word : List Name}
    (derivation : g.Derives form last) (yields : g.Yields last word) : g.Yields form word := by
  induction derivation with
  | refl => exact yields
  | step first _ ih => exact first.yields (ih yields)

theorem yields_iff_derives {g : Grammar} {form : List Symbol} {word : List Name} :
    g.Yields form word ↔ g.Derives form (word.map .terminal) :=
  ⟨Yields.derives, fun derivation => derivation.yields (yields_terminals g word)⟩

theorem generates_iff_yields {g : Grammar} {a : Name} {word : List Name} :
    g.Generates a word ↔ g.Yields [.nonterminal a] word :=
  yields_iff_derives.symm

/-- A derivation is copied by a grammar that has enough of the productions. Those that matter are
the productions of nonterminals worth keeping whose right-hand sides yield a word. -/
theorem Yields.restrict {g h : Grammar} {keep : Name → Prop}
    (rules : ∀ a rhs, ⟨a, rhs⟩ ∈ g.productions → keep a → (∃ word, g.Yields rhs word) →
      ⟨a, rhs⟩ ∈ h.productions ∧ ∀ b, .nonterminal b ∈ rhs → keep b)
    {form : List Symbol} {word : List Name} (yields : g.Yields form word)
    (kept : ∀ b, .nonterminal b ∈ form → keep b) : h.Yields form word := by
  induction yields with
  | nil => exact .nil
  | terminal _ ih => exact .terminal (ih fun b member => kept b (.tail _ member))
  | nonterminal stored inner _ ihInner ihRest =>
    obtain ⟨copied, inside⟩ := rules _ _ stored (kept _ (.head _)) ⟨_, inner⟩
    exact .nonterminal copied (ihInner inside) (ihRest fun b member => kept b (.tail _ member))

theorem Yields.mono {g h : Grammar} (subset : ∀ p ∈ g.productions, p ∈ h.productions) {form : List Symbol}
    {word : List Name} (yields : g.Yields form word) : h.Yields form word :=
  yields_iff_derives.mpr (yields.derives.mono subset)

/-- Each nonterminal of a form that yields a word yields a part of it. -/
theorem Yields.inside {g : Grammar} {form : List Symbol} {word : List Name} (yields : g.Yields form word)
    {a : Name} (member : .nonterminal a ∈ form) :
    ∃ inner, g.Yields [.nonterminal a] inner ∧ inner.Sublist word := by
  obtain ⟨before, after, rfl⟩ := List.append_of_mem member
  rw [List.append_cons] at yields
  obtain ⟨u, inner, v, rfl, _, head, _⟩ := yields.split
  exact ⟨inner, head, (List.sublist_append_right u inner).trans (List.sublist_append_left _ v)⟩

theorem Yields.terminal_mem {g : Grammar} {form : List Symbol} {word : List Name} (yields : g.Yields form word)
    {t : Name} (member : .terminal t ∈ form) : t ∈ word := by
  obtain ⟨before, after, rfl⟩ := List.append_of_mem member
  obtain ⟨u, v, rfl, _, rest⟩ := yields_append_iff.mp yields
  cases rest
  simp

/-- The letters of a word come from the form that yields it or from a production. -/
theorem Yields.exists_terminal_mem {g : Grammar} {form : List Symbol} {word : List Name}
    (yields : g.Yields form word) {t : Name} (member : t ∈ word) :
    .terminal t ∈ form ∨ ∃ p ∈ g.productions, .terminal t ∈ p.rhs := by
  induction yields with
  | nil => cases member
  | terminal _ ih =>
    rcases List.mem_cons.mp member with same | later
    · subst same
      exact .inl (.head _)
    · exact (ih later).imp_left (.tail _)
  | nonterminal stored _ _ ihInner ihRest =>
    rcases List.mem_append.mp member with inside | later
    · rcases ihInner inside with inRhs | other
      · exact .inr ⟨_, stored, inRhs⟩
      · exact .inr other
    · exact (ihRest later).imp_left (.tail _)

/-- The grammar less its ε-productions. -/
def solid (g : Grammar) : Grammar :=
  { g with productions := g.productions.filter fun p => !p.isEpsilon }

theorem mem_solid {g : Grammar} {p : Production} : p ∈ g.solid.productions ↔ p ∈ g.productions ∧ p.rhs ≠ [] := by
  simp [solid, Production.isEpsilon]

theorem Derives.of_solid {g : Grammar} {form last : List Symbol} (derivation : g.solid.Derives form last) :
    g.Derives form last :=
  derivation.mono fun _ stored => (mem_solid.mp stored).1

/-- Without ε-productions nothing but the empty form yields the empty word. -/
theorem Yields.eq_nil {g : Grammar} {form : List Symbol} (yields : g.solid.Yields form []) : form = [] := by
  generalize empty : ([] : List Name) = word at yields
  induction yields with
  | nil => rfl
  | terminal => cases empty
  | nonterminal stored _ _ ihInner _ =>
    obtain ⟨rfl, _⟩ := List.append_eq_nil_iff.mp empty.symm
    exact absurd (ihInner rfl) (mem_solid.mp stored).2

end ContextFree.Grammar
