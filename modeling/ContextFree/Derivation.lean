import ContextFree.Grammar

namespace ContextFree.Grammar

/-- One derivation step: a nonterminal becomes the right-hand side of one of its productions. -/
inductive Step (g : Grammar) : List Symbol → List Symbol → Prop
  | apply (before after : List Symbol) {p : Production} (stored : p ∈ g.productions) :
      Step g (before ++ .nonterminal p.lhs :: after) (before ++ p.rhs ++ after)

/-- Any number of derivation steps. -/
inductive Derives (g : Grammar) : List Symbol → List Symbol → Prop
  | refl (form : List Symbol) : Derives g form form
  | step {form next last : List Symbol} : Step g form next → Derives g next last → Derives g form last

/-- The words of terminals that a nonterminal derives. -/
def Generates (g : Grammar) (a : Name) (word : List Name) : Prop :=
  g.Derives [.nonterminal a] (word.map .terminal)

/-- The words that the start symbol derives. -/
def Accepts (g : Grammar) (word : List Name) : Prop :=
  g.Generates g.start word

theorem Derives.trans {g : Grammar} {form middle last : List Symbol} (first : g.Derives form middle)
    (second : g.Derives middle last) : g.Derives form last := by
  induction first with
  | refl => exact second
  | step first _ ih => exact .step first (ih second)

theorem Step.frame {g : Grammar} {form next : List Symbol} (step : g.Step form next)
    (left right : List Symbol) : g.Step (left ++ form ++ right) (left ++ next ++ right) := by
  obtain ⟨before, after, stored⟩ := step
  simpa using Step.apply (left ++ before) (after ++ right) stored

theorem Derives.frame {g : Grammar} {form last : List Symbol} (derivation : g.Derives form last)
    (left right : List Symbol) : g.Derives (left ++ form ++ right) (left ++ last ++ right) := by
  induction derivation with
  | refl => exact .refl _
  | step first _ ih => exact .step (first.frame left right) ih

theorem Derives.append {g : Grammar} {x x' y y' : List Symbol} (left : g.Derives x x') (right : g.Derives y y') :
    g.Derives (x ++ y) (x' ++ y') := by
  have first := left.frame [] y
  have second := right.frame x' []
  simp only [List.nil_append, List.append_nil] at first second
  exact first.trans second

end ContextFree.Grammar
