import ContextFree.Proofs.TextFormat

namespace ContextFree.Text

/-- Tokens with single spaces between them. -/
def joined (tokens : List Token) : List Char :=
  [' '].intercalate (tokens.map (·.spelling.toList))

/-- The text of a line. A rule is set in from the margin. -/
def Line.written : Line → List Char
  | declare declaration names => declaration.spelling.toList ++ ':' :: ' ' :: joined (names.map .name)
  | rule lhs alternatives => ' ' :: spaced (rule lhs alternatives).tokens

/-- The names of a line can stand in a text. -/
def Line.Legible (line : Line) : Prop :=
  ∀ t ∈ line.tokens, t.Legible

theorem spaced_cons (t : Token) (rest : List Token) : spaced (t :: rest) = ' ' :: t.spelling.toList ++ spaced rest := by
  simp [spaced]

theorem spaced_append (first second : List Token) : spaced (first ++ second) = spaced first ++ spaced second := by
  simp [spaced]

theorem joined_cons {rest : List Token} (t : Token) : joined (t :: rest) = t.spelling.toList ++ spaced rest := by
  induction rest generalizing t with
  | nil => simp [joined, spaced]
  | cons u rest ih =>
    rw [spaced_cons, List.cons_append, ← ih u]
    simp [joined]

theorem spaced_eq_joined {tokens : List Token} (filled : tokens ≠ []) : spaced tokens = ' ' :: joined tokens := by
  obtain ⟨t, rest, rfl⟩ := List.exists_cons_of_ne_nil filled
  rw [spaced_cons, joined_cons, List.cons_append]

/-- Bars have a space on either side. -/
theorem spaced_barred {alternatives : List (List Item)} (filled : alternatives ≠ [])
    (nonempty : ∀ items ∈ alternatives, items ≠ []) :
    spaced (barred alternatives) =
      ' ' :: [' ', '|', ' '].intercalate (alternatives.map fun items => joined (items.map Item.token)) := by
  have spacedItems {items : List Item} (some : items ≠ []) :
      spaced (items.map Item.token) = ' ' :: joined (items.map Item.token) :=
    spaced_eq_joined (by simpa using some)
  induction alternatives with
  | nil => exact absurd rfl filled
  | cons first others ih =>
    obtain ⟨here, behind⟩ := List.forall_mem_cons.mp nonempty
    cases others with
    | nil => simp [spacedItems here]
    | cons second others =>
      rw [barred_cons (List.cons_ne_nil _ _), spaced_append, spaced_cons, spacedItems here,
        ih (List.cons_ne_nil _ _) behind, List.map_cons (l := second :: others),
        List.intercalate_cons_of_ne_nil (by simp)]
      simp [Token.spelling]

theorem legible_barred {alternatives : List (List Item)}
    (legible : ∀ items ∈ alternatives, ∀ item ∈ items, item.token.Legible) :
    ∀ t ∈ barred alternatives, t.Legible := by
  intro t member
  rcases mem_barred.mp member with ⟨rfl, _⟩ | ⟨items, isAlternative, item, inItems, rfl⟩
  · trivial
  · exact legible items isAlternative item inItems

/-! ### Reading what was written -/

theorem Reads.joined {tokens : List Token} (legible : ∀ t ∈ tokens, t.Legible) :
    Reads (' ' :: joined tokens) tokens := by
  cases tokens with
  | nil => exact .blank (by decide) .nil
  | cons t rest =>
    rw [← spaced_eq_joined (List.cons_ne_nil _ _)]
    exact .spaced legible

theorem Line.Legible.reads {line : Line} (legible : line.Legible) : Reads line.written line.tokens := by
  cases line with
  | declare declaration names =>
    have behind : ∀ t ∈ names.map Token.name, t.Legible := fun t member => legible t (.tail _ (.tail _ member))
    have stop : ∀ c ∈ (':' :: ' ' :: Text.joined (names.map .name)).head?, isNameChar c = false := by
      simp [isNameChar]
    exact .token (t := .keyword declaration) trivial stop (.colon (.joined behind))
  | rule lhs alternatives => exact .blank (by decide) (.spaced legible)

/-- A character that ends neither a line nor what is read of it. -/
def Inline (c : Char) : Prop :=
  c ≠ '\n' ∧ c ≠ '#'

theorem Token.Legible.inline {t : Token} (legible : t.Legible) : ∀ c ∈ t.spelling.toList, Inline c := by
  cases t with
  | name text =>
    intro c member
    have plain := legible.plain c member
    constructor <;>
      · rintro rfl
        simp [isNameChar, isBlank, blankRanges] at plain
  | arrow | epsilon | bar | colon => simp [Token.spelling, Inline]
  | keyword declaration => cases declaration <;> simp [Token.spelling, Declaration.spelling, Inline]

theorem inline_spaced {tokens : List Token} (legible : ∀ t ∈ tokens, t.Legible) : ∀ c ∈ spaced tokens, Inline c := by
  intro c member
  obtain ⟨t, inTokens, inSpelling⟩ := List.mem_flatMap.mp member
  rcases List.mem_cons.mp inSpelling with rfl | inSpelling
  · simp [Inline]
  · exact (legible t inTokens).inline c inSpelling

theorem inline_joined {tokens : List Token} (legible : ∀ t ∈ tokens, t.Legible) : ∀ c ∈ joined tokens, Inline c := by
  cases tokens with
  | nil => exact List.forall_mem_nil _
  | cons t rest =>
    have all := inline_spaced legible
    rw [spaced_eq_joined (List.cons_ne_nil _ _)] at all
    exact (List.forall_mem_cons.mp all).2

theorem Line.Legible.inline {line : Line} (legible : line.Legible) : ∀ c ∈ line.written, Inline c := by
  cases line with
  | declare declaration names =>
    have keyword : (Token.keyword declaration).Legible := trivial
    refine List.forall_mem_append.mpr ⟨keyword.inline, List.forall_mem_cons.mpr ⟨by simp [Inline], ?_⟩⟩
    refine List.forall_mem_cons.mpr ⟨by simp [Inline], ?_⟩
    exact inline_joined fun t member => legible t (.tail _ (.tail _ member))
  | rule lhs alternatives => exact List.forall_mem_cons.mpr ⟨by simp [Inline], inline_spaced legible⟩

theorem uncommented_of_inline {raw : List Char} (inline : ∀ c ∈ raw, Inline c) : uncommented raw = raw := by
  have noSign : '#' ∉ raw := fun member => (inline _ member).2 rfl
  have kept := uncommented_append noSign []
  rw [List.append_nil] at kept
  exact kept.trans (List.append_nil raw)

/-- Lines that were written say what they said. -/
theorem consists_written {parsed : List Line} (legible : ∀ line ∈ parsed, line.Legible)
    (proper : ∀ line ∈ parsed, line.Proper) :
    Consists (lines (parsed.flatMap fun line => line.written ++ ['\n'])) parsed := by
  induction parsed with
  | nil => exact .nil
  | cons line rest ih =>
    obtain ⟨here, behind⟩ := List.forall_mem_cons.mp legible
    obtain ⟨sound, others⟩ := List.forall_mem_cons.mp proper
    have reads := here.reads
    rw [← uncommented_of_inline here.inline] at reads
    have noFeed : '\n' ∉ line.written := fun member => (here.inline _ member).1 rfl
    rw [List.flatMap_cons, List.append_assoc, List.singleton_append, lines_feed noFeed]
    exact .line reads sound (ih behind others)

end ContextFree.Text
