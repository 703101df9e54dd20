import ContextFree.Proofs.WellFormed
import ContextFree.Text.Line

namespace ContextFree.Text

def Item.token : Item → Token
  | epsilon => .epsilon
  | name text => .name text

/-- The tokens of the alternatives of a rule, with bars between them. -/
def barred (alternatives : List (List Item)) : List Token :=
  [Token.bar].intercalate (alternatives.map (·.map Item.token))

namespace Line

/-- The tokens that a line is written with. -/
def tokens : Line → List Token
  | declare declaration names => .keyword declaration :: .colon :: names.map .name
  | rule lhs alternatives => .name lhs :: .arrow :: barred alternatives

/-- A rule has one alternative more than bars, so it has one at least. -/
def Filled : Line → Prop
  | declare .. => True
  | rule _ alternatives => alternatives ≠ []

end Line

@[simp] theorem barred_singleton (items : List Item) : barred [items] = items.map Item.token := by
  rw [barred, List.map_singleton, List.intercalate_singleton]

theorem barred_cons {alternatives : List (List Item)} (filled : alternatives ≠ []) (items : List Item) :
    barred (items :: alternatives) = items.map Item.token ++ .bar :: barred alternatives := by
  rw [barred, List.map_cons, List.intercalate_cons_of_ne_nil (by simpa using filled), List.append_assoc]
  rfl

theorem mem_barred {alternatives : List (List Item)} {t : Token} : t ∈ barred alternatives ↔
    (t = .bar ∧ 1 < alternatives.length) ∨ ∃ items ∈ alternatives, ∃ item ∈ items, item.token = t := by
  induction alternatives with
  | nil => simp [barred]
  | cons first others ih =>
    cases others with
    | nil => simp
    | cons second others =>
      rw [barred_cons (List.cons_ne_nil _ _), List.mem_append, List.mem_cons, ih, List.mem_map]
      simp only [List.length_cons, List.mem_cons, exists_eq_or_imp]
      constructor
      · intro found
        rcases found with here | isBar | ⟨isBar, _⟩ | behind
        · exact .inr (.inl here)
        · exact .inl ⟨isBar, by omega⟩
        · exact .inl ⟨isBar, by omega⟩
        · exact .inr (.inr behind)
      · intro found
        rcases found with ⟨isBar, _⟩ | here | behind
        · exact .inr (.inl isBar)
        · exact .inl here
        · exact .inr (.inr (.inr behind))

/-- A rule with `n` bars has `n + 1` alternatives. -/
theorem length_eq_count_bar {alternatives : List (List Item)} (filled : alternatives ≠ []) :
    alternatives.length = (barred alternatives).count .bar + 1 := by
  have noBar (items : List Item) : (items.map Item.token).count .bar = 0 := by
    refine List.count_eq_zero.mpr fun member => ?_
    obtain ⟨item, _, same⟩ := List.mem_map.mp member
    cases item <;> cases same
  induction alternatives with
  | nil => exact absurd rfl filled
  | cons first others ih =>
    cases others with
    | nil => rw [barred_singleton, noBar, List.length_singleton]
    | cons second others =>
      rw [barred_cons (List.cons_ne_nil _ _), List.count_append, List.count_cons_self, noBar, ← ih (List.cons_ne_nil _ _),
        Nat.zero_add, List.length_cons]

namespace Line

theorem extend_ne_nil (item : Item) (alternatives : List (List Item)) : extend item alternatives ≠ [] := by
  cases alternatives <;> simp [extend]

theorem barred_extend {alternatives : List (List Item)} (filled : alternatives ≠ []) (item : Item) :
    barred (extend item alternatives) = item.token :: barred alternatives := by
  obtain ⟨first, others, rfl⟩ := List.exists_cons_of_ne_nil filled
  cases others with
  | nil => simp [extend]
  | cons second others => simp [extend, barred_cons]

theorem eq_of_barred_eq_nil {alternatives : List (List Item)} (filled : alternatives ≠ [])
    (none : barred alternatives = []) : alternatives = [[]] := by
  obtain ⟨first, others, rfl⟩ := List.exists_cons_of_ne_nil filled
  cases others with
  | nil => simpa using none
  | cons second others => simp [barred_cons] at none

/-- The first token of alternatives ends an empty one or belongs to the first. -/
theorem exists_of_barred_eq_cons {alternatives : List (List Item)} (filled : alternatives ≠ []) {token : Token}
    {rest : List Token} (some : barred alternatives = token :: rest) : ∃ fewer ≠ [], barred fewer = rest ∧
      (token = .bar ∧ alternatives = [] :: fewer ∨ ∃ item : Item, token = item.token ∧ alternatives = extend item fewer) := by
  obtain ⟨first, others, rfl⟩ := List.exists_cons_of_ne_nil filled
  cases first with
  | nil =>
    have more : others ≠ [] := by
      intro none
      simp [none] at some
    rw [barred_cons more, List.map_nil, List.nil_append, List.cons.injEq] at some
    exact ⟨others, more, some.2, .inl ⟨some.1.symm, rfl⟩⟩
  | cons item items =>
    have split : (item :: items) :: others = extend item (items :: others) := rfl
    have filled : items :: others ≠ [] := List.cons_ne_nil _ _
    rw [split, barred_extend filled, List.cons.injEq] at some
    exact ⟨items :: others, filled, some.2, .inr ⟨item, some.1.symm, rfl⟩⟩

theorem names_eq_ok_iff {tokens : List Token} {texts : List Name} :
    names tokens = .ok texts ↔ tokens = texts.map .name := by
  fun_induction names tokens generalizing texts with
  | case1 => cases texts <;> simp
  | case2 text rest ih =>
    simp only [map_eq_ok_iff, ih]
    constructor
    · intro found
      obtain ⟨others, rfl, rfl⟩ := found
      rfl
    · intro same
      obtain ⟨first, others, rfl, token, behind⟩ := List.map_eq_cons_iff.mp same.symm
      cases token
      exact ⟨others, behind.symm, rfl⟩
  | case3 token rest notName =>
    cases texts with
    | nil => simp
    | cons text texts =>
      simp only [reduceCtorEq, List.map_cons, List.cons.injEq, false_iff, not_and]
      exact fun same => absurd same (notName text)

theorem eq_of_alternatives {tokens : List Token} {read : List (List Item)} (ok : alternatives tokens = .ok read) :
    read ≠ [] ∧ tokens = barred read := by
  fun_induction alternatives tokens generalizing read with
  | case1 =>
    cases ok
    simp
  | case2 rest ih =>
    obtain ⟨fewer, found, rfl⟩ := map_eq_ok_iff.mp ok
    obtain ⟨filled, same⟩ := ih found
    exact ⟨List.cons_ne_nil _ _, by simp [barred_cons filled, same]⟩
  | case3 rest ih =>
    obtain ⟨fewer, found, rfl⟩ := map_eq_ok_iff.mp ok
    obtain ⟨filled, same⟩ := ih found
    exact ⟨extend_ne_nil _ _, by rw [barred_extend filled, same, Item.token]⟩
  | case4 rest text ih =>
    obtain ⟨fewer, found, rfl⟩ := map_eq_ok_iff.mp ok
    obtain ⟨filled, same⟩ := ih found
    exact ⟨extend_ne_nil _ _, by rw [barred_extend filled, same, Item.token]⟩
  | case5 => cases ok

theorem alternatives_barred {read : List (List Item)} (filled : read ≠ []) : alternatives (barred read) = .ok read := by
  generalize same : barred read = tokens
  induction tokens generalizing read with
  | nil =>
    rw [eq_of_barred_eq_nil filled same]
    rfl
  | cons token rest ih =>
    obtain ⟨fewer, more, behind, ⟨rfl, rfl⟩ | ⟨item, rfl, rfl⟩⟩ := exists_of_barred_eq_cons filled same
    · rw [alternatives, ih more behind]
      rfl
    · cases item <;>
        · rw [Item.token, alternatives, ih more behind]
          rfl

theorem alternatives_eq_ok_iff {tokens : List Token} {read : List (List Item)} :
    alternatives tokens = .ok read ↔ read ≠ [] ∧ tokens = barred read := by
  refine ⟨eq_of_alternatives, fun found => ?_⟩
  obtain ⟨filled, rfl⟩ := found
  exact alternatives_barred filled

/-- Lines are read exactly from the tokens that they are written with. -/
theorem ofTokens_eq_ok_iff {read : List Token} {line : Line} :
    ofTokens read = .ok line ↔ line.Filled ∧ read = line.tokens := by
  constructor
  · intro ok
    unfold ofTokens at ok
    split at ok
    · obtain ⟨texts, found, rfl⟩ := map_eq_ok_iff.mp ok
      exact ⟨trivial, by rw [names_eq_ok_iff.mp found, tokens]⟩
    · obtain ⟨alternatives, found, rfl⟩ := map_eq_ok_iff.mp ok
      obtain ⟨filled, same⟩ := alternatives_eq_ok_iff.mp found
      exact ⟨filled, by rw [same, tokens]⟩
    all_goals cases ok
  · intro found
    obtain ⟨filled, rfl⟩ := found
    cases line with
    | declare declaration texts => exact map_eq_ok_iff.mpr ⟨texts, names_eq_ok_iff.mpr rfl, rfl⟩
    | rule lhs read => exact map_eq_ok_iff.mpr ⟨read, alternatives_barred filled, rfl⟩

end Line

end ContextFree.Text
