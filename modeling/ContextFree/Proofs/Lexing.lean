import ContextFree.Text.Token
import Mathlib.Data.List.Find

namespace ContextFree.Text

/-- The words that mean something by themselves in a grammar text. -/
def reserved : List String := ["->", "ε", "nonterminals", "terminals", "start"]

/-- A name that can stand in a grammar text. -/
structure Lexable (name : Name) : Prop where
  nonempty : name ≠ ""
  plain : ∀ c ∈ name.toList, isNameChar c = true
  free : name ∉ reserved

instance (name : Name) : Decidable (Lexable name) :=
  decidable_of_iff (name ≠ "" ∧ name.toList.all isNameChar = true ∧ name ∉ reserved)
    ⟨fun ⟨nonempty, plain, free⟩ => ⟨nonempty, List.all_eq_true.mp plain, free⟩,
      fun h => ⟨h.nonempty, List.all_eq_true.mpr h.plain, h.free⟩⟩

theorem isBlank_of_isNameChar {c : Char} (plain : isNameChar c = true) : isBlank c = false := by
  simp only [isNameChar, Bool.and_eq_true, Bool.not_eq_true'] at plain
  exact plain.1.1.1

/-- A run of characters of names is a reserved word or a name. -/
def Token.ofRun (run : List Char) : Token :=
  (literals.find? fun t => t.spelling.toList = run).getD (.name (String.ofList run))

/-- The tokens of a text, read off from left to right. A bar and a colon stand for themselves; of
other characters that are not white space the longest run is taken. -/
inductive Reads : List Char → List Token → Prop
  | nil : Reads [] []
  | blank {c : Char} {rest : List Char} {tokens : List Token} :
      isBlank c = true → Reads rest tokens → Reads (c :: rest) tokens
  | bar {rest : List Char} {tokens : List Token} : Reads rest tokens → Reads ('|' :: rest) (.bar :: tokens)
  | colon {rest : List Char} {tokens : List Token} : Reads rest tokens → Reads (':' :: rest) (.colon :: tokens)
  | run {run rest : List Char} {tokens : List Token} : run ≠ [] → (∀ c ∈ run, isNameChar c = true) →
      (∀ c ∈ rest.head?, isNameChar c = false) → Reads rest tokens → Reads (run ++ rest) (.ofRun run :: tokens)

/-! ### Runs as literals -/

theorem eq_of_spelling : ∀ t ∈ Token.literals, ∀ u ∈ Token.literals, t.spelling.toList = u.spelling.toList → t = u := by
  decide +kernel

theorem ofRun_eq_of_spelling {t : Token} (literal : t ∈ Token.literals) {run : List Char}
    (same : t.spelling.toList = run) : Token.ofRun run = t := by
  rw [Token.ofRun]
  cases found : Token.literals.find? fun u => u.spelling.toList = run with
  | none => exact absurd same (by simpa using List.find?_eq_none.mp found t literal)
  | some u =>
    have spelled : u.spelling.toList = run := by simpa using List.find?_some found
    exact eq_of_spelling u (List.mem_of_find?_eq_some found) t literal (spelled.trans same.symm)

theorem ofRun_eq_name {run : List Char} (other : ∀ t ∈ Token.literals, t.spelling.toList ≠ run) :
    Token.ofRun run = .name (String.ofList run) := by
  have none : (Token.literals.find? fun t => t.spelling.toList = run) = none :=
    List.find?_eq_none.mpr fun t literal => by simpa using other t literal
  rw [Token.ofRun, none, Option.getD_none]

theorem name_not_literal (text : Name) : .name text ∉ Token.literals := by
  simp [Token.literals]

/-- A run is a literal that it spells as a whole, and else a name. -/
theorem ofRun_eq_literal_iff {t : Token} (literal : t ∈ Token.literals) {run : List Char} :
    Token.ofRun run = t ↔ t.spelling.toList = run := by
  refine ⟨fun same => ?_, ofRun_eq_of_spelling literal⟩
  by_contra different
  rw [Token.ofRun] at same
  cases found : Token.literals.find? fun u => u.spelling.toList = run with
  | none =>
    rw [found, Option.getD_none] at same
    exact name_not_literal _ (same ▸ literal)
  | some u =>
    rw [found, Option.getD_some] at same
    subst same
    exact different (by simpa using List.find?_some found)

theorem ofRun_eq_name_iff {run : List Char} {text : Name} :
    Token.ofRun run = .name text ↔ text = String.ofList run ∧ ∀ t ∈ Token.literals, t.spelling.toList ≠ run := by
  constructor
  · intro named
    have other : ∀ t ∈ Token.literals, t.spelling.toList ≠ run := by
      intro t literal spelled
      rw [ofRun_eq_of_spelling literal spelled] at named
      exact name_not_literal text (named ▸ literal)
    rw [ofRun_eq_name other, Token.name.injEq] at named
    exact ⟨named.symm, other⟩
  · rintro ⟨rfl, other⟩
    exact ofRun_eq_name other

/-! ### The scanner -/

theorem scan_length (taken rest : List Char) : scan taken.length (taken ++ rest) = scan 0 rest := by
  induction taken with
  | nil => rfl
  | cons c taken ih => rw [List.length_cons, List.cons_append, scan, ih]

/-- Where no lexeme is longer than the last one, the first that is as long is taken. -/
theorem longest_concat {shorter : List Lexeme} {last : Lexeme} (le : ∀ x ∈ shorter, x.length ≤ last.length) :
    longest (shorter ++ [last]) = some ((shorter.find? fun x => x.length = last.length).getD last) := by
  induction shorter with
  | nil => rfl
  | cons x rest ih =>
    have tail := ih fun y later => le y (.tail _ later)
    have length : ((rest.find? fun y => y.length = last.length).getD last).length = last.length := by
      cases found : rest.find? fun y => y.length = last.length with
      | none => rfl
      | some y => simpa using List.find?_some found
    rw [List.cons_append, longest, tail]
    simp only [length, List.find?_cons]
    by_cases same : x.length = last.length
    · simp [same]
    · have less : x.length < last.length := Nat.lt_of_le_of_ne (le x (.head _)) same
      simp [same, less]

/-- Literals are runs of characters of names, but for the two that are no such characters. -/
theorem plain_or_mark : ∀ t ∈ Token.literals, t.spelling.toList.all isNameChar = true ∨
    t.spelling.toList = ['|'] ∨ t.spelling.toList = [':'] := by
  decide +kernel

section

variable {run rest : List Char} (nonempty : run ≠ []) (plain : ∀ c ∈ run, isNameChar c = true)
  (stop : ∀ c ∈ rest.head?, isNameChar c = false)
include plain stop

theorem takeWhile_run : (run ++ rest).takeWhile isNameChar = run := by
  rw [List.takeWhile_append_of_pos plain]
  cases rest with
  | nil => simp
  | cons c rest => simp [stop c rfl]

include nonempty

/-- A literal with which a run and the text behind it begin does not go beyond the run. -/
theorem spelling_prefix_run {t : Token} (literal : t ∈ Token.literals)
    (begins : t.spelling.toList <+: run ++ rest) : t.spelling.toList <+: run := by
  rcases plain_or_mark t literal with inside | mark
  · obtain ⟨after, same⟩ := begins
    have taken := takeWhile_run plain stop
    rw [← same, List.takeWhile_append_of_pos (List.all_eq_true.mp inside)] at taken
    exact ⟨_, taken⟩
  · obtain ⟨c, others, rfl⟩ := List.exists_cons_of_ne_nil nonempty
    have first := plain c (.head _)
    rcases mark with same | same <;>
      · rw [same, List.cons_append, List.singleton_prefix_cons_iff] at begins
        subst begins
        simp [isNameChar] at first

/-- The literals that count for a run are those that are the whole run. -/
theorem find_literal_run : (Token.literals.filter fun t => t.spelling.toList.isPrefixOf (run ++ rest)).find?
    (fun t => t.spelling.length = run.length) = Token.literals.find? fun t => t.spelling.toList = run := by
  rw [List.find?_filter]
  refine List.find?_congr fun t literal => ?_
  simp only [List.isPrefixOf_iff_prefix, decide_eq_true_eq, decide_eq_decide]
  constructor
  · intro found
    obtain ⟨begins, length⟩ := found
    rw [← String.length_toList] at length
    exact (spelling_prefix_run nonempty plain stop literal begins).eq_of_length length
  · intro same
    rw [← String.length_toList, same]
    exact ⟨List.prefix_append run rest, rfl⟩

/-- The scanner takes a whole run, and takes it for a literal only if it is one as a whole. -/
theorem longest_lexemes_run : longest (lexemes (run ++ rest)) = some ⟨.ofRun run, run.length⟩ := by
  have le : ∀ x ∈ (Token.literals.filter fun t => t.spelling.toList.isPrefixOf (run ++ rest)).map
      (fun t => Lexeme.mk t t.spelling.length), x.length ≤ run.length := by
    intro x member
    obtain ⟨t, found, rfl⟩ := List.mem_map.mp member
    obtain ⟨literal, begins⟩ := List.mem_filter.mp found
    have inRun := spelling_prefix_run nonempty plain stop literal (List.isPrefixOf_iff_prefix.mp begins)
    simpa only [String.length_toList] using inRun.length_le
  rw [lexemes, takeWhile_run plain stop, if_neg (by simpa using nonempty), longest_concat le, List.find?_map,
    Function.comp_def, find_literal_run nonempty plain stop, Token.ofRun]
  cases found : Token.literals.find? fun t => t.spelling.toList = run with
  | none => rfl
  | some t =>
    have same : t.spelling.toList = run := by simpa using List.find?_some found
    simp only [Option.map_some, Option.getD_some, ← same, String.length_toList]

end

theorem longest_lexemes_bar (rest : List Char) : longest (lexemes ('|' :: rest)) = some ⟨.bar, 1⟩ := by
  rfl

theorem longest_lexemes_colon (rest : List Char) : longest (lexemes (':' :: rest)) = some ⟨.colon, 1⟩ := by
  rfl

/-- What can be read off a text is what the scanner finds in it. -/
theorem Reads.scan_eq {text : List Char} {tokens : List Token} (reads : Reads text tokens) :
    scan 0 text = some tokens := by
  induction reads with
  | nil => rfl
  | blank white _ ih => rw [scan, if_pos white, ih]
  | bar _ ih =>
    rw [scan, if_neg (by decide), longest_lexemes_bar]
    simp only [Nat.sub_self, ih]
    rfl
  | colon _ ih =>
    rw [scan, if_neg (by decide), longest_lexemes_colon]
    simp only [Nat.sub_self, ih]
    rfl
  | @run run rest tokens nonempty plain stop _ ih =>
    have whole := longest_lexemes_run nonempty plain stop
    obtain ⟨c, others, rfl⟩ := List.exists_cons_of_ne_nil nonempty
    have noBlank := isBlank_of_isNameChar (plain c (.head _))
    rw [List.cons_append] at whole ⊢
    rw [scan, if_neg (by simp [noBlank]), whole]
    simp only [List.length_cons, Nat.add_sub_cancel, scan_length, ih]
    rfl

theorem Reads.unique {text : List Char} {tokens others : List Token} (reads : Reads text tokens)
    (again : Reads text others) : tokens = others :=
  Option.some.inj (reads.scan_eq.symm.trans again.scan_eq)

/-- A text without a number sign can be read to its end. -/
theorem exists_reads (text : List Char) (noSign : '#' ∉ text) : ∃ tokens, Reads text tokens := by
  induction length : text.length using Nat.strongRecOn generalizing text with
  | ind n ih =>
    cases text with
    | nil => exact ⟨[], .nil⟩
    | cons c rest =>
      have shorter {left : List Char} (sublist : left.Sublist rest) : ∃ tokens, Reads left tokens := by
        refine ih left.length ?_ left (fun member => noSign (.tail _ (sublist.subset member))) rfl
        have le := sublist.length_le
        simp only [List.length_cons] at length
        omega
      obtain ⟨tokens, reads⟩ := shorter (.refl rest)
      by_cases white : isBlank c = true
      · exact ⟨tokens, .blank white reads⟩
      by_cases isBar : c = '|'
      · exact ⟨.bar :: tokens, isBar ▸ .bar reads⟩
      by_cases isColon : c = ':'
      · exact ⟨.colon :: tokens, isColon ▸ .colon reads⟩
      have noHash : c ≠ '#' := fun same => noSign (same ▸ .head _)
      have first : isNameChar c = true := by simp [isNameChar, white, isBar, isColon, noHash]
      obtain ⟨others, after⟩ := shorter (List.dropWhile_sublist isNameChar)
      have split : (c :: rest.takeWhile isNameChar) ++ rest.dropWhile isNameChar = c :: rest := by
        rw [List.cons_append, List.takeWhile_append_dropWhile]
      rw [← split]
      refine ⟨_, .run (List.cons_ne_nil _ _) ?_ (fun d next => ?_) after⟩
      · exact List.forall_mem_cons.mpr ⟨first, List.all_eq_true.mp List.all_takeWhile⟩
      · have stopped := List.head?_dropWhile_not isNameChar rest
        rw [Option.mem_def.mp next] at stopped
        simpa using stopped

theorem tokens?_eq_some_iff {text : List Char} (noSign : '#' ∉ text) {tokens : List Token} :
    tokens? text = some tokens ↔ Reads text tokens := by
  refine ⟨fun scanned => ?_, Reads.scan_eq⟩
  obtain ⟨others, reads⟩ := exists_reads text noSign
  obtain rfl : others = tokens := Option.some.inj (reads.scan_eq.symm.trans scanned)
  exact reads

/-! ### Names -/

theorem reserved_or_mark : ∀ t ∈ Token.literals, t.spelling ∈ reserved ∨
    t.spelling.toList = ['|'] ∨ t.spelling.toList = [':'] := by
  decide +kernel

theorem exists_literal_of_reserved : ∀ word ∈ reserved, ∃ t ∈ Token.literals, t.spelling = word := by
  decide +kernel

theorem Lexable.ofRun_eq {name : Name} (lexable : Lexable name) : Token.ofRun name.toList = .name name := by
  refine ofRun_eq_name_iff.mpr ⟨String.ofList_toList.symm, fun t literal same => ?_⟩
  rcases reserved_or_mark t literal with word | mark
  · rw [String.toList_inj.mp same] at word
    exact lexable.free word
  · have plain := lexable.plain
    rw [← same] at plain
    rcases mark with bar | colon
    · rw [bar] at plain
      simp [isNameChar] at plain
    · rw [colon] at plain
      simp [isNameChar] at plain

theorem lexable_of_ofRun {run : List Char} (nonempty : run ≠ []) (plain : ∀ c ∈ run, isNameChar c = true)
    {name : Name} (same : Token.ofRun run = .name name) : Lexable name := by
  obtain ⟨rfl, other⟩ := ofRun_eq_name_iff.mp same
  refine ⟨by simpa using nonempty, by simpa using plain, fun word => ?_⟩
  obtain ⟨t, literal, spelled⟩ := exists_literal_of_reserved _ word
  exact other t literal (by rw [spelled, String.toList_ofList])

/-- Every name that is read can stand in a text. -/
theorem Reads.lexable {text : List Char} {tokens : List Token} (reads : Reads text tokens) {name : Name}
    (member : .name name ∈ tokens) : Lexable name := by
  induction reads with
  | nil => cases member
  | blank _ _ ih => exact ih member
  | bar _ ih =>
    rcases List.mem_cons.mp member with same | later
    · cases same
    · exact ih later
  | colon _ ih =>
    rcases List.mem_cons.mp member with same | later
    · cases same
    · exact ih later
  | run nonempty plain _ _ ih =>
    rcases List.mem_cons.mp member with same | later
    · exact lexable_of_ofRun nonempty plain same.symm
    · exact ih later

/-! ### Spelling tokens out -/

/-- A token that is read back from its spelling. -/
def Token.Legible : Token → Prop
  | name text => Lexable text
  | _ => True

/-- Tokens with a space in front of each. -/
def spaced (tokens : List Token) : List Char :=
  tokens.flatMap fun t => ' ' :: t.spelling.toList

/-- A token is read back where no character of a name follows. -/
theorem Reads.token {t : Token} (legible : t.Legible) {rest : List Char} {tokens : List Token}
    (stop : ∀ c ∈ rest.head?, isNameChar c = false) (reads : Reads rest tokens) :
    Reads (t.spelling.toList ++ rest) (t :: tokens) := by
  cases t with
  | bar => exact .bar reads
  | colon => exact .colon reads
  | name text =>
    have nonempty : text.toList ≠ [] := by simpa using legible.nonempty
    have read := Reads.run nonempty legible.plain stop reads
    rwa [legible.ofRun_eq] at read
  | arrow => exact .run (by decide) (List.all_eq_true.mp (by decide)) stop reads
  | epsilon => exact .run (by decide) (List.all_eq_true.mp (by decide)) stop reads
  | keyword declaration => cases declaration <;> exact .run (by decide) (List.all_eq_true.mp (by decide)) stop reads

/-- Tokens with spaces between them are read back. -/
theorem Reads.spaced {tokens : List Token} (legible : ∀ t ∈ tokens, t.Legible) : Reads (spaced tokens) tokens := by
  induction tokens with
  | nil => exact .nil
  | cons t rest ih =>
    have behind := ih fun u later => legible u (.tail _ later)
    have stop : ∀ c ∈ (Text.spaced rest).head?, isNameChar c = false := by
      cases rest with
      | nil => simp [Text.spaced]
      | cons u others => simp [Text.spaced, isNameChar, isBlank, blankRanges]
    exact .blank (by decide) (.token (legible t (.head _)) stop behind)

end ContextFree.Text
