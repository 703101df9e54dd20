import ContextFree.Proofs.Gathering
import ContextFree.Proofs.Lexing
import ContextFree.Proofs.LineGrammar

namespace ContextFree.Text

def Item.name? : Item → Option Name
  | epsilon => none
  | name text => some text

namespace Line

/-- A rule has an alternative at least, and in each of them ε stands alone or not at all. -/
def Proper : Line → Prop
  | declare .. => True
  | rule _ alternatives => alternatives ≠ [] ∧ ∀ items ∈ alternatives, .epsilon ∈ items → items = [.epsilon]

/-- The names that a line declares. -/
def declared? (declaration : Declaration) : Line → Option (List Name)
  | declare other names => if other = declaration then some names else none
  | rule .. => none

def rule? : Line → Option Rule
  | declare .. => none
  | rule lhs alternatives => some ⟨lhs, alternatives.map (·.filterMap Item.name?)⟩

end Line

/-- What is left of a line before its first number sign. -/
def uncommented (raw : List Char) : List Char :=
  raw.takeWhile (· != '#')

/-- The lines of a text that say something, in order. Blank lines say nothing. -/
inductive Consists : List (List Char) → List Line → Prop
  | nil : Consists [] []
  | blank {raw : List Char} {rest : List (List Char)} {parsed : List Line} :
      Reads (uncommented raw) [] → Consists rest parsed → Consists (raw :: rest) parsed
  | line {raw : List Char} {rest : List (List Char)} {line : Line} {parsed : List Line} :
      Reads (uncommented raw) line.tokens → line.Proper → Consists rest parsed → Consists (raw :: rest) (line :: parsed)

/-- The lists of names that the lines of one kind declare. -/
def declared (declaration : Declaration) (parsed : List Line) : List (List Name) :=
  parsed.filterMap (·.declared? declaration)

/-- Nothing is declared twice, and the start symbol is one name. -/
structure Orderly (parsed : List Line) : Prop where
  nonterminals : (declared .nonterminals parsed).length ≤ 1
  terminals : (declared .terminals parsed).length ≤ 1
  start : declared .start parsed = [] ∨ ∃ name, declared .start parsed = [[name]]

/-- No rule of the format is broken yet. -/
def Viable (raws : List (List Char)) : Prop :=
  ∃ parsed, Consists raws parsed ∧ Orderly parsed

/-- The description that lines give, with the start symbol that they declare. -/
def describe (parsed : List Line) (start : Name) : Spec where
  nonterminals := (declared .nonterminals parsed).flatten
  terminals := (declared .terminals parsed).flatten
  start := start
  rules := gather (parsed.filterMap Line.rule?)

end Text

/-- The names in a description. -/
def Spec.names (spec : Spec) : List Name :=
  spec.nonterminals ++ spec.terminals ++ spec.start :: spec.rules.flatMap fun rule => rule.name :: rule.choices.flatten

namespace Text

/-! ### One line -/

theorem choice_eq (items : List Item) : choice items =
    if 1 < items.length ∧ .epsilon ∈ items then .error .epsilonNotAlone else .ok (items.filterMap Item.name?) := by
  unfold choice
  refine if_congr .rfl rfl (congrArg (fun f => Except.ok (items.filterMap f)) (funext fun item => ?_))
  cases item <;> rfl

theorem choice_eq_ok_iff {items : List Item} {names : List Name} : choice items = .ok names ↔
    (.epsilon ∈ items → items = [.epsilon]) ∧ names = items.filterMap Item.name? := by
  have mixed : 1 < items.length ∧ .epsilon ∈ items ↔ ¬ (.epsilon ∈ items → items = [.epsilon]) := by
    match items with
    | [] => simp
    | [item] => simp [eq_comm]
    | first :: second :: rest => simp [Classical.or_iff_not_imp_left]
  rw [choice_eq, if_congr mixed rfl rfl]
  by_cases alone : .epsilon ∈ items → items = [.epsilon]
  · rw [if_neg (not_not_intro alone), Except.ok.injEq, eq_comm]
    exact (and_iff_right alone).symm
  · simp [alone]

theorem choices_eq_ok_iff {alternatives : List (List Item)} {choices : List (List Name)} :
    alternatives.mapM choice = .ok choices ↔ (∀ items ∈ alternatives, .epsilon ∈ items → items = [.epsilon]) ∧
      choices = alternatives.map (·.filterMap Item.name?) := by
  induction alternatives generalizing choices with
  | nil => simp [pure, Except.pure, eq_comm]
  | cons items rest ih =>
    simp only [List.mapM_cons, bind_eq_ok_iff, choice_eq_ok_iff, ih, List.forall_mem_cons, List.map_cons]
    constructor
    · intro found
      obtain ⟨first, ⟨alone, rfl⟩, others, ⟨allAlone, rfl⟩, result⟩ := found
      exact ⟨⟨alone, allAlone⟩, (Except.ok.inj result).symm⟩
    · intro found
      obtain ⟨⟨alone, allAlone⟩, rfl⟩ := found
      exact ⟨_, ⟨alone, rfl⟩, _, ⟨allAlone, rfl⟩, rfl⟩

theorem declared_append (declaration : Declaration) (first second : List Line) :
    declared declaration (first ++ second) = declared declaration first ++ declared declaration second :=
  List.filterMap_append

theorem declared_rule (declaration : Declaration) (lhs : Name) (alternatives : List (List Item)) :
    declared declaration [.rule lhs alternatives] = [] := rfl

theorem declared_declare (declaration other : Declaration) (names : List Name) :
    declared declaration [.declare other names] = if other = declaration then [names] else [] := by
  by_cases same : other = declaration <;> simp [declared, Line.declared?, same]

theorem Orderly.of_append {first second : List Line} (orderly : Orderly (first ++ second)) : Orderly first := by
  obtain ⟨nonterminals, terminals, start⟩ := orderly
  rw [declared_append, List.length_append] at nonterminals terminals
  refine ⟨by omega, by omega, ?_⟩
  rw [declared_append] at start
  rcases start with none | ⟨name, one⟩
  · exact .inl (List.append_eq_nil_iff.mp none).1
  · rcases List.append_eq_singleton_iff.mp one with ⟨none, _⟩ | ⟨one, _⟩
    · exact .inl none
    · exact .inr ⟨name, one⟩

/-- Of one kind there may be a single line, and one for the start symbol names one symbol. -/
theorem orderly_declare_iff {parsed : List Line} (orderly : Orderly parsed) {declaration : Declaration}
    {names : List Name} : Orderly (parsed ++ [.declare declaration names]) ↔
      declared declaration parsed = [] ∧ (declaration = .start → ∃ name, names = [name]) := by
  have added (other : Declaration) : declared other (parsed ++ [.declare declaration names]) =
      declared other parsed ++ if declaration = other then [names] else [] := by
    rw [declared_append, declared_declare]
  obtain ⟨nonterminals, terminals, start⟩ := orderly
  constructor
  · intro more
    obtain ⟨moreNonterminals, moreTerminals, moreStart⟩ := more
    rw [added] at moreNonterminals moreTerminals moreStart
    cases declaration with
    | nonterminals => exact ⟨by simpa using moreNonterminals, nofun⟩
    | terminals => exact ⟨by simpa using moreTerminals, nofun⟩
    | start =>
      rcases moreStart with none | ⟨name, one⟩
      · simp at none
      · rcases List.append_eq_singleton_iff.mp one with ⟨none, single⟩ | ⟨_, none⟩
        · exact ⟨none, fun _ => ⟨name, by simpa using single⟩⟩
        · simp at none
  · intro found
    obtain ⟨none, single⟩ := found
    cases declaration with
    | nonterminals => exact ⟨by simp [added, none], by simpa [added] using terminals, by simpa [added] using start⟩
    | terminals => exact ⟨by simpa [added] using nonterminals, by simp [added, none], by simpa [added] using start⟩
    | start =>
      obtain ⟨name, rfl⟩ := single rfl
      exact ⟨by simpa [added] using nonterminals, by simpa [added] using terminals, .inr ⟨name, by simp [added, none]⟩⟩

/-- What has been read of a text after some lines that say something. -/
def Draft.ofLines (parsed : List Line) : Draft where
  nonterminals := (declared .nonterminals parsed).head?
  terminals := (declared .terminals parsed).head?
  start := (declared .start parsed).head?.bind List.head?
  rules := gather (parsed.filterMap Line.rule?)

theorem Draft.ofLines_rule (parsed : List Line) (lhs : Name) (alternatives : List (List Item)) :
    ofLines (parsed ++ [.rule lhs alternatives]) = { ofLines parsed with
      rules := addChoices lhs (alternatives.map (·.filterMap Item.name?)) (gather (parsed.filterMap Line.rule?)) } := by
  simp only [ofLines, declared_append, declared_rule, List.append_nil, List.filterMap_append, addChoices_gather]
  rfl

theorem Draft.ofLines_declare (parsed : List Line) (declaration : Declaration) (names : List Name)
    (none : declared declaration parsed = []) : ofLines (parsed ++ [.declare declaration names]) =
      match declaration with
      | .nonterminals => { ofLines parsed with nonterminals := some names }
      | .terminals => { ofLines parsed with terminals := some names }
      | .start => { ofLines parsed with start := names.head? } := by
  have rules : (parsed ++ [Line.declare declaration names]).filterMap Line.rule? = parsed.filterMap Line.rule? := by
    rw [List.filterMap_append]
    exact List.append_nil _
  cases declaration <;> simp [ofLines, declared_append, declared_declare, none, rules]

/-- A line is entered if it keeps to the rules after those before it. -/
theorem enter_eq_ok_iff {parsed : List Line} (orderly : Orderly parsed) {line : Line} (filled : line.Filled)
    {next : Draft} : (Draft.ofLines parsed).enter line = .ok next ↔
      line.Proper ∧ Orderly (parsed ++ [line]) ∧ next = Draft.ofLines (parsed ++ [line]) := by
  cases line with
  | rule lhs alternatives =>
    have kept (declaration : Declaration) :
        declared declaration (parsed ++ [.rule lhs alternatives]) = declared declaration parsed := by
      rw [declared_append, declared_rule, List.append_nil]
    have stays : Orderly (parsed ++ [.rule lhs alternatives]) :=
      ⟨kept _ ▸ orderly.nonterminals, kept _ ▸ orderly.terminals, kept _ ▸ orderly.start⟩
    simp only [Draft.enter, bind_eq_ok_iff, choices_eq_ok_iff]
    rw [Draft.ofLines_rule]
    constructor
    · intro found
      obtain ⟨choices, ⟨alone, rfl⟩, result⟩ := found
      exact ⟨⟨filled, alone⟩, stays, (Except.ok.inj result).symm⟩
    · intro found
      obtain ⟨⟨_, alone⟩, _, rfl⟩ := found
      exact ⟨_, ⟨alone, rfl⟩, rfl⟩
  | declare declaration names =>
    rw [orderly_declare_iff orderly]
    by_cases none : declared declaration parsed = []
    · rw [Draft.ofLines_declare parsed declaration names none]
      cases declaration with
      | nonterminals => simp [Draft.enter, Draft.ofLines, none, Line.Proper, eq_comm]
      | terminals => simp [Draft.enter, Draft.ofLines, none, Line.Proper, eq_comm]
      | start =>
        match names with
        | [] => simp [Draft.enter, Draft.ofLines, none]
        | [name] => simp [Draft.enter, Draft.ofLines, none, Line.Proper, eq_comm]
        | first :: second :: rest => simp [Draft.enter, Draft.ofLines, none]
    · cases declaration with
      | nonterminals => simp [Draft.enter, Draft.ofLines, none]
      | terminals => simp [Draft.enter, Draft.ofLines, none]
      | start =>
        obtain ⟨name, one⟩ := orderly.start.resolve_left none
        simp [Draft.enter, Draft.ofLines, one]

/-! ### All lines -/

theorem noSign_uncommented (raw : List Char) : '#' ∉ uncommented raw := by
  intro member
  have kept := List.all_eq_true.mp List.all_takeWhile '#' member
  simp at kept

theorem uncommented_append {raw : List Char} (noSign : '#' ∉ raw) (more : List Char) :
    uncommented (raw ++ more) = raw ++ uncommented more := by
  refine List.takeWhile_append_of_pos fun c member => ?_
  simp only [bne_iff_ne, ne_eq]
  rintro rfl
  exact noSign member

theorem lines_feed {raw : List Char} (noFeed : '\n' ∉ raw) (rest : List Char) :
    lines (raw ++ '\n' :: rest) = raw :: lines rest := by
  induction raw with
  | nil => simp [lines]
  | cons c raw ih =>
    obtain ⟨here, behind⟩ := List.ne_and_not_mem_of_not_mem_cons noFeed
    rw [List.cons_append, lines, if_neg (Ne.symm here), ih behind]

theorem consists_singleton_iff {raw : List Char} {parsed : List Line} : Consists [raw] parsed ↔
    (Reads (uncommented raw) [] ∧ parsed = []) ∨
      ∃ line : Line, Reads (uncommented raw) line.tokens ∧ line.Proper ∧ parsed = [line] := by
  constructor
  · intro consists
    cases consists with
    | blank reads rest =>
      cases rest
      exact .inl ⟨reads, rfl⟩
    | line reads proper rest =>
      cases rest
      exact .inr ⟨_, reads, proper, rfl⟩
  · intro found
    rcases found with ⟨reads, rfl⟩ | ⟨line, reads, proper, rfl⟩
    · exact .blank reads .nil
    · exact .line reads proper .nil

theorem Consists.append {first second : List (List Char)} {parsed more : List Line} (left : Consists first parsed)
    (right : Consists second more) : Consists (first ++ second) (parsed ++ more) := by
  induction left with
  | nil => exact right
  | blank reads _ ih => exact .blank reads ih
  | line reads proper _ ih => exact .line reads proper ih

theorem Consists.split {first second : List (List Char)} {parsed : List Line}
    (consists : Consists (first ++ second) parsed) :
    ∃ left right, Consists first left ∧ Consists second right ∧ parsed = left ++ right := by
  induction first generalizing parsed with
  | nil => exact ⟨[], parsed, .nil, consists, rfl⟩
  | cons raw first ih =>
    cases consists with
    | blank reads rest =>
      obtain ⟨left, right, before, after, rfl⟩ := ih rest
      exact ⟨left, right, .blank reads before, after, rfl⟩
    | line reads proper rest =>
      obtain ⟨left, right, before, after, rfl⟩ := ih rest
      exact ⟨_ :: left, right, .line reads proper before, after, rfl⟩

theorem Line.tokens_ne_nil (line : Line) : line.tokens ≠ [] := by
  cases line <;> exact List.cons_ne_nil _ _

theorem Line.Proper.filled {line : Line} (proper : line.Proper) : line.Filled := by
  cases line with
  | declare => trivial
  | rule => exact proper.1

theorem readLine_eq_ok_iff {parsed : List Line} (orderly : Orderly parsed) {raw : List Char} {next : Draft} :
    (Draft.ofLines parsed).readLine raw = .ok next ↔
      ∃ more, Consists [raw] more ∧ Orderly (parsed ++ more) ∧ next = Draft.ofLines (parsed ++ more) := by
  obtain ⟨tokens, reads⟩ := exists_reads (uncommented raw) (noSign_uncommented raw)
  have scanned : tokens? (raw.takeWhile (· != '#')) = some tokens := reads.scan_eq
  simp only [consists_singleton_iff, Draft.readLine, scanned]
  cases tokens with
  | nil =>
    constructor
    · intro same
      exact ⟨[], .inl ⟨reads, rfl⟩, by rwa [List.append_nil], by rw [List.append_nil, Except.ok.inj same]⟩
    · intro found
      obtain ⟨_, ⟨_, rfl⟩ | ⟨line, other, _, rfl⟩, _, rfl⟩ := found
      · rw [List.append_nil]
      · exact absurd (other.unique reads) line.tokens_ne_nil
  | cons first rest =>
    simp only [bind_eq_ok_iff, Line.ofTokens_eq_ok_iff]
    constructor
    · intro found
      obtain ⟨line, ⟨filled, same⟩, entered⟩ := found
      obtain ⟨proper, stays, rfl⟩ := (enter_eq_ok_iff orderly filled).mp entered
      exact ⟨[line], .inr ⟨line, same ▸ reads, proper, rfl⟩, stays, rfl⟩
    · intro found
      obtain ⟨_, ⟨blank, _⟩ | ⟨line, other, proper, rfl⟩, stays, rfl⟩ := found
      · cases reads.unique blank
      · exact ⟨line, ⟨proper.filled, reads.unique other⟩,
          (enter_eq_ok_iff orderly proper.filled).mpr ⟨proper, stays, rfl⟩⟩

theorem readLines_cons_eq_ok_iff {draft last : Draft} {number : Nat} {raw : List Char} {rest : List (List Char)} :
    draft.readLines number (raw :: rest) = .ok last ↔
      ∃ next, draft.readLine raw = .ok next ∧ next.readLines (number + 1) rest = .ok last := by
  rw [Draft.readLines]
  cases draft.readLine raw <;> simp

/-- Lines are read to their end if they say something that keeps to the rules. -/
theorem readLines_eq_ok_iff {parsed : List Line} (orderly : Orderly parsed) {number : Nat} {raws : List (List Char)}
    {last : Draft} : (Draft.ofLines parsed).readLines number raws = .ok last ↔
      ∃ more, Consists raws more ∧ Orderly (parsed ++ more) ∧ last = Draft.ofLines (parsed ++ more) := by
  induction raws generalizing parsed number with
  | nil =>
    constructor
    · intro same
      exact ⟨[], .nil, by rwa [List.append_nil], by rw [List.append_nil, Except.ok.inj same]⟩
    · intro found
      obtain ⟨_, consists, _, rfl⟩ := found
      cases consists
      rw [List.append_nil]
      rfl
  | cons raw rest ih =>
    rw [readLines_cons_eq_ok_iff]
    constructor
    · intro found
      obtain ⟨next, here, behind⟩ := found
      obtain ⟨first, consists, stays, rfl⟩ := (readLine_eq_ok_iff orderly).mp here
      obtain ⟨others, further, all, rfl⟩ := (ih stays).mp behind
      exact ⟨first ++ others, consists.append further, by rwa [← List.append_assoc], by rw [List.append_assoc]⟩
    · intro found
      obtain ⟨more, consists, all, rfl⟩ := found
      have split : Consists ([raw] ++ rest) more := consists
      obtain ⟨first, others, here, behind, rfl⟩ := split.split
      rw [← List.append_assoc] at all
      have stays := all.of_append
      exact ⟨_, (readLine_eq_ok_iff orderly).mpr ⟨first, here, stays, rfl⟩,
        (ih stays).mpr ⟨others, behind, all, by rw [List.append_assoc]⟩⟩

/-- Reading fails at the first line that cannot be read after those before it. -/
theorem readLines_eq_error_iff {draft : Draft} {number : Nat} {raws : List (List Char)} {e : SyntaxError} :
    draft.readLines number raws = .error e ↔ ∃ before raw after last, raws = before ++ raw :: after ∧
      draft.readLines number before = .ok last ∧ last.readLine raw = .error e.fault ∧ e.line = number + before.length := by
  induction raws generalizing draft number with
  | nil => simp [Draft.readLines]
  | cons raw rest ih =>
    cases here : draft.readLine raw with
    | error fault =>
      simp only [Draft.readLines, here]
      constructor
      · intro same
        cases same
        exact ⟨[], raw, rest, draft, rfl, rfl, here, rfl⟩
      · intro found
        obtain ⟨before, wrong, after, last, split, read, failed, line⟩ := found
        cases before with
        | nil =>
          cases split
          cases read
          obtain ⟨_, _⟩ := e
          cases here.symm.trans failed
          cases line
          rfl
        | cons first before =>
          cases split
          obtain ⟨next, ok, _⟩ := readLines_cons_eq_ok_iff.mp read
          cases here.symm.trans ok
    | ok next =>
      simp only [Draft.readLines, here]
      rw [ih]
      constructor
      · intro found
        obtain ⟨before, wrong, after, last, rfl, read, failed, line⟩ := found
        refine ⟨raw :: before, wrong, after, last, rfl, readLines_cons_eq_ok_iff.mpr ⟨next, here, read⟩, failed, ?_⟩
        rw [line, List.length_cons]
        omega
      · intro found
        obtain ⟨before, wrong, after, last, split, read, failed, line⟩ := found
        cases before with
        | nil =>
          cases split
          cases read
          cases here.symm.trans failed
        | cons first before =>
          cases split
          obtain ⟨other, ok, read⟩ := readLines_cons_eq_ok_iff.mp read
          cases here.symm.trans ok
          refine ⟨before, wrong, after, last, rfl, read, failed, ?_⟩
          rw [line, List.length_cons]
          omega

theorem Orderly.nil : Orderly [] :=
  ⟨Nat.zero_le _, Nat.zero_le _, .inl rfl⟩

theorem readLines_empty_eq_ok_iff {raws : List (List Char)} {last : Draft} : Draft.empty.readLines 1 raws = .ok last ↔
    ∃ parsed, Consists raws parsed ∧ Orderly parsed ∧ last = Draft.ofLines parsed :=
  readLines_eq_ok_iff .nil

/-- The lines that are read without a fault are those that keep to the rules. -/
theorem viable_iff {raws : List (List Char)} : Viable raws ↔ ∃ last, Draft.empty.readLines 1 raws = .ok last := by
  simp only [readLines_empty_eq_ok_iff]
  constructor
  · intro viable
    obtain ⟨parsed, consists, orderly⟩ := viable
    exact ⟨_, parsed, consists, orderly, rfl⟩
  · intro found
    obtain ⟨_, parsed, consists, orderly, _⟩ := found
    exact ⟨parsed, consists, orderly⟩

theorem Viable.of_append {first second : List (List Char)} (viable : Viable (first ++ second)) : Viable first := by
  obtain ⟨parsed, consists, orderly⟩ := viable
  obtain ⟨left, right, before, _, rfl⟩ := consists.split
  exact ⟨left, before, orderly.of_append⟩

/-- Reading fails at the first line with which the lines so far break a rule. -/
theorem first_violation {raws : List (List Char)} {e : SyntaxError} (failed : Draft.empty.readLines 1 raws = .error e) :
    1 ≤ e.line ∧ e.line ≤ raws.length ∧ (∀ k < e.line, Viable (raws.take k)) ∧ ¬ Viable (raws.take e.line) := by
  obtain ⟨before, raw, after, last, rfl, read, fault, line⟩ := readLines_eq_error_iff.mp failed
  have upTo : (before ++ raw :: after).take e.line = before ++ [raw] := by
    rw [line, Nat.add_comm, List.take_length_add_append]
    rfl
  refine ⟨by omega, by rw [line, List.length_append, List.length_cons]; omega, fun k less => ?_, fun viable => ?_⟩
  · have earlier : k ≤ before.length := by omega
    have viable : Viable (before.take k ++ before.drop k) := by
      rw [List.take_append_drop]
      exact viable_iff.mpr ⟨last, read⟩
    rw [List.take_append_of_le_length earlier]
    exact viable.of_append
  · rw [upTo] at viable
    obtain ⟨other, ok⟩ := viable_iff.mp viable
    have again : Draft.empty.readLines 1 (before ++ [raw]) = .error e :=
      readLines_eq_error_iff.mpr ⟨before, raw, [], last, rfl, read, fault, line⟩
    cases ok.symm.trans again

/-- What comes behind the faulty line plays no part. -/
theorem readLines_eq_error_of_take {raws others : List (List Char)} {e : SyntaxError}
    (failed : Draft.empty.readLines 1 raws = .error e) (same : others.take e.line = raws.take e.line) :
    Draft.empty.readLines 1 others = .error e := by
  obtain ⟨before, raw, after, last, rfl, read, fault, line⟩ := readLines_eq_error_iff.mp failed
  refine readLines_eq_error_iff.mpr ⟨before, raw, others.drop e.line, last, ?_, read, fault, line⟩
  rw [line, Nat.add_comm, List.take_length_add_append] at same
  have split := List.take_append_drop (before.length + 1) others
  rw [same, List.append_assoc] at split
  rw [line, Nat.add_comm]
  exact split.symm

/-! ### Whole texts -/

/-- Every line is read from one of the text. -/
theorem Consists.exists_reads {raws : List (List Char)} {parsed : List Line} (consists : Consists raws parsed)
    {line : Line} (member : line ∈ parsed) : line.Proper ∧ ∃ raw ∈ raws, Reads (uncommented raw) line.tokens := by
  induction consists with
  | nil => cases member
  | blank _ _ ih =>
    obtain ⟨proper, raw, later, reads⟩ := ih member
    exact ⟨proper, raw, .tail _ later, reads⟩
  | line reads proper _ ih =>
    rcases List.mem_cons.mp member with rfl | behind
    · exact ⟨proper, _, .head _, reads⟩
    · obtain ⟨proper, raw, later, reads⟩ := ih behind
      exact ⟨proper, raw, .tail _ later, reads⟩

theorem exists_declare {declaration : Declaration} {parsed : List Line} {names : List Name}
    (member : names ∈ declared declaration parsed) : .declare declaration names ∈ parsed := by
  obtain ⟨line, inside, same⟩ := List.mem_filterMap.mp member
  cases line with
  | declare other names =>
    obtain ⟨rfl, found⟩ := Option.ite_none_right_eq_some.mp same
    cases found
    exact inside
  | rule => cases same

theorem exists_rule {parsed : List Line} {rule : Rule} (member : rule ∈ parsed.filterMap Line.rule?) :
    ∃ alternatives, .rule rule.name alternatives ∈ parsed ∧ rule.choices = alternatives.map (·.filterMap Item.name?) := by
  obtain ⟨line, inside, same⟩ := List.mem_filterMap.mp member
  cases line with
  | declare => cases same
  | rule lhs alternatives =>
    cases same
    exact ⟨alternatives, inside, rfl⟩

theorem mem_gather {rules : List Rule} {name : Name}
    (member : name ∈ (gather rules).flatMap fun rule => rule.name :: rule.choices.flatten) :
    ∃ rule ∈ rules, name ∈ rule.name :: rule.choices.flatten := by
  obtain ⟨_, gathered, inside⟩ := List.mem_flatMap.mp member
  obtain ⟨lhs, isLhs, rfl⟩ := List.mem_map.mp gathered
  rcases List.mem_cons.mp inside with rfl | chosen
  · obtain ⟨rule, original, same⟩ := List.mem_map.mp (List.mem_eraseDups.mp isLhs)
    exact ⟨rule, original, same ▸ .head _⟩
  · obtain ⟨choice, isChoice, inChoice⟩ := List.mem_flatten.mp chosen
    obtain ⟨rule, kept, ofRule⟩ := List.mem_flatMap.mp isChoice
    exact ⟨rule, (List.mem_filter.mp kept).1, .tail _ (List.mem_flatten.mpr ⟨choice, ofRule, inChoice⟩)⟩

/-- Every name in a description is written in one of the lines. -/
theorem mem_names_describe {parsed : List Line} {start : Name} (chosen : declared .start parsed = [[start]]) {name : Name}
    (member : name ∈ (describe parsed start).names) : ∃ line ∈ parsed, .name name ∈ line.tokens := by
  have ofDeclared {declaration : Declaration} {names : List Name} (isDeclared : names ∈ declared declaration parsed)
      (inside : name ∈ names) : ∃ line ∈ parsed, .name name ∈ line.tokens :=
    ⟨_, exists_declare isDeclared, .tail _ (.tail _ (List.mem_map.mpr ⟨name, inside, rfl⟩))⟩
  simp only [Spec.names, List.mem_append, List.mem_cons] at member
  rcases member with (nonterminal | terminal) | rfl | ruled
  · obtain ⟨names, isDeclared, inside⟩ := List.mem_flatten.mp nonterminal
    exact ofDeclared isDeclared inside
  · obtain ⟨names, isDeclared, inside⟩ := List.mem_flatten.mp terminal
    exact ofDeclared isDeclared inside
  · have isDeclared : [name] ∈ declared .start parsed := by rw [chosen, List.mem_singleton]
    exact ofDeclared isDeclared (.head _)
  · obtain ⟨rule, isRule, inside⟩ := mem_gather ruled
    obtain ⟨alternatives, line, choices⟩ := exists_rule isRule
    refine ⟨_, line, ?_⟩
    rcases List.mem_cons.mp inside with rfl | inChoices
    · exact .head _
    · obtain ⟨choice, isChoice, inChoice⟩ := List.mem_flatten.mp inChoices
      obtain ⟨items, isAlternative, rfl⟩ := List.mem_map.mp (choices ▸ isChoice)
      obtain ⟨item, inItems, named⟩ := List.mem_filterMap.mp inChoice
      cases item with
      | epsilon => cases named
      | name text =>
        cases named
        exact .tail _ (.tail _ (mem_barred.mpr (.inr ⟨items, isAlternative, _, inItems, rfl⟩)))

end ContextFree.Text

namespace ContextFree.Spec

open Text

variable {text : String} {parsed : List Line}

theorem ofText_of_read {draft : Draft} (read : Draft.empty.readLines 1 (lines text.toList) = .ok draft) :
    ofText text = match draft.start with
      | none => .error ⟨(lines text.toList).length, .missingStart⟩
      | some start => .ok ⟨draft.nonterminals.getD [], draft.terminals.getD [], start, draft.rules⟩ := by
  simp only [ofText, read, ok_bind]
  rfl

theorem ofText_of_start {start : Name} (consists : Consists (lines text.toList) parsed) (orderly : Orderly parsed)
    (chosen : declared .start parsed = [[start]]) : ofText text = .ok (describe parsed start) := by
  have single {names : List (List Name)} (one : names.length ≤ 1) : names.head?.getD [] = names.flatten := by
    match names with
    | [] => rfl
    | [names] => simp
  have read := readLines_empty_eq_ok_iff.mpr ⟨parsed, consists, orderly, rfl⟩
  have known : (Draft.ofLines parsed).start = some start := by rw [Draft.ofLines, chosen]; rfl
  rw [ofText_of_read read, known, describe, ← single orderly.nonterminals, ← single orderly.terminals]
  rfl

theorem ofText_of_noStart (consists : Consists (lines text.toList) parsed) (orderly : Orderly parsed)
    (missing : declared .start parsed = []) : ofText text = .error ⟨(lines text.toList).length, .missingStart⟩ := by
  have read := readLines_empty_eq_ok_iff.mpr ⟨parsed, consists, orderly, rfl⟩
  have unknown : (Draft.ofLines parsed).start = none := by rw [Draft.ofLines, missing]; rfl
  rw [ofText_of_read read, unknown]

theorem ofText_of_failed {e : SyntaxError} (failed : Draft.empty.readLines 1 (lines text.toList) = .error e) :
    ofText text = .error e := by
  simp only [ofText, failed]
  rfl

theorem ofText_eq_ok_iff {spec : Spec} : ofText text = .ok spec ↔
    ∃ parsed start, Consists (lines text.toList) parsed ∧ Orderly parsed ∧ declared .start parsed = [[start]] ∧
      spec = describe parsed start := by
  constructor
  · intro ok
    obtain ⟨draft, read, _⟩ := bind_eq_ok_iff.mp ok
    obtain ⟨parsed, consists, orderly, rfl⟩ := readLines_empty_eq_ok_iff.mp read
    rcases orderly.start with missing | ⟨start, chosen⟩
    · cases ok.symm.trans (ofText_of_noStart consists orderly missing)
    · exact ⟨parsed, start, consists, orderly, chosen,
        Except.ok.inj (ok.symm.trans (ofText_of_start consists orderly chosen))⟩
  · intro found
    obtain ⟨parsed, start, consists, orderly, chosen, rfl⟩ := found
    exact ofText_of_start consists orderly chosen

/-- A text is refused for one of its lines, or else for lack of a start symbol. -/
theorem failed_or_noStart {e : SyntaxError} (refused : ofText text = .error e) :
    Draft.empty.readLines 1 (lines text.toList) = .error e ∨
      ∃ parsed, Consists (lines text.toList) parsed ∧ Orderly parsed ∧ declared .start parsed = [] ∧
        e = ⟨(lines text.toList).length, .missingStart⟩ := by
  cases read : Draft.empty.readLines 1 (lines text.toList) with
  | error fault =>
    cases refused.symm.trans (ofText_of_failed read)
    exact .inl rfl
  | ok draft =>
    obtain ⟨parsed, consists, orderly, rfl⟩ := readLines_empty_eq_ok_iff.mp read
    rcases orderly.start with missing | ⟨start, chosen⟩
    · cases refused.symm.trans (ofText_of_noStart consists orderly missing)
      exact .inr ⟨parsed, consists, orderly, missing, rfl⟩
    · cases refused.symm.trans (ofText_of_start consists orderly chosen)

/-- A text is accepted exactly if it keeps to the format, and then describes what its lines say, with
names that can stand in a text. Else the reported line is the first with which a rule is broken,
whatever follows; or no rule is broken and the start symbol is missing. -/
theorem ofText_exact (text : String) :
    (∀ spec, ofText text = .ok spec ↔ ∃ parsed start, Consists (lines text.toList) parsed ∧ Orderly parsed ∧
      declared .start parsed = [[start]] ∧ spec = describe parsed start) ∧
    (∀ parsed, Consists (lines text.toList) parsed → ∀ lhs alternatives, .rule lhs alternatives ∈ parsed →
      alternatives.length = (Line.rule lhs alternatives).tokens.count .bar + 1) ∧
    (∀ spec, ofText text = .ok spec → ∀ name ∈ spec.names, Lexable name) ∧
    ∀ e, ofText text = .error e →
      (1 ≤ e.line ∧ e.line ≤ (lines text.toList).length ∧
        (∀ k < e.line, Viable ((lines text.toList).take k)) ∧ ¬ Viable ((lines text.toList).take e.line) ∧
        ∀ other : String, (lines other.toList).take e.line = (lines text.toList).take e.line → ofText other = .error e) ∨
      ∃ parsed, Consists (lines text.toList) parsed ∧ Orderly parsed ∧ declared .start parsed = [] ∧
        e = ⟨(lines text.toList).length, .missingStart⟩ := by
  refine ⟨fun spec => ofText_eq_ok_iff, ?_, ?_, ?_⟩
  · intro parsed consists lhs alternatives member
    obtain ⟨proper, _⟩ := consists.exists_reads member
    rw [length_eq_count_bar proper.1, Line.tokens, List.count_cons_of_ne Token.noConfusion,
      List.count_cons_of_ne Token.noConfusion]
  · intro spec ok name member
    obtain ⟨parsed, start, consists, _, chosen, rfl⟩ := ofText_eq_ok_iff.mp ok
    obtain ⟨line, inside, written⟩ := mem_names_describe chosen member
    obtain ⟨_, raw, _, reads⟩ := consists.exists_reads inside
    exact reads.lexable written
  · intro e refused
    refine (failed_or_noStart refused).imp_left fun failed => ?_
    obtain ⟨first, last, before, violated⟩ := first_violation failed
    exact ⟨first, last, before, violated, fun other same => ofText_of_failed (readLines_eq_error_of_take failed same)⟩

/-- Rules before the declarations, in two lines of one name. -/
def scattered : String := "S -> a | # two\n\nstart: S\nnonterminals: S\nS -> b\n"

/-- The last line but one mixes ε with a name. -/
def mixed : String := "start: S\nS -> a | # two\n\nS -> ε b\nterminals: a b"

theorem scattered_exact :
    (∃ parsed, Consists (lines scattered.toList) parsed ∧ Orderly parsed ∧ declared .start parsed = [["S"]] ∧
      describe parsed "S" = ⟨["S"], [], "S", [⟨"S", [["a"], [], ["b"]]⟩]⟩) ∧
    (∀ name ∈ ["S", "S", "S", "a", "b"], Lexable name) ∧
    (∀ k < 4, Viable ((lines mixed.toList).take k)) ∧ ¬ Viable ((lines mixed.toList).take 4) ∧
      ofText "start: S\nS -> a | # two\n\nS -> ε b\nstart: ->" = .error ⟨4, .epsilonNotAlone⟩ := by
  have accepted : ofText scattered = .ok ⟨["S"], [], "S", [⟨"S", [["a"], [], ["b"]]⟩]⟩ := by decide +kernel
  have refused : ofText mixed = .error ⟨4, .epsilonNotAlone⟩ := by decide +kernel
  obtain ⟨exact, _, lexable, _⟩ := ofText_exact scattered
  obtain ⟨parsed, start, consists, orderly, chosen, same⟩ := (exact _).mp accepted
  obtain rfl : "S" = start := congrArg Spec.start same
  obtain ⟨_, _, _, faulty⟩ := ofText_exact mixed
  rcases faulty _ refused with ⟨_, _, before, violated, others⟩ | ⟨_, _, _, _, other⟩
  · exact ⟨⟨parsed, consists, orderly, chosen, same.symm⟩, lexable _ accepted, before, violated,
      others _ (by decide +kernel)⟩
  · cases other

end ContextFree.Spec
