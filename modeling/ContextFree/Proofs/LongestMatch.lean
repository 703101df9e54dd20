import ContextFree.Proofs.LineSyntax
import Mathlib.Data.List.SplitBy

namespace ContextFree.Text

/-- What can be read at the front of a text: a literal, or some characters of names. -/
inductive Matches (text : List Char) : Lexeme → Prop
  | literal {t : Token} : t ∈ Token.literals → t.spelling.toList <+: text → Matches text ⟨t, t.spelling.length⟩
  | name {run : List Char} : run ≠ [] → (∀ c ∈ run, isNameChar c = true) → run <+: text →
      Matches text ⟨.name (String.ofList run), run.length⟩

/-- A longest match, and a literal if there is one of this length. -/
structure Best (text : List Char) (x : Lexeme) : Prop where
  found : Matches text x
  longest : ∀ y, Matches text y → y.length ≤ x.length
  literal : ∀ t ∈ Token.literals, Matches text ⟨t, x.length⟩ → x.token = t

/-- The tokens of a text by longest match: each begins where the one before it ends, or behind white space. -/
inductive Munches : List Char → List Token → Prop
  | nil : Munches [] []
  | blank {c : Char} {rest : List Char} {tokens : List Token} :
      isBlank c = true → Munches rest tokens → Munches (c :: rest) tokens
  | lexeme {c : Char} {rest : List Char} {x : Lexeme} {tokens : List Token} : isBlank c = false →
      Best (c :: rest) x → Munches ((c :: rest).drop x.length) tokens → Munches (c :: rest) (x.token :: tokens)

/-- Neighbours that stand in one run. -/
def together (c d : Char) : Bool :=
  isNameChar c && isNameChar d

/-- A text cut wherever two neighbours are not in one run, without the pieces that are white space. -/
def words (text : List Char) : List (List Char) :=
  (text.splitBy together).filter fun piece => !piece.all isBlank

/-! ### Longest matches -/

theorem nonempty_spelling : ∀ t ∈ Token.literals, t.spelling.toList ≠ [] := by
  decide +kernel

theorem matches_literal_iff {t : Token} (literal : t ∈ Token.literals) {text : List Char} {n : Nat} :
    Matches text ⟨t, n⟩ ↔ t.spelling.toList <+: text ∧ n = t.spelling.length := by
  constructor
  · intro matched
    cases matched with
    | literal _ begins => exact ⟨begins, rfl⟩
    | name => exact absurd literal (name_not_literal _)
  · rintro ⟨begins, rfl⟩
    exact .literal literal begins

/-- What is matched by no literal is a name of that many characters. -/
theorem Matches.eq_name {text : List Char} {x : Lexeme} (matched : Matches text x) (other : x.token ∉ Token.literals) :
    x.token = .name (String.ofList (text.take x.length)) := by
  cases matched with
  | literal literal => exact absurd literal other
  | name _ _ begins => rw [← List.prefix_iff_eq_take.mp begins]

theorem Best.unique {text : List Char} {x y : Lexeme} (best : Best text x) (other : Best text y) : x = y := by
  obtain ⟨t, n⟩ := x
  obtain ⟨u, m⟩ := y
  obtain rfl : n = m := Nat.le_antisymm (other.longest _ best.found) (best.longest _ other.found)
  rw [Lexeme.mk.injEq, and_iff_left rfl]
  by_cases first : t ∈ Token.literals
  · exact (other.literal t first best.found).symm
  by_cases second : u ∈ Token.literals
  · exact best.literal u second other.found
  · exact (best.found.eq_name first).trans (other.found.eq_name second).symm

/-- A bar and a colon are literals of one character, and no other match begins with them. -/
theorem best_mark {t : Token} (literal : t ∈ Token.literals) {c : Char} (spelled : t.spelling.toList = [c])
    (noName : isNameChar c = false) (rest : List Char) : Best (c :: rest) ⟨t, 1⟩ := by
  have single {u : Token} (isLiteral : u ∈ Token.literals) (begins : u.spelling.toList <+: c :: rest) : u = t := by
    refine eq_of_spelling u isLiteral t literal (spelled ▸ ?_)
    rcases plain_or_mark u isLiteral with inside | mark
    · cases chars : u.spelling.toList with
      | nil => exact absurd chars (nonempty_spelling u isLiteral)
      | cons d others =>
        rw [chars, List.cons_prefix_cons] at begins
        rw [chars, begins.1] at inside
        simp [noName] at inside
    · rcases mark with same | same <;>
        · rw [same, List.cons_prefix_cons] at begins
          rw [same, begins.1]
  have length : t.spelling.length = 1 := by rw [← String.length_toList, spelled, List.length_singleton]
  refine ⟨(matches_literal_iff literal).mpr ⟨?_, length.symm⟩, fun y matched => ?_, fun u isLiteral matched => ?_⟩
  · rw [spelled]
    exact List.prefix_append [c] rest
  · cases matched with
    | literal isLiteral begins =>
      rw [single isLiteral begins, length]
    | name nonempty plain begins =>
      obtain ⟨d, others, rfl⟩ := List.exists_cons_of_ne_nil nonempty
      rw [List.cons_prefix_cons] at begins
      have first := plain d (.head _)
      rw [begins.1, noName] at first
      cases first
  · exact (single isLiteral ((matches_literal_iff isLiteral).mp matched).1).symm

/-- The longest match at the front of a run is the run. -/
theorem best_run {run rest : List Char} (nonempty : run ≠ []) (plain : ∀ c ∈ run, isNameChar c = true)
    (stop : ∀ c ∈ rest.head?, isNameChar c = false) : Best (run ++ rest) ⟨.ofRun run, run.length⟩ := by
  have inRun {t : Token} (literal : t ∈ Token.literals) (begins : t.spelling.toList <+: run ++ rest) :
      t.spelling.toList <+: run := spelling_prefix_run nonempty plain stop literal begins
  refine ⟨?_, fun y matched => ?_, fun t literal matched => ?_⟩
  · by_cases whole : ∃ t ∈ Token.literals, t.spelling.toList = run
    · obtain ⟨t, literal, rfl⟩ := whole
      rw [ofRun_eq_of_spelling literal rfl, String.length_toList]
      exact .literal literal (List.prefix_append _ rest)
    · rw [ofRun_eq_name fun t literal same => whole ⟨t, literal, same⟩]
      exact .name nonempty plain (List.prefix_append run rest)
  · cases matched with
    | literal literal begins => simpa only [String.length_toList] using (inRun literal begins).length_le
    | name _ named begins =>
      obtain ⟨after, same⟩ := begins
      have taken := takeWhile_run plain stop
      rw [← same, List.takeWhile_append_of_pos named] at taken
      exact (List.prefix_append _ _).length_le.trans_eq (congrArg List.length taken)
  · obtain ⟨begins, length⟩ := (matches_literal_iff literal).mp matched
    refine ofRun_eq_of_spelling literal ((inRun literal begins).eq_of_length ?_)
    rw [String.length_toList]
    exact length.symm

theorem Munches.unique {text : List Char} {tokens others : List Token} (munches : Munches text tokens)
    (again : Munches text others) : tokens = others := by
  induction munches generalizing others with
  | nil =>
    cases again
    rfl
  | blank white _ ih =>
    cases again with
    | blank _ behind => exact ih behind
    | lexeme notWhite => exact absurd white (by simp [notWhite])
  | lexeme notWhite best _ ih =>
    cases again with
    | blank white => exact absurd white (by simp [notWhite])
    | lexeme _ other behind =>
      cases best.unique other
      rw [ih behind]

theorem Reads.munches {text : List Char} {tokens : List Token} (reads : Reads text tokens) : Munches text tokens := by
  induction reads with
  | nil => exact .nil
  | blank white _ ih => exact .blank white ih
  | bar _ ih => exact .lexeme (by decide) (best_mark (by decide) rfl (by decide) _) ih
  | colon _ ih => exact .lexeme (by decide) (best_mark (by decide) rfl (by decide) _) ih
  | @run run rest tokens nonempty plain stop _ ih =>
    have best := best_run nonempty plain stop
    have behind : Munches ((run ++ rest).drop run.length) tokens := by rwa [List.drop_left]
    obtain ⟨c, others, rfl⟩ := List.exists_cons_of_ne_nil nonempty
    exact .lexeme (isBlank_of_isNameChar (plain c (.head _))) best behind

theorem munches_iff_reads {text : List Char} (noSign : '#' ∉ text) {tokens : List Token} :
    Munches text tokens ↔ Reads text tokens := by
  refine ⟨fun munches => ?_, Reads.munches⟩
  obtain ⟨others, reads⟩ := exists_reads text noSign
  rwa [munches.unique reads.munches]

/-! ### Runs -/

theorem words_append {first second : List Char}
    (apart : ∀ c ∈ first.getLast?, ∀ d ∈ second.head?, together c d = false) :
    words (first ++ second) = words first ++ words second := by
  rw [words, List.splitBy_append apart, List.filter_append]
  rfl

theorem words_singleton (c : Char) : words [c] = if isBlank c then [] else [[c]] := by
  cases white : isBlank c <;> simp [words, List.splitBy, List.splitBy.loop, white]

theorem words_run {run : List Char} (nonempty : run ≠ []) (plain : ∀ c ∈ run, isNameChar c = true) : words run = [run] := by
  have chain : run.IsChain fun c d => together c d = true := by
    refine List.Pairwise.isChain (List.pairwise_of_forall_mem_list fun c first d second => ?_)
    simp [together, plain c first, plain d second]
  obtain ⟨c, others, rfl⟩ := List.exists_cons_of_ne_nil nonempty
  have noBlank := isBlank_of_isNameChar (plain c (.head _))
  rw [words, List.splitBy_of_isChain nonempty chain]
  simp [noBlank]

/-- A character that is in no run parts what stands before and behind it. -/
theorem words_part {c : Char} (noName : isNameChar c = false) (before after : List Char) :
    words (before ++ c :: after) = words before ++ words [c] ++ words after := by
  have left : ∀ d ∈ before.getLast?, ∀ e ∈ (c :: after).head?, together d e = false := by
    intro d _ e next
    obtain rfl : c = e := by simpa using next
    simp [together, noName]
  have right : ∀ d ∈ [c].getLast?, ∀ e ∈ after.head?, together d e = false := by
    intro d last e _
    obtain rfl : c = d := by simpa using last
    simp [together, noName]
  rw [words_append left, ← List.singleton_append, words_append right, List.append_assoc]

theorem words_blank {c : Char} (white : isBlank c = true) (before after : List Char) :
    words (before ++ c :: after) = words before ++ words after := by
  rw [words_part (by simp [isNameChar, white]), words_singleton, if_pos white, List.append_nil]

theorem words_mark {c : Char} (mark : c = '|' ∨ c = ':') (before after : List Char) :
    words (before ++ c :: after) = words before ++ [c] :: words after := by
  rcases mark with rfl | rfl <;>
    · rw [words_part (by decide), words_singleton, if_neg (by decide), List.append_assoc]
      rfl

theorem words_longest_run {before run after : List Char} (nonempty : run ≠ []) (plain : ∀ c ∈ run, isNameChar c = true)
    (start : ∀ c ∈ before.getLast?, isNameChar c = false) (stop : ∀ c ∈ after.head?, isNameChar c = false) :
    words (before ++ run ++ after) = words before ++ run :: words after := by
  have left : ∀ c ∈ before.getLast?, ∀ d ∈ (run ++ after).head?, together c d = false := by
    intro c last d _
    simp [together, start c last]
  have right : ∀ c ∈ run.getLast?, ∀ d ∈ after.head?, together c d = false := by
    intro c _ d next
    simp [together, stop d next]
  rw [List.append_assoc, words_append left, words_append right, words_run nonempty plain]
  rfl

theorem Reads.eq_words {text : List Char} {tokens : List Token} (reads : Reads text tokens) :
    tokens = (words text).map Token.ofRun := by
  induction reads with
  | nil => rfl
  | @blank c rest tokens white _ ih =>
    have cut : words (c :: rest) = words rest := words_blank white [] rest
    rw [cut, ih]
  | @bar rest tokens _ ih =>
    have cut : words ('|' :: rest) = ['|'] :: words rest := words_mark (.inl rfl) [] rest
    rw [cut, ih]
    rfl
  | @colon rest tokens _ ih =>
    have cut : words (':' :: rest) = [':'] :: words rest := words_mark (.inr rfl) [] rest
    rw [cut, ih]
    rfl
  | @run run rest tokens nonempty plain stop _ ih =>
    have start : ∀ c ∈ ([] : List Char).getLast?, isNameChar c = false := by simp
    have cut : words (run ++ rest) = run :: words rest := words_longest_run nonempty plain start stop
    rw [cut, ih]
    rfl

theorem tokens?_eq_words {text : List Char} (noSign : '#' ∉ text) :
    tokens? text = some ((words text).map Token.ofRun) := by
  obtain ⟨tokens, reads⟩ := exists_reads text noSign
  rw [(tokens?_eq_some_iff noSign).mpr reads, reads.eq_words]

/-! ### Whole texts -/

theorem readLine_ne_invalidToken {draft : Draft} {raw : List Char} {fault : SyntaxFault}
    (failed : draft.readLine raw = .error fault) : fault ≠ .invalidToken := by
  obtain ⟨tokens, reads⟩ := exists_reads (uncommented raw) (noSign_uncommented raw)
  rw [readLine_eq reads] at failed
  split at failed
  · cases failed
  · cases outcome : Line.ofTokens tokens with
    | error other =>
      rw [outcome] at failed
      cases failed
      rcases ofTokens_error outcome with ⟨token, rfl, _⟩ | ⟨rfl, _⟩ <;> exact nofun
    | ok line =>
      rw [outcome] at failed
      rcases enter_eq_error failed with rfl | rfl | ⟨declaration, rfl⟩ <;> exact nofun

theorem ofText_ne_invalidToken {text : String} {e : SyntaxError} (refused : Spec.ofText text = .error e) :
    e.fault ≠ .invalidToken := by
  rcases Spec.failed_or_noStart refused with failed | ⟨_, _, _, _, rfl⟩
  · obtain ⟨_, _, _, _, _, _, fault, _⟩ := readLines_eq_error_iff.mp failed
    exact readLine_ne_invalidToken fault
  · exact nofun

theorem message_ne_of_ne {fault : SyntaxFault} (other : fault ≠ .invalidToken) : fault.message ≠ "invalid token" := by
  intro same
  have first : fault.message.toList.head? = some 'i' := congrArg (·.toList.head?) same
  cases fault with
  | invalidToken => exact other rfl
  | unexpected token =>
    rw [SyntaxFault.message, String.toList_append, String.toList_append] at first
    cases first
  | duplicate declaration => cases declaration <;> cases first
  | _ => cases first

/-- The scanner fails in no line without a number sign. It takes the longest match everywhere, which comes to the same
as cutting the line into bars, colons and longest runs of other characters; a run is a literal if it is one as a
whole, and else a name. -/
theorem tokens?_exact :
    (∀ text, '#' ∉ text → tokens? text = some ((words text).map Token.ofRun) ∧
      ∀ tokens, tokens? text = some tokens ↔ Munches text tokens) ∧
    (∀ before c after, isBlank c = true → words (before ++ c :: after) = words before ++ words after) ∧
    (∀ before c after, c = '|' ∨ c = ':' → words (before ++ c :: after) = words before ++ [c] :: words after) ∧
    (∀ before run after, run ≠ [] → (∀ c ∈ run, isNameChar c = true) → (∀ c ∈ before.getLast?, isNameChar c = false) →
      (∀ c ∈ after.head?, isNameChar c = false) → words (before ++ run ++ after) = words before ++ run :: words after) ∧
    Token.literals.map Token.spelling = ["->", "ε", "nonterminals", "terminals", "start", "|", ":"] ∧
    (∀ run, (∀ t ∈ Token.literals, Token.ofRun run = t ↔ t.spelling.toList = run) ∧
      ∀ text, Token.ofRun run = .name text ↔ text = String.ofList run ∧ ∀ t ∈ Token.literals, t.spelling.toList ≠ run) ∧
    ∀ text e, Spec.ofText text = .error e → e.fault ≠ .invalidToken ∧ e.fault.message ≠ "invalid token" := by
  refine ⟨fun text noSign => ⟨tokens?_eq_words noSign, fun tokens => ?_⟩, fun before c after white => words_blank white _ _,
    fun before c after mark => words_mark mark _ _, fun before run after => words_longest_run, rfl,
    fun run => ⟨fun t literal => ofRun_eq_literal_iff literal, fun text => ofRun_eq_name_iff⟩, fun text e refused => ?_⟩
  · rw [tokens?_eq_some_iff noSign, munches_iff_reads noSign]
  · have other := ofText_ne_invalidToken refused
    exact ⟨other, message_ne_of_ne other⟩

/-- Literals inside of longer runs, and an em space. -/
def glued : List Char := "a->b|starts εx\u2003:ε".toList

theorem glued_exact :
    (tokens? glued = some [.name "a->b", .bar, .name "starts", .name "εx", .colon, .epsilon] ∧
      Munches glued [.name "a->b", .bar, .name "starts", .name "εx", .colon, .epsilon]) ∧
    words glued = words "a->b|starts ".toList ++ "εx".toList :: words "\u2003:ε".toList ∧
    words "\u2003:ε".toList = words ":ε".toList ∧ words ":ε".toList = [':'] :: words "ε".toList ∧
    Token.ofRun "starts".toList ≠ .keyword .start ∧
    ∃ e, Spec.ofText "start: S\nS->a" = .error e ∧ e.fault.message ≠ "invalid token" := by
  obtain ⟨scanner, blank, mark, run, _, literal, valid⟩ := tokens?_exact
  have noSign : '#' ∉ glued := by decide
  have cut : (words glued).map Token.ofRun = [.name "a->b", .bar, .name "starts", .name "εx", .colon, .epsilon] := by
    decide +kernel
  obtain ⟨tokens, munches⟩ := scanner glued noSign
  rw [cut] at tokens
  have refused : Spec.ofText "start: S\nS->a" = .error ⟨2, .unexpectedEnd⟩ := by decide +kernel
  refine ⟨⟨tokens, (munches _).mp tokens⟩, ?_, blank [] _ _ (by decide), mark [] _ _ (.inr rfl), ?_, _, refused,
    (valid _ _ refused).2⟩
  · refine run "a->b|starts ".toList "εx".toList "\u2003:ε".toList (by decide) ?_ ?_ ?_ <;>
      simp [isNameChar, isBlank, blankRanges]
  · rw [Ne, (literal _).1 (.keyword .start) (by decide)]
    decide

end ContextFree.Text
